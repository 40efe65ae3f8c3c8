import ForkChoice.Chain.Committee

/-!
# ForkChoice — from a state to the next

A state moves on through slots, and a block moves the state of its parent on to the slot of the
block and becomes the latest block there. An operation that fails may have changed the state
before it failed; `Progress` holds the state that it leaves.

* `BeaconState.processSlot`, `BeaconState.processSlots` — the passing of slots;
* `BeaconState.processHeader` — a block becomes the latest one;
* `BeaconState.applyBlock` — both, and the check of the state root in the block;
* `StateTransition` — what the store of blocks needs of this, `slotTransition` — the usual one.
-/

namespace ForkChoice

/-- Why a state cannot move on. -/
inductive TransitionError where
  | blockNotNewerThanLatestBlockHeader (block header : Slot)
  | parentRootMismatch (computed inBlock : Root)
  | proposerIndexMismatch (computed inBlock : ValidatorIndex)
  | proposerSlashed (index : ValidatorIndex)
  | slotMismatch (state block : Slot)
  | slotNotLater (current target : Slot)
  | stateRootMismatch (computed inBlock : Root)
  | query (reason : QueryError)
  deriving Repr, DecidableEq

namespace TransitionError

/-- The name of the error. -/
def name : TransitionError → String
  | .blockNotNewerThanLatestBlockHeader .. => "BlockNotNewerThanLatestBlockHeader"
  | .parentRootMismatch .. => "ParentRootMismatch"
  | .proposerIndexMismatch .. => "ProposerIndexMismatch"
  | .proposerSlashed .. => "ProposerSlashed"
  | .slotMismatch .. => "SlotMismatch"
  | .slotNotLater .. => "SlotNotLater"
  | .stateRootMismatch .. => "StateRootMismatch"
  | .query .. => "Accessor"

/-- The text of the error. -/
def message : TransitionError → String
  | .blockNotNewerThanLatestBlockHeader block header =>
    s!"block is not newer than latest block header ({block} <= {header})"
  | .parentRootMismatch computed inBlock =>
    s!"block parent root ({Hex.text inBlock}) does not match latest block header ({Hex.text computed})"
  | .proposerIndexMismatch computed inBlock =>
    s!"proposer index is incorrect (in_block: {inBlock}, computed: {computed})"
  | .proposerSlashed index => s!"proposer (validator {index}) is slashed"
  | .slotMismatch state block => s!"block slot ({block}) does not match state slot ({state})"
  | .slotNotLater current target =>
    s!"target slot ({target}) is not later than current slot ({current})"
  | .stateRootMismatch computed inBlock =>
    s!"state root in block ({Hex.text inBlock}) does not match state ({Hex.text computed})"
  | .query reason => reason.message

end TransitionError

/-- The state that an operation leaves, and why it failed if it did. -/
structure Progress where
  state : BeaconState
  result : Outcome TransitionError Unit

namespace Progress

/-- The state that a successful operation leaves. -/
def done (s : BeaconState) : Progress := ⟨s, .ok ()⟩

/-- The state that an operation leaves that fails. -/
def failed (s : BeaconState) (reason : TransitionError) : Progress := ⟨s, Outcome.fail reason⟩

/-- The state `s` that is left if a computation fails, or else the result of the computation. -/
def ofChecked (s : BeaconState) : Checked BeaconState → Progress
  | .ok s => done s
  | .error reason => ⟨s, .error (.fault reason)⟩

/-- Continues with another operation if the first one succeeded. -/
def andThen (first : Progress) (next : BeaconState → Progress) : Progress :=
  match first.result with
  | .ok () => next first.state
  | .error _ => first

/-- The state if the operation succeeded. -/
def toOutcome (progress : Progress) : Outcome TransitionError BeaconState :=
  match progress.result with
  | .ok () => .ok progress.state
  | .error failure => .error failure

end Progress

/-- When slots are processed in front of a block. -/
inductive SlotPolicy where
  | always
  | ifNeeded
  | never
  deriving Repr, DecidableEq

/-- Whether slots are processed in front of the block. -/
def SlotPolicy.applies (policy : SlotPolicy) (s : BeaconState) (b : Block) : Bool :=
  match policy with
  | .always => true
  | .ifNeeded => s.slot ≠ b.slot
  | .never => false

namespace BeaconState

section

variable [HashFunction]

/-- Records the roots of the state and of the latest block under the slot of the state. -/
def processSlot (p : Preset) (s : BeaconState) : Checked BeaconState := do
  let index := (s.slot % p.slotsPerHistoricalRoot).toNat
  let stateRoot ← s.treeRoot p
  let stateRoots ← Checked.setAt s.stateRoots index stateRoot
  let header := s.latestBlockHeader
  let header := if header.stateRoot = 0 then { header with stateRoot := stateRoot } else header
  let blockRoots ← Checked.setAt s.blockRoots index header.treeRoot
  return { s with stateRoots := stateRoots, latestBlockHeader := header, blockRoots := blockRoots }

/-- Moves on by `count` slots. -/
def advanceBy (p : Preset) : Nat → BeaconState → Checked BeaconState
  | 0, s => .ok s
  | count + 1, s => do
    let s ← s.processSlot p
    advanceBy p count { s with slot := s.slot + 1 }

/-- Moves on to a later slot. -/
def processSlots (p : Preset) (s : BeaconState) (slot : Slot) : Progress :=
  if slot ≤ s.slot then .failed s (.slotNotLater s.slot slot)
  else .ofChecked s (advanceBy p (slot - s.slot).toNat s)

/-- Whether a validator is known and slashed. -/
def isSlashed (s : BeaconState) (index : ValidatorIndex) : Bool :=
  match s.validators[index.toNat]? with
  | some validator => validator.slashed
  | none => false

/-- The conditions under which a block may become the latest one at a state. -/
def checkHeader (p : Preset) (s : BeaconState) (b : Block) : Outcome TransitionError Unit := do
  if b.slot ≠ s.slot then Outcome.fail (.slotMismatch s.slot b.slot)
  else if b.slot ≤ s.latestBlockHeader.slot then
    Outcome.fail (.blockNotNewerThanLatestBlockHeader b.slot s.latestBlockHeader.slot)
  else
    let computed ← (s.proposer p).mapError .query
    if b.proposerIndex ≠ computed then
      Outcome.fail (.proposerIndexMismatch computed b.proposerIndex)
    else
      let computed := s.latestBlockHeader.treeRoot
      if b.parentRoot ≠ computed then Outcome.fail (.parentRootMismatch computed b.parentRoot)
      else return ()

/-- Makes a block the latest one, with a state root that is filled in when the slot passes. -/
def processHeader (p : Preset) (s : BeaconState) (b : Block) : Progress :=
  match s.checkHeader p b with
  | .error failure => ⟨s, .error failure⟩
  | .ok () =>
    match b.header with
    | .error reason => ⟨s, .error (.fault reason)⟩
    | .ok header =>
      let s := { s with latestBlockHeader := { header with stateRoot := 0 } }
      if s.isSlashed b.proposerIndex then .failed s (.proposerSlashed b.proposerIndex) else .done s

/-- Checks the state root in a block. -/
def checkStateRoot (p : Preset) (s : BeaconState) (b : Block) : Progress :=
  match s.treeRoot p with
  | .error reason => ⟨s, .error (.fault reason)⟩
  | .ok computed =>
    if computed ≠ b.stateRoot then .failed s (.stateRootMismatch computed b.stateRoot) else .done s

/-- Moves on to the slot of a block, makes it the latest block, and checks its state root unless
it is trusted. -/
def applyBlock (p : Preset) (s : BeaconState) (b : Block) (policy : SlotPolicy) (trust : Bool) :
    Progress :=
  let start := if policy.applies s b then s.processSlots p b.slot else .done s
  (start.andThen (·.processHeader p b)).andThen fun s =>
    if trust then .done s else s.checkStateRoot p b

end

end BeaconState

/-! ## State transitions -/

/-- What the store of blocks needs of the rules by which states move on. -/
structure StateTransition where
  processSlots : BeaconState → Slot → Outcome TransitionError BeaconState
  applyBlock : BeaconState → Block → Outcome TransitionError BeaconState

/-- The passing of slots and blocks with a checked state root. -/
def slotTransition [HashFunction] (p : Preset) : StateTransition where
  processSlots s slot := (s.processSlots p slot).toOutcome
  applyBlock s b := (s.applyBlock p b .ifNeeded false).toOutcome

end ForkChoice
