import ForkChoice.Store.Basic

/-!
# ForkChoice — uncommitted changes

A draft holds changes on top of a committed store. Its view shows the changes; nobody else sees
them before the draft is committed, which makes them visible all at once.

* `Draft.ofStore`, `Draft.view`, `Draft.commit` — the life of a draft;
* `Draft.tick` — time passes;
* `Draft.importBlock` — a block with a known parent joins the tree;
* `Draft.attest` — an attestation changes the votes of its participants;
* `Draft.discardVotes` — all votes are forgotten.

Operations return their result together with the draft that they leave, also when they fail.
-/

namespace ForkChoice

/-- How often the rules by which states move on have been applied. -/
structure TransitionCalls where
  processSlots : Nat := 0
  applyBlock : Nat := 0
  deriving Repr, DecidableEq, Inhabited

/-- The sum of two counts. -/
def TransitionCalls.add (a b : TransitionCalls) : TransitionCalls :=
  ⟨a.processSlots + b.processSlots, a.applyBlock + b.applyBlock⟩

/-- The changes of a draft. -/
structure Overlay where
  time : Option UInt64 := none
  justified : Option Checkpoint := none
  bestJustified : Option Checkpoint := none
  finalized : Option Checkpoint := none
  blocks : Table Root Block := ∅
  states : Table Root BeaconState := ∅
  checkpointStates : Table Checkpoint BeaconState := ∅
  links : List Link := []
  latestMessages : Table ValidatorIndex LatestMessage := ∅
  /-- Whether the votes of the committed store no longer count. -/
  discardsVotes : Bool := false

/-- Uncommitted changes on top of a committed store. -/
structure Draft where
  base : Store
  overlay : Overlay := {}
  calls : TransitionCalls := {}

/-- What became of a block that was not refused. -/
inductive ImportResult where
  | imported (root : Root)
  | alreadyKnown (root : Root)
  deriving Repr, DecidableEq

/-- What the store knows of a block before it is applied. -/
inductive Admission where
  | known (root : Root)
  | fresh (root : Root) (parentState : BeaconState)

namespace Draft

/-- A draft without changes. -/
def ofStore (s : Store) : Draft := { base := s }

/-- What can be read from the store with the changes applied. -/
def view (d : Draft) : StoreView where
  preset := d.base.preset
  config := d.base.config
  limits := d.base.limits
  genesisTime := d.base.genesisTime
  time := d.overlay.time.getD d.base.time
  anchorRoot := d.base.anchorRoot
  justified := d.overlay.justified.getD d.base.justified
  bestJustified := d.overlay.bestJustified.getD d.base.bestJustified
  finalized := d.overlay.finalized.getD d.base.finalized
  importCount := d.base.links.length + d.overlay.links.length
  block? root := d.overlay.blocks[root]? <|> d.base.blocks[root]?
  state? root := d.overlay.states[root]? <|> d.base.states[root]?
  checkpointState? checkpoint :=
    d.overlay.checkpointStates[checkpoint]? <|> d.base.checkpointStates[checkpoint]?
  latestMessage? index :=
    let overlaid := d.overlay.latestMessages[index]?
    if d.overlay.discardsVotes then overlaid else overlaid <|> d.base.latestMessages.get? index
  children parent := childrenIn d.base.links parent ++ childrenIn d.overlay.links parent

/-- The store with the changes applied. -/
def commit (d : Draft) : Store :=
  let votes := if d.overlay.discardsVotes then .empty else d.base.latestMessages
  { d.base with
    time := d.overlay.time.getD d.base.time
    justified := d.overlay.justified.getD d.base.justified
    bestJustified := d.overlay.bestJustified.getD d.base.bestJustified
    finalized := d.overlay.finalized.getD d.base.finalized
    blocks := d.base.blocks ∪ d.overlay.blocks
    states := d.base.states ∪ d.overlay.states
    checkpointStates := d.base.checkpointStates ∪ d.overlay.checkpointStates
    links := d.base.links ++ d.overlay.links
    latestMessages := votes.extend d.overlay.latestMessages.toList }

/-! ## Changes -/

/-- Replaces the time. -/
def setTime (d : Draft) (time : UInt64) : Draft :=
  { d with overlay := { d.overlay with time := some time } }

/-- Replaces the justified checkpoint. -/
def setJustified (d : Draft) (checkpoint : Checkpoint) : Draft :=
  { d with overlay := { d.overlay with justified := some checkpoint } }

/-- Replaces the best justified checkpoint. -/
def setBestJustified (d : Draft) (checkpoint : Checkpoint) : Draft :=
  { d with overlay := { d.overlay with bestJustified := some checkpoint } }

/-- Replaces the finalized checkpoint. -/
def setFinalized (d : Draft) (checkpoint : Checkpoint) : Draft :=
  { d with overlay := { d.overlay with finalized := some checkpoint } }

/-- Adds a block and the state after it. -/
def insertBlock (d : Draft) (root : Root) (block : Block) (state : BeaconState) : Draft :=
  { d with overlay := { d.overlay with
      blocks := d.overlay.blocks.insert root block
      states := d.overlay.states.insert root state
      links := d.overlay.links ++ [⟨block.parentRoot, root⟩] } }

/-- Adds the state at a checkpoint. -/
def insertCheckpointState (d : Draft) (checkpoint : Checkpoint) (state : BeaconState) : Draft :=
  { d with overlay := { d.overlay with
      checkpointStates := d.overlay.checkpointStates.insert checkpoint state } }

/-- Records the vote of a validator if it takes the place of the present one. -/
def mergeVote (message : LatestMessage) (d : Draft) (index : ValidatorIndex) : Draft :=
  if LatestMessages.replaces message (d.view.latestMessage? index) then
    { d with overlay := { d.overlay with
        latestMessages := d.overlay.latestMessages.insert index message } }
  else d

/-- Records the votes of several validators for one message. -/
def mergeVotes (d : Draft) (indices : List ValidatorIndex) (message : LatestMessage) : Draft :=
  indices.foldl (mergeVote message) d

/-- Counts one more application of the rule for slots. -/
def countProcessSlots (d : Draft) : Draft :=
  { d with calls := { d.calls with processSlots := d.calls.processSlots + 1 } }

/-- Counts one more application of the rule for blocks. -/
def countApplyBlock (d : Draft) : Draft :=
  { d with calls := { d.calls with applyBlock := d.calls.applyBlock + 1 } }

/-- Forgets all votes, also those recorded earlier in the draft. -/
def discardVotes (d : Draft) : Draft :=
  { d with overlay := { d.overlay with latestMessages := ∅, discardsVotes := true } }

/-! ## Time -/

/-- Moves on to a later time. When a new epoch begins, a better justified checkpoint that was
held back takes effect. -/
def tick (d : Draft) (time : UInt64) : Draft :=
  if time ≤ d.view.time then d
  else
    let previous := d.view.currentSlot
    let d := d.setTime time
    let current := d.view.currentSlot
    if current ≤ previous || !d.view.preset.isEpochStart current then d
    else if d.view.justified.epoch < d.view.bestJustified.epoch then
      d.setJustified d.view.bestJustified
    else d

end Draft

/-! ## Blocks -/

namespace StoreView

variable [HashFunction]

/-- Checks a block that is not known yet with everything that does not need the state after it,
and gives its root and the state after its parent. -/
def admitBlock (v : StoreView) (b : Block) : Outcome StoreError Admission := do
  let root ← b.treeRoot
  if v.containsBlock root then return .known root
  else
    match v.state? b.parentRoot with
    | none => Outcome.fail (.noParentBlock root b.parentRoot)
    | some parentState =>
      if v.currentSlot < b.slot then Outcome.fail (.blockInFuture b.slot v.currentSlot)
      else if b.slot ≤ v.finalizedSlot then Outcome.fail (.blockFinalized b.slot v.finalizedSlot)
      else
        let ancestor ← v.ancestor b.parentRoot v.finalizedSlot
        if ancestor ≠ some v.finalized.root then
          Outcome.fail (.blockNotDescendantOfFinalized root v.finalized.root)
        else
          let last ← Word.add parentState.slot v.limits.maxEmptySlots
          if last < b.slot then
            Outcome.fail (.tooManyEmptySlots parentState.slot v.limits.maxEmptySlots b.slot)
          else return .fresh root parentState

/-- Whether a better justified checkpoint may take effect now: early in an epoch always, later
only if it does not conflict with the present one. -/
def shouldUpdateJustified (v : StoreView) (candidate : Checkpoint) : Outcome StoreError Bool := do
  if v.preset.slotsSinceEpochStart v.currentSlot < v.preset.safeSlotsToUpdateJustified then
    return true
  else
    let ancestor ← v.ancestor candidate.root (v.preset.startSlot v.justified.epoch)
    return ancestor = some v.justified.root

/-- Whether the justified checkpoint is on the chain of a new finalized one. -/
def justifiedDescendsFrom (v : StoreView) (justified finalized : Checkpoint) :
    Outcome StoreError Bool := do
  let ancestor ← v.ancestor justified.root v.finalizedSlot
  return ancestor = some finalized.root

end StoreView

namespace Draft

/-- Takes note of the justified checkpoint of a new state. -/
def updateJustified (d : Draft) (candidate : Checkpoint) :
    Outcome StoreError Unit × Draft :=
  if candidate.epoch ≤ d.view.justified.epoch then (.ok (), d)
  else
    let d := if d.view.bestJustified.epoch < candidate.epoch then d.setBestJustified candidate else d
    match d.view.shouldUpdateJustified candidate with
    | .error failure => (.error failure, d)
    | .ok update => (.ok (), if update then d.setJustified candidate else d)

/-- Takes note of the finalized checkpoint of a new state, whose justified checkpoint takes effect
if it is later than the present one or if the present one conflicts with what is now final. -/
def updateFinalized (d : Draft) (candidate stateJustified : Checkpoint) :
    Outcome StoreError Unit × Draft :=
  if candidate.epoch ≤ d.view.finalized.epoch then (.ok (), d)
  else
    let d := d.setFinalized candidate
    let justified := d.view.justified
    if justified = stateJustified then (.ok (), d)
    else if justified.epoch < stateJustified.epoch then (.ok (), d.setJustified stateJustified)
    else
      match d.view.justifiedDescendsFrom justified candidate with
      | .error failure => (.error failure, d)
      | .ok descends => (.ok (), if descends then d else d.setJustified stateJustified)

/-- Takes note of the checkpoints of a new state. -/
def updateCheckpoints (d : Draft) (state : BeaconState) :
    Outcome StoreError Unit × Draft :=
  match d.updateJustified state.currentJustified with
  | (.error failure, d) => (.error failure, d)
  | (.ok (), d) => d.updateFinalized state.finalized state.currentJustified

/-- Adds a block whose parent is known, and the state after it. -/
def importBlock [HashFunction] (t : StateTransition) (d : Draft) (b : Block) :
    Outcome StoreError ImportResult × Draft :=
  match d.view.admitBlock b with
  | .error failure => (.error failure, d)
  | .ok (.known root) => (.ok (.alreadyKnown root), d)
  | .ok (.fresh root parentState) =>
    let d := d.countApplyBlock
    match t.applyBlock parentState b with
    | .error failure => (.error (failure.map .transition), d)
    | .ok state =>
      match (d.insertBlock root b state).updateCheckpoints state with
      | (.error failure, d) => (.error failure, d)
      | (.ok (), d) => (.ok (.imported root), d)

end Draft

/-! ## Attestations -/

namespace StoreView

/-- Checks a vote with everything that does not need a state at its target, and gives the state
after the target block. -/
def admitVote (v : StoreView) (data : AttestationData) : Outcome StoreError BeaconState := do
  let target := data.target
  let early : Outcome StoreError BeaconState :=
    Outcome.fail (.earlyForkChoiceConsideration data.slot v.currentSlot)
  if v.currentEpoch < target.epoch then early
  else if target.epoch < v.previousEpoch then
    Outcome.fail (.targetEpochTooOld target.epoch v.currentEpoch)
  else if target.epoch ≠ v.preset.epochAt data.slot then
    Outcome.fail (.targetEpochMismatch target.epoch data.slot)
  else
    match v.state? target.root with
    | none => Outcome.fail (.unknownTargetRoot target.root)
    | some targetState =>
      let targetSlot := v.preset.startSlot target.epoch
      if v.currentSlot < targetSlot then early
      else
        match v.block? data.blockRoot with
        | none => Outcome.fail (.unknownBlockRoot data.blockRoot)
        | some block =>
          let blockEpoch := v.preset.epochAt block.slot
          if data.slot < block.slot then
            Outcome.fail (.blockAfterAttestation block.slot data.slot)
          else if target.epoch < blockEpoch then
            Outcome.fail (.blockEpochAfterTarget blockEpoch target.epoch)
          else
            let ancestor ← v.ancestor data.blockRoot targetSlot
            if ancestor ≠ some target.root then
              Outcome.fail (.lmdGhostInconsistentWithFfgTarget data.blockRoot target.root)
            else return targetState

/-- Checks an attestation at the state of its target, and gives the indices of its
participants. -/
def admitParticipants [HashFunction] [SignatureScheme] (v : StoreView) (check : SignatureCheck)
    (state : BeaconState) (a : Attestation) : Outcome StoreError (List ValidatorIndex) := do
  let next ← Word.add a.data.slot 1
  if v.currentSlot < next then
    Outcome.fail (.earlyForkChoiceConsideration a.data.slot v.currentSlot)
  else
    let indexed ← (state.indexed v.preset a).mapError fun reason =>
      .invalidAttestation a.data.slot (.query reason)
    match indexed.validate v.preset v.config state check true with
    | .error reason => Outcome.fail (.invalidAttestation a.data.slot reason)
    | .ok () => return indexed.attestingIndices

end StoreView

namespace Draft

/-- The state at a checkpoint: a stored one, or the state after the block of the checkpoint,
advanced to the first slot of the epoch; it is stored then. -/
def checkpointState (t : StateTransition) (d : Draft) (target : Checkpoint)
    (targetState : BeaconState) : Outcome StoreError BeaconState × Draft :=
  match d.view.checkpointState? target with
  | some state => (.ok state, d)
  | none =>
    let targetSlot := d.view.preset.startSlot target.epoch
    if targetSlot ≤ targetState.slot then
      (.ok targetState, d.insertCheckpointState target targetState)
    else
      match Word.add targetState.slot d.view.limits.maxEmptySlots with
      | .error reason => (.error (.fault reason), d)
      | .ok last =>
        if last < targetSlot then
          (Outcome.fail (.tooManyEmptySlots targetState.slot d.view.limits.maxEmptySlots targetSlot), d)
        else
          let d := d.countProcessSlots
          match t.processSlots targetState targetSlot with
          | .error failure => (.error (failure.map .transition), d)
          | .ok state => (.ok state, d.insertCheckpointState target state)

/-- Records the votes of an attestation, and gives the indices of its participants. -/
def attest [HashFunction] [SignatureScheme] (t : StateTransition) (check : SignatureCheck)
    (d : Draft) (a : Attestation) : Outcome StoreError (List ValidatorIndex) × Draft :=
  match d.view.admitVote a.data with
  | .error failure => (.error failure, d)
  | .ok targetState =>
    match d.checkpointState t a.data.target targetState with
    | (.error failure, d) => (.error failure, d)
    | (.ok state, d) =>
      match d.view.admitParticipants check state a with
      | .error failure => (.error failure, d)
      | .ok indices => (.ok indices, d.mergeVotes indices a.data.message)

end Draft

end ForkChoice
