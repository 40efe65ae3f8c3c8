import ForkChoice.Devnet.AttestationSpec
import ForkChoice.Devnet.StateSpec
import ForkChoice.Store.Draft

/-!
# ForkChoice — scenarios

A scenario is a tree of blocks with names that grows from the first block of a network. The
checkpoints after a block can be laid down, as nothing else justifies or finalizes them.

* `NamedBlock`, `Scenario` — blocks with the states after them, by name;
* `Scenario.build`, `Scenario.buildChain` — new blocks;
* `Scenario.transition` — how states move on: as usual, but for what has been laid down.
-/

namespace ForkChoice

namespace Devnet

/-- A block, its root, and the state after it. -/
structure NamedBlock where
  block : Block
  root : Root
  state : BeaconState

/-- The checkpoints that have been laid down for the state after a block. -/
structure CheckpointOverride where
  justified : Option Checkpoint
  finalized : Option Checkpoint

/-- The state after a block with the checkpoints that have been laid down. The state root in the
block is taken for that of the state. -/
def CheckpointOverride.apply (o : CheckpointOverride) (b : Block) (s : BeaconState) : BeaconState :=
  { s with
    currentJustified := o.justified.getD s.currentJustified
    finalized := o.finalized.getD s.finalized
    latestBlockHeader := { s.latestBlockHeader with stateRoot := b.stateRoot } }

/-- What is to be different in a block. -/
structure BlockPatch where
  slot : Option Slot := none
  proposerIndex : Option ValidatorIndex := none
  parentRoot : Option RootSpec := none
  stateRoot : Option RootSpec := none
  graffiti : Option RootSpec := none

/-- The block with the described differences. -/
def BlockPatch.apply (patch : BlockPatch) (c : SpecContext) (b : Block) : Attempt Block := do
  let parentRoot ← resolveOr (RootSpec.resolve c) b.parentRoot patch.parentRoot
  let stateRoot ← resolveOr (RootSpec.resolve c) b.stateRoot patch.stateRoot
  let graffiti ← resolveOr (RootSpec.resolve c) b.body.graffiti patch.graffiti
  return ⟨patch.slot.getD b.slot, patch.proposerIndex.getD b.proposerIndex, parentRoot, stateRoot,
    { b.body with graffiti := graffiti }⟩

/-- The description of a block. -/
structure BlockSpec where
  name : String
  parent : String
  slot : Slot
  graffiti : Root := 0
  attestations : List Attestation := []
  patch : BlockPatch := {}
  justified : Option CheckpointSpec := none
  finalized : Option CheckpointSpec := none

/-- Blocks by name, and what has been laid down for them. -/
structure Scenario where
  preset : Preset
  config : Config
  blocks : List (String × NamedBlock) := []
  overrides : Table Root CheckpointOverride := ∅
  /-- Slots that states cannot be moved on to by themselves. -/
  unreachableSlots : List Slot := []

namespace Scenario

/-- The block with a name. -/
def find? (c : Scenario) (name : String) : Option NamedBlock :=
  (c.blocks.find? fun entry => entry.1 = name).map (·.2)

/-- The block with a name, which has to be there. -/
def find (c : Scenario) (name : String) : Attempt NamedBlock :=
  match c.find? name with
  | some block => .ok block
  | none => Outcome.fail (.unknownBlock name)

/-- Gives a name to a block. -/
def add (c : Scenario) (name : String) (block : NamedBlock) : Scenario :=
  { c with blocks := (name, block) :: c.blocks }

/-- What names stand for. -/
def context (c : Scenario) : SpecContext where
  preset := c.preset
  config := c.config
  state? name := (c.find? name).map (·.state)
  root? name := (c.find? name).map (·.root)

/-- What names stand for, one of them for a root that has no block yet. -/
def contextWith (c : Scenario) (name : String) (root : Root) : SpecContext :=
  { c.context with root? := fun n => if n = name then some root else (c.find? n).map (·.root) }

section

variable [HashFunction]

/-- How states move on. -/
def transition (c : Scenario) : StateTransition where
  processSlots s slot :=
    if c.unreachableSlots.contains slot then Outcome.fail (.slotNotLater s.slot slot)
    else (slotTransition c.preset).processSlots s slot
  applyBlock s b := do
    match c.overrides[← b.treeRoot]? with
    | none => (slotTransition c.preset).applyBlock s b
    | some o => return o.apply b (← (s.applyBlock c.preset b .ifNeeded true).toOutcome)

/-- Begins with a state and the block that it is the state after. -/
def start (p : Preset) (config : Config) (state : BeaconState) (patch : BlockPatch)
    (unreachableSlots : List Slot) : Attempt Scenario := do
  let c : Scenario := { preset := p, config := config, unreachableSlots := unreachableSlots }
  let block ← patch.apply c.context (← genesisBlock p state)
  return c.add "anchor" ⟨block, ← block.treeRoot, state⟩

/-- The store that begins with the first block. -/
def anchorStore (c : Scenario) (limits : StoreLimits) : Attempt Store := do
  let anchor ← c.find "anchor"
  (Store.ofAnchor c.preset c.config limits anchor.block anchor.state).mapError .store

/-- The described block, and the scenario with it. -/
def build (c : Scenario) (spec : BlockSpec) : Attempt (NamedBlock × Scenario) := do
  let parent ← c.find spec.parent
  let (block, state) ←
    Attempt.ofBuild (buildBlock c.preset parent.state spec.slot spec.graffiti spec.attestations)
  let block ← spec.patch.apply c.context block
  let root ← block.treeRoot
  if spec.justified.isNone && spec.finalized.isNone then
    let named : NamedBlock := ⟨block, root, state⟩
    return (named, c.add spec.name named)
  else
    let context := c.contextWith "self" root
    let justified ← resolveOr (fun s => (s.resolve context).map some) none spec.justified
    let finalized ← resolveOr (fun s => (s.resolve context).map some) none spec.finalized
    let o : CheckpointOverride := ⟨justified, finalized⟩
    let named : NamedBlock := ⟨block, root, o.apply block state⟩
    return (named, { c.add spec.name named with overrides := c.overrides.insert root o })

/-- Blocks without attestations in a row, their names, and the scenario with them. -/
def buildChain (c : Scenario) (parent : String) (names : List String) (slots : List Slot) :
    Attempt (List Root × Scenario) := do
  let parent ← c.find parent
  let blocks ← Attempt.ofBuild (Devnet.buildChain c.preset parent.state slots)
  let named ← blocks.mapM fun (block, state) => do
    return (⟨block, ← block.treeRoot, state⟩ : NamedBlock)
  return (named.map (·.root), (names.zip named).foldl (fun c (name, block) => c.add name block) c)

end

end Scenario

end Devnet

end ForkChoice
