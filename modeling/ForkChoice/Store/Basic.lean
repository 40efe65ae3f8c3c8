import ForkChoice.Store.View

/-!
# ForkChoice — the store of blocks

* `Store` — blocks, their states, checkpoints and votes, as last committed;
* `Store.ofAnchor` — the store that starts from one trusted block and its state;
* `Store.view` — what can be read.
-/

namespace ForkChoice

/-- That a block was imported on top of another one. -/
structure Link where
  parent : Root
  child : Root
  deriving Repr, DecidableEq, Inhabited

/-- The children of a block, in the order of import. -/
def childrenIn (links : List Link) (parent : Root) : List Root :=
  links.filterMap fun link => if link.parent = parent then some link.child else none

/-- Blocks, their states, checkpoints and votes, as last committed. -/
structure Store where
  preset : Preset
  config : Config
  limits : StoreLimits
  genesisTime : UInt64
  time : UInt64
  anchorRoot : Root
  justified : Checkpoint
  bestJustified : Checkpoint
  finalized : Checkpoint
  blocks : Table Root Block
  states : Table Root BeaconState
  checkpointStates : Table Checkpoint BeaconState
  /-- The imported blocks with their parents, in the order of import. -/
  links : List Link
  latestMessages : LatestMessages

namespace Store

/-- What can be read from a committed store. -/
def view (s : Store) : StoreView where
  preset := s.preset
  config := s.config
  limits := s.limits
  genesisTime := s.genesisTime
  time := s.time
  anchorRoot := s.anchorRoot
  justified := s.justified
  bestJustified := s.bestJustified
  finalized := s.finalized
  importCount := s.links.length
  block? root := s.blocks[root]?
  state? root := s.states[root]?
  checkpointState? checkpoint := s.checkpointStates[checkpoint]?
  latestMessage? := s.latestMessages.get?
  children := childrenIn s.links

/-- The store that knows one block, which is trusted, and its state. -/
def ofAnchor [HashFunction] (p : Preset) (config : Config) (limits : StoreLimits) (block : Block)
    (state : BeaconState) : Outcome StoreError Store := do
  let root ← block.treeRoot
  let stateRoot ← state.treeRoot p
  if block.stateRoot ≠ stateRoot then
    Outcome.fail (.anchorStateRootMismatch block.stateRoot stateRoot)
  else
    let checkpoint : Checkpoint := ⟨p.epochAt state.slot, root⟩
    let elapsed ← Word.mul state.slot config.secondsPerSlot
    let time ← Word.add state.genesisTime elapsed
    return {
      preset := p
      config := config
      limits := limits
      genesisTime := state.genesisTime
      time := time
      anchorRoot := root
      justified := checkpoint
      bestJustified := checkpoint
      finalized := checkpoint
      blocks := (∅ : Table Root Block).insert root block
      states := (∅ : Table Root BeaconState).insert root state
      checkpointStates := (∅ : Table Checkpoint BeaconState).insert checkpoint state
      links := []
      latestMessages := .empty }

/-- The number of known blocks. -/
def blockCount (s : Store) : Nat := s.blocks.size

end Store

end ForkChoice
