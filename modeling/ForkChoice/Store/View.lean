import ForkChoice.Store.Error
import ForkChoice.Store.LatestMessages

/-!
# ForkChoice — what can be read from a store of blocks

The committed store and the uncommitted changes on top of it are read in the same way. All
questions about a store (the ancestors of a block, the head, the acceptance of blocks and votes)
are asked of a `StoreView`.

* `StoreLimits` — bounds on the work that one request may cause;
* `StoreView` — the readings, and the clock readings that follow from them;
* `StoreView.ancestor` — the last block of a chain up to a slot;
* `StoreView.head` — the block that the votes lead to.
-/

namespace ForkChoice

/-- Bounds on the work that one request may cause. -/
structure StoreLimits where
  /-- The greatest number of parent links followed in search of an ancestor. -/
  maxAncestorDepth : UInt64 := 8192
  /-- The greatest number of slots through which a stored state is advanced. -/
  maxEmptySlots : UInt64 := 32
  deriving Repr, DecidableEq, Inhabited

/-- What can be read from a store of blocks. -/
structure StoreView where
  preset : Preset
  config : Config
  limits : StoreLimits
  genesisTime : UInt64
  time : UInt64
  anchorRoot : Root
  justified : Checkpoint
  bestJustified : Checkpoint
  finalized : Checkpoint
  /-- The number of blocks that have been imported after the anchor. -/
  importCount : Nat
  block? : Root → Option Block
  /-- The state after a block. -/
  state? : Root → Option BeaconState
  checkpointState? : Checkpoint → Option BeaconState
  latestMessage? : ValidatorIndex → Option LatestMessage
  /-- The roots of the blocks with a given parent, in the order of import. -/
  children : Root → List Root

namespace StoreView

/-- The slot of the present time. -/
def currentSlot (v : StoreView) : Slot :=
  Word.satSub v.time v.genesisTime / v.config.secondsPerSlot

/-- The epoch of the present time. -/
def currentEpoch (v : StoreView) : Epoch := v.preset.epochAt v.currentSlot

/-- The epoch before that of the present time. -/
def previousEpoch (v : StoreView) : Epoch := Word.satSub v.currentEpoch 1

/-- The first slot of the finalized epoch. -/
def finalizedSlot (v : StoreView) : Slot := v.preset.startSlot v.finalized.epoch

/-- Whether a block is known. -/
def containsBlock (v : StoreView) (root : Root) : Bool := (v.block? root).isSome

/-! ## Ancestors -/

/-- The last block up to a slot on the chain of at most `fuel` blocks that ends at `root`:
`none` if the chain is longer, `some none` if it leaves the store. -/
def ancestorFrom (v : StoreView) (slot : Slot) : Nat → Root → Option (Option Root)
  | 0, _ => none
  | fuel + 1, root =>
    match v.block? root with
    | none => some none
    | some block =>
      if block.slot ≤ slot then some (some root) else ancestorFrom v slot fuel block.parentRoot

/-- The last block up to a slot on the chain that ends at `root`; `none` if the chain leaves the
store. -/
def ancestor (v : StoreView) (root : Root) (slot : Slot) : Outcome StoreError (Option Root) :=
  match v.ancestorFrom slot (v.limits.maxAncestorDepth.toNat + 1) root with
  | some result => .ok result
  | none => Outcome.fail (.ancestorDepthExceeded root v.limits.maxAncestorDepth)

/-! ## The head -/

/-- The sum of the counts of those roots whose chains contain the block `child` at `slot`. -/
def supportFrom (v : StoreView) (child : Root) (slot : Slot) :
    List (Root × Nat) → Outcome StoreError Nat
  | [] => .ok 0
  | (root, count) :: rest => do
    let ancestor ← v.ancestor root slot
    let others ← supportFrom v child slot rest
    return (if ancestor = some child then count else 0) + others

/-- The number of votes for a block and its descendants. -/
def support (v : StoreView) (votes : List (Root × Nat)) (child : Root) : Outcome StoreError Nat :=
  match v.block? child with
  | some block => v.supportFrom child block.slot votes
  | none =>
    .error (.fault (.violated "children of blocks in the store are also in the store"))

/-- Whether a block with its votes goes before another one: more votes, or as many and a greater
root. -/
def outweighs (a b : Nat × Root) : Bool :=
  b.1 < a.1 || (a.1 = b.1 && b.2 ≤ a.2)

/-- The child that goes before all others, if there are any. -/
def bestChild (v : StoreView) (votes : List (Root × Nat)) :
    List Root → Outcome StoreError (Option (Nat × Root))
  | [] => .ok none
  | child :: rest => do
    let weight ← v.support votes child
    match ← bestChild v votes rest with
    | none => return some (weight, child)
    | some best => return some (if outweighs best (weight, child) then best else (weight, child))

/-- Descends at most `fuel` times to the child that goes before all others. -/
def headFrom (v : StoreView) (votes : List (Root × Nat)) : Nat → Root → Outcome StoreError Root
  | 0, _ => .error (.fault (.violated "blocks are not their own ancestors"))
  | fuel + 1, root => do
    match ← v.bestChild votes (v.children root) with
    | none => return root
    | some (_, child) => headFrom v votes fuel child

/-- The block at which the search for the head starts. -/
def headStart (v : StoreView) : Root :=
  if v.justified.isEmpty || v.justified.root = 0 then v.anchorRoot else v.justified.root

/-- The block that the votes lead to: from the justified block on, always to the child with the
most votes. -/
def head (v : StoreView) (messages : LatestMessages) : Outcome StoreError Root :=
  v.headFrom messages.voteCounts (v.importCount + 1) v.headStart

end StoreView

end ForkChoice
