import ForkChoice.Chain.Block

/-!
# ForkChoice — what waits

Blocks and attestations that came too early wait, without bound in number or time, until what
they wait for has happened: a slot, the parent of a block, the next tick, or a block.

* `PendingBlock` — a block with the mark whether it has waited before;
* `Waiting` — everything that waits, each list in the order of arrival in it;
* `takeUntilSlot`, `takeUntilParent`, `takeUntilTick`, `takeUntilBlock` — what does not have to
  wait any longer, and what remains.
-/

namespace ForkChoice

/-- A block that is to be imported. -/
structure PendingBlock where
  block : Block
  /-- Whether the block has waited before. -/
  retried : Bool := false
  deriving DecidableEq, Inhabited

/-- The same block after it has waited. -/
def PendingBlock.retry (b : PendingBlock) : PendingBlock := { b with retried := true }

/-- Everything that waits. -/
structure Waiting where
  blocksUntilSlot : List PendingBlock := []
  blocksUntilParent : List PendingBlock := []
  attestationsUntilTick : List ReceivedAttestation := []
  /-- Attestations with the root of the block that each of them waits for. -/
  attestationsUntilBlock : List (Root × ReceivedAttestation) := []
  deriving DecidableEq, Inhabited

namespace Waiting

/-! ## Starting to wait -/

/-- Lets a block wait for its slot. -/
def delayUntilSlot (w : Waiting) (b : PendingBlock) : Waiting :=
  { w with blocksUntilSlot := w.blocksUntilSlot ++ [b] }

/-- Lets a block wait for its parent. -/
def delayUntilParent (w : Waiting) (b : PendingBlock) : Waiting :=
  { w with blocksUntilParent := w.blocksUntilParent ++ [b] }

/-- Lets an attestation wait for the next tick. -/
def delayUntilTick (w : Waiting) (a : ReceivedAttestation) : Waiting :=
  { w with attestationsUntilTick := w.attestationsUntilTick ++ [a] }

/-- Lets an attestation wait for a block. -/
def delayUntilBlock (w : Waiting) (root : Root) (a : ReceivedAttestation) : Waiting :=
  { w with attestationsUntilBlock := w.attestationsUntilBlock ++ [(root, a)] }

/-! ## Going on -/

/-- Takes the blocks of slots up to `slot`, those of earlier slots first. -/
def takeUntilSlot (w : Waiting) (slot : Slot) : List PendingBlock × Waiting :=
  let (due, later) := w.blocksUntilSlot.partition fun b => decide (b.block.slot ≤ slot)
  (due.mergeSort fun b b' => decide (b.block.slot ≤ b'.block.slot),
    { w with blocksUntilSlot := later })

/-- Takes the blocks with a given parent. -/
def takeUntilParent (w : Waiting) (parent : Root) : List PendingBlock × Waiting :=
  let (children, others) := w.blocksUntilParent.partition fun b =>
    decide (b.block.parentRoot = parent)
  (children, { w with blocksUntilParent := others })

/-- Takes the attestations that wait for a tick. -/
def takeUntilTick (w : Waiting) : List ReceivedAttestation × Waiting :=
  (w.attestationsUntilTick, { w with attestationsUntilTick := [] })

/-- Takes the attestations that wait for a block. -/
def takeUntilBlock (w : Waiting) (root : Root) : List ReceivedAttestation × Waiting :=
  let (released, others) := w.attestationsUntilBlock.partition fun e => decide (e.1 = root)
  (released.map (·.2), { w with attestationsUntilBlock := others })

/-! ## Counts -/

/-- The number of blocks that wait. -/
def blockCount (w : Waiting) : Nat := w.blocksUntilSlot.length + w.blocksUntilParent.length

/-- The number of attestations that wait. -/
def attestationCount (w : Waiting) : Nat :=
  w.attestationsUntilTick.length + w.attestationsUntilBlock.length

/-- Whether nothing waits. -/
def isEmpty (w : Waiting) : Bool := w.blockCount = 0 && w.attestationCount = 0

end Waiting

end ForkChoice
