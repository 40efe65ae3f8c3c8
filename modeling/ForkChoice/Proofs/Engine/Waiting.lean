import Mathlib.Data.List.Basic
import ForkChoice.Engine.Waiting

/-!
# ForkChoice — what goes on and what keeps waiting

Each way of going on divides a queue: what is taken and what remains are together what there was,
and which of the two a member belongs to is decided by what it waits for.

* `mem_takeUntilSlot`, `mem_takeUntilParent`, `mem_takeUntilBlock_rest` — which members go on;
* `Waiting.blocks`, `Waiting.attestations` — all that waits;
* `blocks_takeUntilSlot`, `attestations_takeUntilBlock` and so on — what each operation makes of
  it: nothing is lost.
-/

namespace ForkChoice.Waiting

variable {w : Waiting} {slot : Slot} {root : Root} {b : PendingBlock}

/-! ## Members -/

theorem mem_takeUntilSlot :
    b ∈ (w.takeUntilSlot slot).1 ↔ b ∈ w.blocksUntilSlot ∧ b.block.slot ≤ slot := by
  simp [takeUntilSlot, List.mem_mergeSort]

theorem mem_takeUntilSlot_rest :
    b ∈ (w.takeUntilSlot slot).2.blocksUntilSlot ↔ b ∈ w.blocksUntilSlot ∧ slot < b.block.slot := by
  simp [takeUntilSlot, UInt64.not_le]

theorem mem_takeUntilParent :
    b ∈ (w.takeUntilParent root).1 ↔ b ∈ w.blocksUntilParent ∧ b.block.parentRoot = root := by
  simp [takeUntilParent]

theorem mem_takeUntilParent_rest :
    b ∈ (w.takeUntilParent root).2.blocksUntilParent ↔
      b ∈ w.blocksUntilParent ∧ b.block.parentRoot ≠ root := by
  simp [takeUntilParent]

theorem mem_takeUntilBlock_rest {entry : Root × ReceivedAttestation} :
    entry ∈ (w.takeUntilBlock root).2.attestationsUntilBlock ↔
      entry ∈ w.attestationsUntilBlock ∧ entry.1 ≠ root := by
  simp [takeUntilBlock]

/-! ## Nothing is lost -/

/-- The blocks that wait. -/
def blocks (w : Waiting) : List Block :=
  (w.blocksUntilSlot ++ w.blocksUntilParent).map PendingBlock.block

/-- The attestations that wait. -/
def attestations (w : Waiting) : List ReceivedAttestation :=
  w.attestationsUntilTick ++ w.attestationsUntilBlock.map Prod.snd

theorem length_blocks (w : Waiting) : w.blocks.length = w.blockCount := by
  simp [blocks, blockCount]

theorem length_attestations (w : Waiting) : w.attestations.length = w.attestationCount := by
  simp [attestations, attestationCount]

theorem blocks_takeUntilSlot (w : Waiting) (slot : Slot) :
    ((w.takeUntilSlot slot).1.map PendingBlock.block ++ (w.takeUntilSlot slot).2.blocks).Perm
      w.blocks := by
  simp only [takeUntilSlot, blocks, List.partition_eq_filter_filter, ← List.map_append,
    ← List.append_assoc]
  refine (List.Perm.append_right w.blocksUntilParent ?_).map PendingBlock.block
  exact ((List.mergeSort_perm _ _).append_right _).trans (List.filter_append_perm _ _)

theorem blocks_takeUntilParent (w : Waiting) (root : Root) :
    ((w.takeUntilParent root).1.map PendingBlock.block ++ (w.takeUntilParent root).2.blocks).Perm
      w.blocks := by
  simp only [takeUntilParent, blocks, List.partition_eq_filter_filter, ← List.map_append]
  -- The blocks that wait for their slots stand between what is taken and what remains.
  have hSwapped := List.perm_append_comm_assoc
    (w.blocksUntilParent.filter fun b => decide (b.block.parentRoot = root)) w.blocksUntilSlot
    (w.blocksUntilParent.filter fun b => !decide (b.block.parentRoot = root))
  exact (hSwapped.trans ((List.filter_append_perm _ _).append_left _)).map _

@[simp] theorem blocks_takeUntilBlock (w : Waiting) (root : Root) :
    (w.takeUntilBlock root).2.blocks = w.blocks :=
  rfl

@[simp] theorem attestations_takeUntilParent (w : Waiting) (root : Root) :
    (w.takeUntilParent root).2.attestations = w.attestations :=
  rfl

theorem blocks_delayUntilSlot (w : Waiting) (b : PendingBlock) :
    (w.delayUntilSlot b).blocks.Perm (b.block :: w.blocks) := by
  simp only [delayUntilSlot, blocks, List.append_assoc, List.singleton_append]
  exact List.perm_middle.map PendingBlock.block

theorem blocks_delayUntilParent (w : Waiting) (b : PendingBlock) :
    (w.delayUntilParent b).blocks.Perm (b.block :: w.blocks) := by
  simp only [delayUntilParent, blocks, ← List.append_assoc]
  exact (List.perm_append_singleton _ _).map PendingBlock.block

theorem attestations_takeUntilTick (w : Waiting) :
    (w.takeUntilTick.1 ++ w.takeUntilTick.2.attestations).Perm w.attestations :=
  List.Perm.refl _

theorem attestations_takeUntilBlock (w : Waiting) (root : Root) :
    ((w.takeUntilBlock root).1 ++ (w.takeUntilBlock root).2.attestations).Perm
      w.attestations := by
  simp only [takeUntilBlock, attestations, List.partition_eq_filter_filter]
  refine (List.perm_append_comm_assoc _ _ _).trans (List.Perm.append_left _ ?_)
  rw [← List.map_append]
  exact (List.filter_append_perm _ _).map _

theorem attestations_delayUntilTick (w : Waiting) (a : ReceivedAttestation) :
    (w.delayUntilTick a).attestations.Perm (a :: w.attestations) := by
  simp only [delayUntilTick, attestations, List.append_assoc, List.singleton_append]
  exact List.perm_middle

theorem attestations_delayUntilBlock (w : Waiting) (root : Root) (a : ReceivedAttestation) :
    (w.delayUntilBlock root a).attestations.Perm (a :: w.attestations) := by
  simp only [delayUntilBlock, attestations, List.map_append, ← List.append_assoc]
  exact List.perm_append_singleton _ _

end ForkChoice.Waiting
