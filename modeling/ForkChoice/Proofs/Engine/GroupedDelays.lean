import ForkChoice.Proofs.Clock
import ForkChoice.Proofs.Engine.Delays

/-!
# ForkChoice — waiting in tables

The queues of what waits may be kept as tables with a list for each slot or root. To go on up to a
slot then means to divide a table before the next slot, and there is none after the greatest one. To
go on with a root means to remove its list, and to count means to add up the lengths of all lists.

Nothing that is returned or counted depends on this. A table goes through its lists in the order of
slots, and each list is in the order of arrival: this is the queue, sorted in a stable way.

* `Grouped` — tables in place of lists, `Grouped.splitAfter` — what is due, and what is not;
* `Grouped.Matches`, `Grouped.matches_perform` — tables and queues, and one operation on both;
* `AsOneList`, `asOneList` — what becomes of everything that waits, whichever way it is kept.
-/

namespace ForkChoice.Waiting

variable {w : Waiting}

/-! ## Tables in place of lists -/

/-- Everything that waits, in tables with a list for each slot, each parent and each block. -/
structure Grouped where
  blocksUntilSlot : Table Slot (List PendingBlock) := ∅
  blocksUntilParent : Table Root (List PendingBlock) := ∅
  attestationsUntilTick : List ReceivedAttestation := []
  attestationsUntilBlock : Table Root (List ReceivedAttestation) := ∅

/-- The parent of a block that waits. -/
def parentOf (b : PendingBlock) : Root := b.block.parentRoot

namespace Grouped

/-- Something begins to wait. -/
def delay (g : Grouped) : Entry → Grouped
  | .blockUntilSlot b => { g with blocksUntilSlot := g.blocksUntilSlot.push (slotOf b) b }
  | .blockUntilParent b => { g with blocksUntilParent := g.blocksUntilParent.push (parentOf b) b }
  | .attestationUntilTick a => { g with attestationsUntilTick := g.attestationsUntilTick ++ [a] }
  | .attestationUntilBlock root a =>
    { g with attestationsUntilBlock := g.attestationsUntilBlock.push root a }

/-- Divides a table before the slot that follows. Nothing follows the greatest slot. -/
def splitAfter (t : Table Slot (List PendingBlock)) (slot : Slot) :
    Table Slot (List PendingBlock) × Table Slot (List PendingBlock) :=
  match Word.add? slot 1 with
  | some next => (t.filter fun key _ => key < next, t.filter fun key _ => next ≤ key)
  | none => (t, ∅)

/-- What has waited for an occasion goes on. -/
def take (g : Grouped) : Occasion → List Entry × Grouped
  | .slot slot =>
    ((splitAfter g.blocksUntilSlot slot).1.members.map .blockUntilSlot,
      { g with blocksUntilSlot := (splitAfter g.blocksUntilSlot slot).2 })
  | .parent root =>
    ((g.blocksUntilParent.group root).map .blockUntilParent,
      { g with blocksUntilParent := g.blocksUntilParent.erase root })
  | .tick =>
    (g.attestationsUntilTick.map .attestationUntilTick, { g with attestationsUntilTick := [] })
  | .block root =>
    ((g.attestationsUntilBlock.group root).map (.attestationUntilBlock root),
      { g with attestationsUntilBlock := g.attestationsUntilBlock.erase root })

/-- Carries out an operation: what it returns, and what still waits. -/
def perform (g : Grouped) : Operation → List Entry × Grouped
  | .delay e => ([], g.delay e)
  | .take o => g.take o

/-- What waits after so many operations of a sequence. -/
def after (ops : Nat → Operation) : Nat → Grouped
  | 0 => {}
  | n + 1 => ((after ops n).perform (ops n)).2

/-- What an operation of a sequence returns. -/
def returned (ops : Nat → Operation) (n : Nat) : List Entry :=
  ((after ops n).perform (ops n)).1

/-- The number of blocks that wait. -/
def blockCount (g : Grouped) : Nat := g.blocksUntilSlot.total + g.blocksUntilParent.total

/-- The number of attestations that wait. -/
def attestationCount (g : Grouped) : Nat :=
  g.attestationsUntilTick.length + g.attestationsUntilBlock.total

/-- The tables hold the groups of the queues. -/
structure Matches (g : Grouped) (w : Waiting) : Prop where
  untilSlot : Table.Groups slotOf id w.blocksUntilSlot g.blocksUntilSlot
  untilParent : Table.Groups parentOf id w.blocksUntilParent g.blocksUntilParent
  untilTick : g.attestationsUntilTick = w.attestationsUntilTick
  untilBlock : Table.Groups Prod.fst Prod.snd w.attestationsUntilBlock g.attestationsUntilBlock

variable {g : Grouped} {t : Table Slot (List PendingBlock)} {blocks : List PendingBlock}

/-- The two parts hold what is due and what is not, also after the greatest slot. -/
theorem groups_splitAfter (h : Table.Groups slotOf id blocks t) (slot : Slot) :
    Table.Groups slotOf id (blocks.filter fun b => b.block.slot ≤ slot) (splitAfter t slot).1 ∧
      Table.Groups slotOf id (blocks.filter fun b => !decide (b.block.slot ≤ slot))
        (splitAfter t slot).2 := by
  unfold splitAfter
  cases hNext : Word.add? slot 1 with
  | some next =>
    have hAfter : next.toNat = slot.toNat + 1 := Word.add?_eq_some.mp hNext
    have hDue : ∀ key : Slot, decide (key < next) = decide (key ≤ slot) := by
      intro key
      rw [decide_eq_decide, UInt64.lt_iff_toNat_lt, UInt64.le_iff_toNat_le, hAfter]
      exact Nat.lt_succ_iff
    have hLater : ∀ key : Slot, decide (next ≤ key) = !decide (key ≤ slot) := by
      intro key
      rw [← hDue key, ← decide_not, decide_eq_decide, UInt64.not_lt]
    dsimp only
    simp only [hDue, hLater]
    exact ⟨h.filter fun key => key ≤ slot, h.filter fun key => !decide (key ≤ slot)⟩
  | none =>
    have hAll : ∀ key : Slot, key ≤ slot := by
      intro key
      unfold Word.add? at hNext
      split at hNext
      · exact absurd hNext (by simp)
      · rename_i hGreatest
        have hKey := key.toNat_lt
        rw [UInt64.le_iff_toNat_le]
        simp only [UInt64.size, UInt64.reduceToNat] at hGreatest
        omega
    refine ⟨?_, ?_⟩
    · rw [List.filter_eq_self.mpr fun b _ => decide_eq_true (hAll _)]
      exact h
    · rw [List.filter_eq_nil_iff.mpr fun b _ => by simp [hAll]]
      exact Table.Groups.empty

theorem matches_delay (h : Matches g w) (e : Entry) : Matches (g.delay e) (w.delay e) := by
  obtain ⟨hSlot, hParent, hTick, hBlock⟩ := h
  cases e with
  | blockUntilSlot b => exact ⟨hSlot.push b, hParent, hTick, hBlock⟩
  | blockUntilParent b => exact ⟨hSlot, hParent.push b, hTick, hBlock⟩
  | attestationUntilTick a => exact ⟨hSlot, hParent, congrArg (· ++ [a]) hTick, hBlock⟩
  | attestationUntilBlock root a => exact ⟨hSlot, hParent, hTick, hBlock.push (root, a)⟩

theorem matches_take (h : Matches g w) (o : Occasion) :
    (g.take o).1 = (w.take o).1 ∧ Matches (g.take o).2 (w.take o).2 := by
  obtain ⟨hSlot, hParent, hTick, hBlock⟩ := h
  cases o with
  | slot slot =>
    obtain ⟨hDue, hLater⟩ := groups_splitAfter hSlot slot
    refine ⟨?_, ?_, hParent, hTick, hBlock⟩
    · show (Table.members _).map _ = (w.takeUntilSlot slot).1.map _
      rw [hDue.members_eq, List.map_id, takeUntilSlot_fst]
    · show Table.Groups slotOf id (w.takeUntilSlot slot).2.blocksUntilSlot _
      rw [takeUntilSlot, List.partition_eq_filter_filter]
      exact hLater
  | parent root =>
    refine ⟨?_, hSlot, ?_, hTick, hBlock⟩
    · show (g.blocksUntilParent.group root).map _ = (w.takeUntilParent root).1.map _
      rw [hParent root, List.map_id, takeUntilParent, List.partition_eq_filter_filter]
      rfl
    · show Table.Groups parentOf id (w.takeUntilParent root).2.blocksUntilParent _
      rw [takeUntilParent, List.partition_eq_filter_filter]
      exact hParent.erase root
  | tick =>
    exact ⟨congrArg (List.map Entry.attestationUntilTick) hTick, hSlot, hParent, rfl, hBlock⟩
  | block root =>
    refine ⟨?_, hSlot, hParent, hTick, ?_⟩
    · show (g.attestationsUntilBlock.group root).map _ = (w.takeUntilBlock root).1.map _
      rw [hBlock root, takeUntilBlock, List.partition_eq_filter_filter]
    · show Table.Groups Prod.fst Prod.snd (w.takeUntilBlock root).2.attestationsUntilBlock _
      rw [takeUntilBlock, List.partition_eq_filter_filter]
      exact hBlock.erase root

/-- **One operation** on the tables does what it does on the queues. -/
theorem matches_perform (h : Matches g w) (op : Operation) :
    (g.perform op).1 = (w.perform op).1 ∧ Matches (g.perform op).2 (w.perform op).2 := by
  cases op with
  | delay e => exact ⟨rfl, matches_delay h e⟩
  | take o => exact matches_take h o

theorem matches_after (ops : Nat → Operation) (n : Nat) :
    Matches (after ops n) (Waiting.after ops n) := by
  induction n with
  | zero => exact ⟨.empty, .empty, rfl, .empty⟩
  | succ n ih => exact (matches_perform ih (ops n)).2

/-- The numbers of what waits are the same. -/
theorem Matches.counts (h : Matches g w) :
    g.blockCount = w.blockCount ∧ g.attestationCount = w.attestationCount := by
  constructor
  · rw [blockCount, Waiting.blockCount, h.untilSlot.total_eq, h.untilParent.total_eq]
  · rw [attestationCount, Waiting.attestationCount, h.untilTick, h.untilBlock.total_eq]

end Grouped

/-! ## What becomes of what waits -/

/-- **What becomes of what waits**, in the course of a sequence of operations. -/
structure AsOneList (ops : Nat → Operation) : Prop where
  /-- An operation returns what it is the first one to cover, in the order of arrival or of
  slots. -/
  returned : ∀ n, ∃ due : List (Nat × Entry), (due.Pairwise fun m m' => m.1 < m'.1) ∧
    (∀ i e, (i, e) ∈ due ↔ LeavesAt ops i n e) ∧
      (ops n).Arranges (due.map Prod.snd) (returned ops n)
  /-- What has not been covered still waits, in the order of arrival, and is counted. -/
  held : ∀ n, ∃ held : List (Nat × Entry), (held.Pairwise fun m m' => m.1 < m'.1) ∧
    (∀ i e, (i, e) ∈ held ↔ WaitsAt ops i n e) ∧
      Shows (held.map Prod.snd) (after ops n) ∧
        (after ops n).blockCount = (held.filter fun m => m.2.isBlock).length ∧
          (after ops n).attestationCount = (held.filter fun m => !m.2.isBlock).length
  /-- Everything goes on once, or still waits. -/
  once : ∀ i e, ops i = .delay e → ∀ n > i,
    (WaitsAt ops i n e ∧ ∀ k < n, ¬ LeavesAt ops i k e) ∨
      (¬ WaitsAt ops i n e ∧ ∃! k, k < n ∧ LeavesAt ops i k e)
  /-- The same is returned and counted if it is kept in tables. -/
  grouped : ∀ n, Grouped.returned ops n = Waiting.returned ops n ∧
    (Grouped.after ops n).blockCount = (after ops n).blockCount ∧
      (Grouped.after ops n).attestationCount = (after ops n).attestationCount

/-- **Waiting** is as if there were one list of everything that waits, whatever begins to wait and
whatever goes on. -/
theorem asOneList (ops : Nat → Operation) : AsOneList ops where
  returned n := ⟨(ledger ops).leaving n, (ledger ops).pairwise_leaving n,
    fun _ _ => mem_ledger_leaving, (shows_after ops n).2⟩
  held n := by
    have hShows := (shows_after ops n).1
    obtain ⟨hBlocks, hAttestations⟩ := hShows.counts
    rw [List.filter_map, List.length_map] at hBlocks hAttestations
    exact ⟨(ledger ops).before n, (ledger ops).pairwise_before n, fun _ _ => mem_ledger_before,
      hShows, hBlocks, hAttestations⟩
  once i e hDelay n hn := by
    have hOnce := Ledger.once (l := ledger ops) (congrArg Operation.begins? hDelay) hn
    simp only [mem_ledger_before, mem_ledger_leaving] at hOnce
    exact hOnce
  grouped n := by
    have hMatches := Grouped.matches_after ops n
    exact ⟨(Grouped.matches_perform hMatches (ops n)).1, hMatches.counts⟩

end ForkChoice.Waiting
