import Mathlib.Data.List.Basic
import Mathlib.Data.List.Sort
import Mathlib.Logic.ExistsUnique

/-!
# ForkChoice — arrivals and departures

What has been put into a queue may be equal to something else in it, so that equal values alone do
not tell whether all that came has gone, and gone only once. A ledger counts the operations on a
queue and keeps the number of the operation with everything that it brings. A rule says who leaves
at an operation; those who stay remain in the order in which they came.

* `Ledger` — who comes and who leaves, `Ledger.before`, `Ledger.leaving` — who is there, and who
  leaves;
* `Ledger.mem_before` — those are there who have come and have not left;
* `Ledger.once` — everyone leaves once, or is still there;
* `Ledger.pairwise_before`, `Ledger.pairwise_leaving` — in the order of arrival,
  `Ledger.eq_of_mem_iff` — which leaves no choice;
* `Ledger.Free`, `Free.mem_leaving`, `Free.mem_before` — who leaves does not depend on the others.
-/

namespace ForkChoice

/-- The operations on a queue, by their numbers. -/
structure Ledger (α : Type) where
  /-- What an operation brings. -/
  enters : Nat → Option α
  /-- Whether a member leaves at an operation, given the members that were there before it. -/
  leaves : Nat → List (Nat × α) → Nat × α → Bool

namespace Ledger

variable {α : Type} {l : Ledger α} {i j k n : Nat} {x : α} {m : Nat × α}

/-- The member that an operation brings. -/
def entering (l : Ledger α) (n : Nat) : List (Nat × α) :=
  (l.enters n).toList.map (Prod.mk n)

/-- The members before an operation, in the order of arrival. -/
def before (l : Ledger α) : Nat → List (Nat × α)
  | 0 => []
  | n + 1 => (l.before n ++ l.entering n).filter fun m => !l.leaves n (l.before n) m

/-- The members that leave at an operation, in the order of arrival. -/
def leaving (l : Ledger α) (n : Nat) : List (Nat × α) :=
  (l.before n ++ l.entering n).filter (l.leaves n (l.before n))

theorem before_succ :
    l.before (n + 1) =
      (l.before n ++ l.entering n).filter fun m => !l.leaves n (l.before n) m :=
  rfl

theorem entering_of_enters (h : l.enters n = some x) : l.entering n = [(n, x)] := by
  rw [entering, h]
  rfl

theorem entering_of_none (h : l.enters n = none) : l.entering n = [] := by
  rw [entering, h]
  rfl

theorem mem_entering : m ∈ l.entering n ↔ m.1 = n ∧ l.enters n = some m.2 := by
  obtain ⟨i, x⟩ := m
  simp [entering, and_comm, eq_comm]

/-! ## Who is there -/

/-- Who is there has come. -/
theorem came_of_mem_before (h : m ∈ l.before n) : m.1 < n ∧ l.enters m.1 = some m.2 := by
  induction n with
  | zero => exact absurd h List.not_mem_nil
  | succ n ih =>
    rcases List.mem_append.mp (List.mem_of_mem_filter h) with hOld | hNew
    · exact ⟨Nat.lt_succ_of_lt (ih hOld).1, (ih hOld).2⟩
    · obtain ⟨hNumber, hEnters⟩ := mem_entering.mp hNew
      exact ⟨Nat.lt_succ_of_le (Nat.le_of_eq hNumber), by rwa [hNumber]⟩

/-- Who leaves has come. -/
theorem came_of_mem_leaving (h : m ∈ l.leaving n) : m.1 ≤ n ∧ l.enters m.1 = some m.2 := by
  rcases List.mem_append.mp (List.mem_of_mem_filter h) with hOld | hNew
  · exact ⟨Nat.le_of_lt (came_of_mem_before hOld).1, (came_of_mem_before hOld).2⟩
  · obtain ⟨hNumber, hEnters⟩ := mem_entering.mp hNew
    exact ⟨Nat.le_of_eq hNumber, by rwa [hNumber]⟩

/-- After an operation there are those who were there or have just come, and have not left. -/
theorem mem_before_succ :
    m ∈ l.before (n + 1) ↔ (m ∈ l.before n ∨ m ∈ l.entering n) ∧ m ∉ l.leaving n := by
  rw [before_succ, leaving, List.mem_filter, List.mem_filter, List.mem_append, not_and,
    Bool.not_eq_true', ← Bool.not_eq_true]
  exact ⟨fun h => ⟨h.1, fun _ => h.2⟩, fun h => ⟨h.1, h.2 h.1⟩⟩

/-- **Who is there** has come and has not left, and the other way round. -/
theorem mem_before :
    m ∈ l.before n ↔
      m.1 < n ∧ l.enters m.1 = some m.2 ∧ ∀ k < n, m ∉ l.leaving k := by
  induction n with
  | zero => simp [before]
  | succ n ih =>
    rw [mem_before_succ, ih, mem_entering]
    constructor
    · rintro ⟨⟨hLess, hEnters, hStays⟩ | ⟨hNumber, hEnters⟩, hNow⟩
      · refine ⟨Nat.lt_succ_of_lt hLess, hEnters, fun k hk hLeaves => ?_⟩
        rcases Nat.lt_succ_iff_lt_or_eq.mp hk with hk | rfl
        · exact hStays k hk hLeaves
        · exact hNow hLeaves
      · refine ⟨Nat.lt_succ_of_le (Nat.le_of_eq hNumber), by rwa [hNumber], fun k hk hLeaves => ?_⟩
        -- Nobody leaves before he has come.
        rcases Nat.lt_succ_iff_lt_or_eq.mp hk with hk | rfl
        · exact absurd (came_of_mem_leaving hLeaves).1 (by omega)
        · exact hNow hLeaves
    · rintro ⟨hLess, hEnters, hStays⟩
      refine ⟨?_, hStays n (Nat.lt_succ_self n)⟩
      rcases Nat.lt_succ_iff_lt_or_eq.mp hLess with hOld | hNumber
      · exact Or.inl ⟨hOld, hEnters, fun k hk => hStays k (Nat.lt_succ_of_lt hk)⟩
      · exact Or.inr ⟨hNumber, by rwa [hNumber] at hEnters⟩

/-! ## Once -/

/-- Who has left does not leave again. -/
theorem not_mem_leaving_of_lt (h : m ∈ l.leaving j) (hLess : j < k) : m ∉ l.leaving k := by
  intro hAgain
  rcases List.mem_append.mp (List.mem_of_mem_filter hAgain) with hOld | hNew
  · exact (mem_before.mp hOld).2.2 j hLess h
  · exact absurd (came_of_mem_leaving h).1 (by rw [(mem_entering.mp hNew).1]; omega)

/-- **Once.** Everyone who has come has left, once, or is still there. -/
theorem once (hEnters : l.enters i = some x) (hCame : i < n) :
    ((i, x) ∈ l.before n ∧ ∀ k < n, (i, x) ∉ l.leaving k) ∨
      ((i, x) ∉ l.before n ∧ ∃! k, k < n ∧ (i, x) ∈ l.leaving k) := by
  by_cases hLeft : ∃ k < n, (i, x) ∈ l.leaving k
  · obtain ⟨k, hk, hLeaves⟩ := hLeft
    refine Or.inr ⟨fun hThere => (mem_before.mp hThere).2.2 k hk hLeaves, k, ⟨hk, hLeaves⟩, ?_⟩
    rintro k' ⟨-, hLeaves'⟩
    rcases Nat.lt_trichotomy k' k with hLess | rfl | hLess
    · exact absurd hLeaves (not_mem_leaving_of_lt hLeaves' hLess)
    · rfl
    · exact absurd hLeaves' (not_mem_leaving_of_lt hLeaves hLess)
  · have hStays : ∀ k < n, (i, x) ∉ l.leaving k := fun k hk hLeaves => hLeft ⟨k, hk, hLeaves⟩
    exact Or.inl ⟨mem_before.mpr ⟨hCame, hEnters, hStays⟩, hStays⟩

/-! ## Order -/

theorem pairwise_present (l : Ledger α) (n : Nat) :
    (l.before n ++ l.entering n).Pairwise fun m m' => m.1 < m'.1 := by
  induction n with
  | zero =>
    rw [before, List.nil_append, entering]
    cases l.enters 0 <;> simp
  | succ n ih =>
    refine List.pairwise_append.mpr ⟨ih.filter _, ?_, fun m hm m' hm' => ?_⟩
    · rw [entering]
      cases l.enters (n + 1) <;> simp
    · -- Who comes now has a greater number than all who have come before.
      rw [(mem_entering.mp hm').1]
      exact (came_of_mem_before hm).1

theorem pairwise_before (l : Ledger α) (n : Nat) :
    (l.before n).Pairwise fun m m' => m.1 < m'.1 :=
  (List.pairwise_append.mp (l.pairwise_present n)).1

theorem pairwise_leaving (l : Ledger α) (n : Nat) :
    (l.leaving n).Pairwise fun m m' => m.1 < m'.1 :=
  (l.pairwise_present n).filter _

/-- Lists in the order of arrival with the same members are the same. -/
theorem eq_of_mem_iff {ms ms' : List (Nat × α)} (hms : ms.Pairwise fun m m' => m.1 < m'.1)
    (hms' : ms'.Pairwise fun m m' => m.1 < m'.1) (h : ∀ m, m ∈ ms ↔ m ∈ ms') : ms = ms' := by
  have : Std.Irrefl fun m m' : Nat × α => m.1 < m'.1 := ⟨fun m => Nat.lt_irrefl m.1⟩
  have : Std.Antisymm fun m m' : Nat × α => m.1 < m'.1 :=
    ⟨fun _ _ hLess hGreater => absurd hGreater (Nat.lt_asymm hLess)⟩
  exact hms.eq_of_mem_iff hms' h

/-! ## Everyone for himself -/

/-- Who leaves at an operation does not depend on who else is there. -/
def Free (l : Ledger α) (covers : Nat → α → Prop) : Prop :=
  ∀ n members m, l.leaves n members m = true ↔ covers n m.2

/-- Whoever came before an operation and has had no occasion to leave is there with the one who
comes. -/
theorem waits_iff {covers : Nat → α → Prop} :
    ((m.1 < n ∧ l.enters m.1 = some m.2 ∧ ∀ k < n, m.1 ≤ k → ¬ covers k m.2) ∨
        (m.1 = n ∧ l.enters n = some m.2)) ↔
      m.1 ≤ n ∧ l.enters m.1 = some m.2 ∧ ∀ k < n, m.1 ≤ k → ¬ covers k m.2 := by
  constructor
  · rintro (⟨hLess, hRest⟩ | ⟨hNumber, hEnters⟩)
    · exact ⟨Nat.le_of_lt hLess, hRest⟩
    · exact ⟨Nat.le_of_eq hNumber, by rwa [hNumber], fun k hk hCame => by omega⟩
  · rintro ⟨hLe, hEnters, hStays⟩
    rcases Nat.lt_or_eq_of_le hLe with hLess | hNumber
    · exact Or.inl ⟨hLess, hEnters, hStays⟩
    · exact Or.inr ⟨hNumber, by rwa [hNumber] at hEnters⟩

namespace Free

variable {covers : Nat → α → Prop}

/-- Who is still there has had no occasion to leave, -/
theorem mem_before (h : l.Free covers) :
    m ∈ l.before n ↔
      m.1 < n ∧ l.enters m.1 = some m.2 ∧ ∀ k < n, m.1 ≤ k → ¬ covers k m.2 := by
  induction n with
  | zero => simp [before]
  | succ n ih =>
    rw [before_succ, List.mem_filter, List.mem_append, ih, mem_entering, waits_iff,
      Bool.not_eq_true', ← Bool.not_eq_true, h n (l.before n) m, Nat.lt_succ_iff,
      Nat.forall_lt_succ_right]
    constructor
    · rintro ⟨⟨hLe, hEnters, hStays⟩, hNow⟩
      exact ⟨hLe, hEnters, hStays, fun _ => hNow⟩
    · rintro ⟨hLe, hEnters, hStays, hNow⟩
      exact ⟨⟨hLe, hEnters, hStays⟩, hNow hLe⟩

/-- and who leaves does so at the first one. -/
theorem mem_leaving (h : l.Free covers) :
    m ∈ l.leaving n ↔ m.1 ≤ n ∧ l.enters m.1 = some m.2 ∧ covers n m.2 ∧
      ∀ k < n, m.1 ≤ k → ¬ covers k m.2 := by
  rw [leaving, List.mem_filter, List.mem_append, h.mem_before, mem_entering, waits_iff,
    h n (l.before n) m]
  constructor
  · rintro ⟨⟨hLe, hEnters, hStays⟩, hCovers⟩
    exact ⟨hLe, hEnters, hCovers, hStays⟩
  · rintro ⟨hLe, hEnters, hCovers, hStays⟩
    exact ⟨⟨hLe, hEnters, hStays⟩, hCovers⟩

end Free

end Ledger

end ForkChoice
