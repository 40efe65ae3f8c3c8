import Mathlib.Data.List.GetD
import Mathlib.Data.Set.Lattice
import Mathlib.Order.CompletePartialOrder
import ForkChoice.Proofs.BitList.Packing

/-!
# ForkChoice — positions in bit lists

A bit list is a set of positions below its length, and bits beyond it are zero. Two lists intersect
if they have a position in common. The union has the positions of both, but not those beyond the
first list: it is as long as this one, and lists of one length are joined without loss.

All of this can be done position by position, going through the bits that are set.

* `positions`, `mem_ones` — the positions that are set;
* `intersects_iff`, `get_union` — common positions, and positions of a union;
* `intersects_eq_any`, `union_eq_setAll` — the same position by position;
* `intersects_union`, `intersects_self` — common positions with a union, and of a list with itself.
-/

namespace ForkChoice.BitList

/-! ## The bits that are set -/

theorem mem_onesFrom {start position : Nat} {bits : List Bool} :
    position ∈ onesFrom start bits ↔
      start ≤ position ∧ bits.getD (position - start) false = true := by
  induction bits generalizing start with
  | nil => simp [onesFrom]
  | cons bit rest ih =>
    -- Positions behind the first one are counted from the next one on.
    have hRest : position ∈ onesFrom (start + 1) rest ↔
        start < position ∧ (bit :: rest).getD (position - start) false = true := by
      rw [ih]
      refine and_congr_right fun hLess => ?_
      rw [show position - start = position - (start + 1) + 1 by omega, List.getD_cons_succ]
    rcases Nat.lt_trichotomy start position with hLess | rfl | hGreater
    · have hNext : position ∈ onesFrom start (bit :: rest) ↔
          position ∈ onesFrom (start + 1) rest := by
        cases bit with
        | false => rfl
        | true =>
          rw [onesFrom, List.mem_cons]
          exact or_iff_right (Nat.ne_of_gt hLess)
      rw [hNext, hRest]
      exact and_congr_left' (by omega)
    · have hNot : start ∉ onesFrom (start + 1) rest := fun hMem =>
        Nat.lt_irrefl start (hRest.mp hMem).1
      cases bit <;> simp [onesFrom, hNot]
    · have hNot : position ∉ onesFrom (start + 1) rest := fun hMem =>
        Nat.lt_asymm hGreater (hRest.mp hMem).1
      cases bit with
      | false => simp [onesFrom, hNot, Nat.not_le.mpr hGreater]
      | true => simp [onesFrom, hNot, Nat.not_le.mpr hGreater, Nat.ne_of_lt hGreater]

variable {limit : Nat} {b b' other : BitList limit} {position : Nat}

/-- The positions that are set, as a set. -/
def positions (b : BitList limit) : Set Nat := {position | b.get position = true}

theorem mem_ones : position ∈ b.ones ↔ b.get position = true := by
  rw [ones, mem_onesFrom, Nat.sub_zero]
  exact and_iff_right (Nat.zero_le position)

theorem lt_length_of_get (h : b.get position = true) : position < b.length := by
  by_contra hBeyond
  rw [get, List.getD_eq_default _ _ (Nat.not_lt.mp hBeyond)] at h
  cases h

/-- Bit lists of one length are told apart by their bits. -/
theorem ext_get (hLength : b.length = b'.length)
    (h : ∀ position, b.get position = b'.get position) : b = b' := by
  obtain ⟨bits, _⟩ := b
  obtain ⟨bits', _⟩ := b'
  have hBits : bits = bits' := ext_getD hLength h
  subst hBits
  rfl

/-! ## Common positions -/

theorem any_zip_iff {as bs : List Bool} : (as.zip bs).any (fun (x, y) => x && y) = true ↔
    ∃ position, as.getD position false = true ∧ bs.getD position false = true := by
  induction as generalizing bs with
  | nil => simp
  | cons a as ih =>
    cases bs with
    | nil => simp
    | cons b bs =>
      rw [List.zip_cons_cons, List.any_cons, Bool.or_eq_true, Bool.and_eq_true, ih]
      constructor
      · rintro (hFirst | ⟨position, hBoth⟩)
        · exact ⟨0, hFirst⟩
        · exact ⟨position + 1, hBoth⟩
      · rintro ⟨_ | position, hBoth⟩
        · exact Or.inl hBoth
        · exact Or.inr ⟨position, hBoth⟩

/-- **Lists intersect** if they have a position in common. -/
theorem intersects_iff : b.intersects other = true ↔
    ∃ position, b.get position = true ∧ other.get position = true :=
  any_zip_iff

theorem intersects_eq_false :
    b.intersects other = false ↔ Disjoint b.positions other.positions := by
  rw [← Bool.not_eq_true, intersects_iff, Set.disjoint_left, not_exists]
  exact forall_congr' fun position => not_and

/-- Going through the positions of one list shows whether it intersects another one. -/
theorem intersects_eq_any (b other : BitList limit) :
    b.intersects other = b.ones.any other.get := by
  rw [Bool.eq_iff_iff, intersects_iff, List.any_eq_true]
  simp only [mem_ones]

theorem intersects_self : b.intersects b = b.any := by
  rw [Bool.eq_iff_iff, intersects_iff, any, List.any_eq_true]
  constructor
  · rintro ⟨position, hSet, -⟩
    refine ⟨true, ?_, rfl⟩
    rw [← hSet, get, List.getD_eq_getElem _ _ (lt_length_of_get hSet)]
    exact List.getElem_mem _
  · rintro ⟨bit, hMem, hBit⟩
    obtain ⟨position, hLess, rfl⟩ := List.getElem_of_mem hMem
    have hSet : b.get position = true := by rwa [get, List.getD_eq_getElem _ _ hLess]
    exact ⟨position, hSet, hSet⟩

/-! ## Unions -/

theorem getD_orBits (as bs : List Bool) (position : Nat) : (orBits as bs).getD position false =
    (as.getD position false || (decide (position < as.length) && bs.getD position false)) := by
  induction as generalizing bs position with
  | nil => simp [orBits]
  | cons a as ih =>
    cases bs with
    | nil => simp [orBits]
    | cons b bs =>
      cases position with
      | zero => simp [orBits]
      | succ position =>
        rw [orBits, List.getD_cons_succ, List.getD_cons_succ, List.getD_cons_succ, ih]
        simp

/-- **A union** has the positions of both lists, but for those beyond the first one. -/
theorem get_union : (b.union other).get position = true ↔
    b.get position = true ∨ (position < b.length ∧ other.get position = true) := by
  rw [get, union, getD_orBits, Bool.or_eq_true, Bool.and_eq_true, decide_eq_true_eq]
  rfl

theorem length_union (b other : BitList limit) : (b.union other).length = b.length :=
  length_orBits b.bits other.bits

theorem get_union_of_length (h : b.length = other.length) : (b.union other).get position = true ↔
    b.get position = true ∨ other.get position = true := by
  rw [get_union]
  refine or_congr_right (and_iff_right_of_imp fun hSet => ?_)
  rw [h]
  exact lt_length_of_get hSet

theorem positions_union (h : b.length = other.length) :
    (b.union other).positions = b.positions ∪ other.positions :=
  Set.ext fun _ => get_union_of_length h

/-- What shares a position with a union shares it with one of the two. -/
theorem intersects_union (h : b.length = b'.length) :
    (b.union b').intersects other = (b.intersects other || b'.intersects other) := by
  rw [Bool.eq_iff_iff, Bool.or_eq_true, intersects_iff, intersects_iff, intersects_iff]
  simp only [get_union_of_length h, or_and_right, exists_or]

theorem get_set (value : Bool) {index : Nat} : (b.set index value).get position =
    if index = position ∧ position < b.length then value else b.get position := by
  simp only [get, set, List.getD_eq_getElem?_getD, List.getElem?_set, length]
  by_cases hSame : index = position
  · subst hSame
    by_cases hLess : index < b.bits.length <;> simp [hLess]
  · simp [hSame]

theorem length_set (b : BitList limit) (index : Nat) (value : Bool) :
    (b.set index value).length = b.length :=
  List.length_set

/-- The list in which bits have been set, one after the other. -/
def setAll (b : BitList limit) (positions : List Nat) : BitList limit :=
  positions.foldl (fun b index => b.set index true) b

theorem length_setAll (b : BitList limit) (positions : List Nat) :
    (b.setAll positions).length = b.length := by
  induction positions generalizing b with
  | nil => rfl
  | cons index rest ih => exact (ih _).trans (length_set b index true)

/-- Setting bits beyond the last one has no effect. -/
theorem get_setAll (b : BitList limit) (positions : List Nat) :
    (b.setAll positions).get position = true ↔
      b.get position = true ∨ (position < b.length ∧ position ∈ positions) := by
  induction positions generalizing b with
  | nil => simp [setAll]
  | cons index rest ih =>
    show ((b.set index true).setAll rest).get position = true ↔ _
    rw [ih, get_set, length_set, List.mem_cons]
    split
    · rename_i hHere
      simp [hHere.1, hHere.2]
    · rename_i hElsewhere
      have hOther : position < b.length → position ≠ index := fun hLess hSame =>
        hElsewhere ⟨hSame.symm, hLess⟩
      refine or_congr_right (and_congr_right fun hLess => ?_)
      exact (or_iff_right (hOther hLess)).symm

/-- Setting the bits of one list in another one gives the union. -/
theorem union_eq_setAll (b other : BitList limit) : b.union other = b.setAll other.ones := by
  refine ext_get ?_ fun position => ?_
  · rw [length_union, length_setAll]
  · rw [Bool.eq_iff_iff, get_union, get_setAll, mem_ones]

end ForkChoice.BitList
