import Mathlib.Data.Fintype.Perm
import Mathlib.Data.List.FinRange
import ForkChoice.Chain.Shuffle
import ForkChoice.Hash.Sha256
import ForkChoice.Proofs.Outcome

/-!
# ForkChoice — the shuffle is a permutation

A round looks at a position and at its mirror image at a pivot, and exchanges them or leaves both.
Which of the two happens depends on the greater of them only, so both make the same decision, and
mirroring twice leads back. A round is thus its own inverse, whatever the hash function answers.
The shuffle is a composition of rounds: for every seed and every count it moves the positions
below the count onto each other, one to one.

* `mirrored`, `mirrored_mirrored` — the mirror image at a pivot;
* `roundMove`, `roundMove_roundMove` — where a round moves a position,
  `shuffleRound_eq` — what a round computes;
* `roundPerm`, `shufflePerm` — a round and the whole shuffle as permutations,
  `shuffledIndex_eq` — what is computed for a position, `shuffledIndex_eq_ok` — and what it is if
  the count is so great that a sum may not fit;
* `shuffledIndex_bijective` — positions are moved onto each other, one to one;
* `shuffled` — a list in the order of the shuffle, `shuffled_perm` — it has the same members.
-/

namespace ForkChoice

namespace Checked

variable {α : Type} {a b : Nat}

theorem sum_eq_ok (h : a + b < UInt64.size) : sum a b = .ok (a + b) :=
  if_pos h

theorem product_eq_ok (h : a * b < UInt64.size) : product a b = .ok (a * b) :=
  if_pos h

theorem getAt_eq_ok {xs : Array α} {index : Nat} (h : index < xs.size) :
    getAt xs index = .ok xs[index] := by
  rw [getAt, Array.getElem?_eq_getElem h]

theorem require_eq_ok {condition : Bool} {statement : String} (h : condition = true) :
    require condition statement = .ok () :=
  if_pos h

end Checked

/-! ## Mirroring -/

/-- The mirror image of a position below `count`: the one as far behind the pivot as it is in
front of it, where the positions form a circle. -/
def mirrored (pivot count index : Nat) : Nat :=
  (pivot + count - index) % count

variable {count index pivot : Nat}

theorem mirrored_lt (h : index < count) : mirrored pivot count index < count :=
  Nat.mod_lt _ (by omega)

/-- A position up to the pivot is mirrored to one up to the pivot. -/
theorem mirrored_of_le (hPivot : pivot < count) (h : index ≤ pivot) :
    mirrored pivot count index = pivot - index := by
  have hRound : pivot + count - index = pivot - index + count := by omega
  rw [mirrored, hRound, Nat.add_mod_right, Nat.mod_eq_of_lt (by omega)]

/-- A position beyond the pivot is mirrored to one beyond the pivot. -/
theorem mirrored_of_lt (hIndex : index < count) (h : pivot < index) :
    mirrored pivot count index = pivot + count - index := by
  rw [mirrored, Nat.mod_eq_of_lt (by omega)]

theorem mirrored_mirrored (hPivot : pivot < count) (hIndex : index < count) :
    mirrored pivot count (mirrored pivot count index) = index := by
  -- The positions up to the pivot are mirrored to each other, and so are those beyond it.
  by_cases h : index ≤ pivot
  · rw [mirrored_of_le hPivot h, mirrored_of_le hPivot (by omega)]
    omega
  · rw [mirrored_of_lt hIndex (by omega), mirrored_of_lt (by omega) (by omega)]
    omega

section

variable [HashFunction] {seed : Root} {round : Nat}

theorem pivot_lt (h : index < count) : ForkChoice.pivot seed round count < count :=
  Nat.mod_lt _ (by omega)

/-! ## Rounds -/

/-- Whether a round exchanges the position with its mirror image if it is the greater of them. -/
def exchanges (seed : Root) (round position : Nat) : Bool :=
  bitAt (hashRootByteHalfWord seed (UInt8.ofNat round) (position / 256).toUInt32) (position % 256)

/-- Where a round moves a position below `count`. -/
def roundMove (seed : Root) (count round index : Nat) : Nat :=
  let mirror := mirrored (ForkChoice.pivot seed round count) count index
  if exchanges seed round (max index mirror) then mirror else index

/-- **One round**, as it is computed: nothing overflows, since the pivot lies below the count. -/
theorem shuffleRound_eq (h : index < count) (hCount : 2 * count ≤ UInt64.size) :
    shuffleRound seed count round index = .ok (roundMove seed count round index) := by
  have hPivot : ForkChoice.pivot seed round count < count := pivot_lt h
  rw [shuffleRound, Checked.sum_eq_ok (by omega), ok_bind]
  rfl

/-- A round that does not fail moves the position in this way. -/
theorem shuffleRound_eq_ok {moved : Nat} (h : shuffleRound seed count round index = .ok moved) :
    moved = roundMove seed count round index := by
  obtain ⟨sum, hSum, hMoved⟩ := bind_eq_ok.mp h
  have hSame : ForkChoice.pivot seed round count + count = sum := by
    unfold Checked.sum at hSum
    split at hSum
    · exact Except.ok.inj hSum
    · cases hSum
  subst hSame
  exact (Except.ok.inj hMoved).symm

theorem roundMove_lt (h : index < count) : roundMove seed count round index < count := by
  unfold roundMove
  dsimp only
  split
  · exact mirrored_lt h
  · exact h

/-- **A round is its own inverse.** A position and its mirror image see the same pair, and the
greater of the pair decides. -/
theorem roundMove_roundMove (h : index < count) :
    roundMove seed count round (roundMove seed count round index) = index := by
  have hPivot : ForkChoice.pivot seed round count < count := pivot_lt h
  have hBack := mirrored_mirrored hPivot h
  -- Seen from the mirror image, the pair is the same with its parts exchanged.
  by_cases hDecision : exchanges seed round
      (max index (mirrored (ForkChoice.pivot seed round count) count index)) = true
  · have hThere : roundMove seed count round index =
        mirrored (ForkChoice.pivot seed round count) count index := if_pos hDecision
    rw [hThere, roundMove, hBack, max_comm, if_pos hDecision]
  · have hHere : roundMove seed count round index = index := if_neg hDecision
    rw [hHere, hHere]

/-- A round as a permutation of the positions. -/
def roundPerm (seed : Root) (count round : Nat) : Equiv.Perm (Fin count) :=
  Function.Involutive.toPerm
    (fun index => ⟨roundMove seed count round index, roundMove_lt index.isLt⟩)
    (fun index => Fin.ext (roundMove_roundMove index.isLt))

/-! ## All rounds -/

/-- The last `rounds` of `total` rounds as a permutation. -/
def roundsPerm (seed : Root) (count total : Nat) : Nat → Equiv.Perm (Fin count)
  | 0 => 1
  | rounds + 1 => roundsPerm seed count total rounds * roundPerm seed count (total - (rounds + 1))

/-- The shuffle as a permutation of the positions below a count. -/
def shufflePerm (p : Preset) (seed : Root) (count : Nat) : Equiv.Perm (Fin count) :=
  roundsPerm seed count p.shuffleRoundCount p.shuffleRoundCount

theorem shuffleFrom_eq (hCount : 2 * count ≤ UInt64.size) (total rounds : Nat)
    (index : Fin count) :
    shuffleFrom seed count total rounds index =
      .ok (roundsPerm seed count total rounds index : Nat) := by
  -- The first of these rounds is carried out first, and the others go on where it leads.
  induction rounds generalizing index with
  | zero => rfl
  | succ rounds ih =>
    rw [shuffleFrom, shuffleRound_eq index.isLt hCount, ok_bind]
    exact ih (roundPerm seed count (total - (rounds + 1)) index)

/-- **The shuffle**, as it is computed for a position below the count: it never fails, and all
positions together are moved by a permutation. -/
theorem shuffledIndex_eq {p : Preset} (hCount : 2 * count ≤ UInt64.size) (index : Fin count) :
    shuffledIndex p seed count index = .ok (shufflePerm p seed count index : Nat) := by
  rw [shuffledIndex, Checked.require_eq_ok (decide_eq_true index.isLt), ok_bind]
  exact shuffleFrom_eq hCount _ _ index

theorem shuffleFrom_eq_ok {total rounds moved : Nat} (index : Fin count)
    (h : shuffleFrom seed count total rounds index = .ok moved) :
    moved = (roundsPerm seed count total rounds index : Nat) := by
  induction rounds generalizing index with
  | zero => exact (Except.ok.inj h).symm
  | succ rounds ih =>
    rw [shuffleFrom, bind_eq_ok] at h
    obtain ⟨first, hFirst, hRest⟩ := h
    obtain rfl := shuffleRound_eq_ok hFirst
    exact ih (roundPerm seed count (total - (rounds + 1)) index) hRest

/-- A shuffle that does not fail is the permutation, however great the count is. -/
theorem shuffledIndex_eq_ok {p : Preset} {moved : Nat}
    (h : shuffledIndex p seed count index = .ok moved) :
    ∃ hIndex : index < count, moved = (shufflePerm p seed count ⟨index, hIndex⟩ : Nat) := by
  rw [shuffledIndex, bind_eq_ok] at h
  obtain ⟨_, hRequired, hMoved⟩ := h
  have hIndex : index < count := by
    unfold Checked.require at hRequired
    split at hRequired
    · exact of_decide_eq_true ‹_›
    · cases hRequired
  exact ⟨hIndex, shuffleFrom_eq_ok ⟨index, hIndex⟩ hMoved⟩

/-- **One to one.** Let there be up to 2^63 positions, and let seed and hash function be any. In
each round the pivot and the count fit into a word together, no position lies behind them, and the
round leads from each position to one from which it leads back. So the shuffle never fails: it moves
every position below the count to one below the count, and to each of them exactly one is moved.
Positions of which the number of the window is cut off to 32 bits are no exception. -/
theorem shuffledIndex_bijective (p : Preset) (seed : Root) (count : Nat) (hCount : count ≤ 2 ^ 63) :
    (∀ round, ∀ index < count,
      ForkChoice.pivot seed round count + count < UInt64.size ∧
        index ≤ ForkChoice.pivot seed round count + count ∧
          ∃ moved < count, shuffleRound seed count round index = .ok moved ∧
            shuffleRound seed count round moved = .ok index) ∧
      (∀ index < count, ∃ moved < count, shuffledIndex p seed count index = .ok moved) ∧
        ∀ moved < count, ∃! index, index < count ∧ shuffledIndex p seed count index = .ok moved := by
  have hSize : UInt64.size = 2 ^ 63 * 2 := rfl
  have hFits : 2 * count ≤ UInt64.size := by omega
  refine ⟨fun round index hIndex => ?_, fun index hIndex => ?_, fun moved hMoved => ?_⟩
  · have hPivot : ForkChoice.pivot seed round count < count := pivot_lt hIndex
    have hMoved : roundMove seed count round index < count := roundMove_lt hIndex
    have hBack : shuffleRound seed count round (roundMove seed count round index) = .ok index := by
      rw [shuffleRound_eq hMoved hFits, roundMove_roundMove hIndex]
    exact ⟨by omega, by omega, _, hMoved, shuffleRound_eq hIndex hFits, hBack⟩
  · exact ⟨_, Fin.isLt _, shuffledIndex_eq hFits ⟨index, hIndex⟩⟩
  · -- The inverse of the permutation tells where the position came from.
    refine ⟨(shufflePerm p seed count).symm ⟨moved, hMoved⟩, ⟨Fin.isLt _, ?_⟩, ?_⟩
    · rw [shuffledIndex_eq hFits, Equiv.apply_symm_apply]
    · rintro index ⟨hIndex, hThere⟩
      rw [shuffledIndex_eq hFits ⟨index, hIndex⟩, Except.ok.injEq] at hThere
      have hMove : shufflePerm p seed count ⟨index, hIndex⟩ = ⟨moved, hMoved⟩ := Fin.ext hThere
      rw [← hMove, Equiv.symm_apply_apply]

omit [HashFunction] in
/-- The last of 2^63 positions lies far beyond the windows that have numbers of their own. With
SHA-256 it is moved to another position, and no other one is moved there. -/
theorem shuffledIndex_bijective_of_last :
    letI : HashFunction := ⟨Sha256.digest⟩
    2 ^ 32 ≤ (2 ^ 63 - 1) / 256 ∧
      shuffledIndex .minimal 0 (2 ^ 63) (2 ^ 63 - 1) = .ok 926685102141364721 ∧
        ∃! index, index < 2 ^ 63 ∧
          shuffledIndex .minimal 0 (2 ^ 63) index = .ok 926685102141364721 := by
  let : HashFunction := ⟨Sha256.digest⟩
  obtain ⟨-, -, hOnto⟩ := shuffledIndex_bijective .minimal 0 (2 ^ 63) (Nat.le_refl _)
  exact ⟨by decide, by decide +kernel, hOnto _ (by decide)⟩

/-! ## Shuffled lists -/

variable {α : Type}

/-- What is found at the shuffled positions of a list, in the order of the positions. -/
def shuffled (p : Preset) (seed : Root) (xs : List α) : List α :=
  List.ofFn fun position : Fin xs.length => xs[shufflePerm p seed xs.length position]

theorem length_shuffled (p : Preset) (seed : Root) (xs : List α) :
    (shuffled p seed xs).length = xs.length :=
  List.length_ofFn

theorem getElem_shuffled {p : Preset} {xs : List α} {position : Nat}
    (h : position < (shuffled p seed xs).length) :
    (shuffled p seed xs)[position] =
      xs[shufflePerm p seed xs.length ⟨position, length_shuffled p seed xs ▸ h⟩] :=
  List.getElem_ofFn h

/-- **Shuffling** neither loses nor repeats anything. -/
theorem shuffled_perm (p : Preset) (seed : Root) (xs : List α) :
    (shuffled p seed xs).Perm xs := by
  have hMoved := (shufflePerm p seed xs.length).ofFn_comp_perm xs.get
  rwa [List.ofFn_get] at hMoved

end

end ForkChoice
