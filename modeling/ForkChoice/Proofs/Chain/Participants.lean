import ForkChoice.Proofs.Chain.Committees
import ForkChoice.Proofs.Transition.Network

/-!
# ForkChoice — the members of a committee who take part

An attestation names its participants by bits, one for each member of the committee. They are
sorted by index and never looked at for repetitions; there are none, because the members of a
committee stand at different positions of the shuffled validators, and no validator is active twice.
The statements here are about committees that a state tells, whatever the size of its registry: a
state that cannot compute a committee reports that and tells none.

* `selected` — the elements of a list whose bits are set, `mem_selected`, `length_selected`;
* `pairwise_lt_mergeSort` — sorting a list without repetitions;
* `BeaconState.committee_sublist` — the members of a committee come from the shuffled validators,
  `BeaconState.committee_nodup`, `BeaconState.isActive_of_mem_committee` — so they are different,
  and active.
-/

namespace ForkChoice

/-! ## Chosen elements -/

section

variable {α : Type} {bits : List Bool} {xs : List α} {x : α}

/-- The elements of a list whose bits are set, in the order of the list. -/
def selected (bits : List Bool) (xs : List α) : List α :=
  (bits.zip xs).filterMap fun (bit, x) => if bit then some x else none

theorem selected_cons (bit : Bool) (bits : List Bool) (x : α) (xs : List α) :
    selected (bit :: bits) (x :: xs) =
      if bit then x :: selected bits xs else selected bits xs := by
  cases bit <;> rfl

theorem selected_sublist (bits : List Bool) (xs : List α) : (selected bits xs).Sublist xs := by
  induction bits generalizing xs with
  | nil => exact List.nil_sublist xs
  | cons bit bits ih =>
    cases xs with
    | nil => exact List.Sublist.refl []
    | cons x xs =>
      rw [selected_cons]
      cases bit with
      | true => exact (ih xs).cons_cons x
      | false => exact (ih xs).cons x

theorem mem_selected :
    x ∈ selected bits xs ↔ ∃ k : Nat, xs[k]? = some x ∧ bits[k]? = some true := by
  unfold selected
  rw [List.mem_filterMap]
  constructor
  · rintro ⟨⟨bit, y⟩, hMem, hSet⟩
    obtain ⟨k, hk⟩ := List.mem_iff_getElem?.mp hMem
    obtain ⟨hBit, hElement⟩ := List.getElem?_zip_eq_some.mp hk
    cases bit with
    | true => exact ⟨k, hElement.trans hSet, hBit⟩
    | false => cases hSet
  · rintro ⟨k, hElement, hBit⟩
    exact ⟨(true, x), List.mem_iff_getElem?.mpr ⟨k, List.getElem?_zip_eq_some.mpr ⟨hBit, hElement⟩⟩,
      rfl⟩

theorem length_selected (h : bits.length = xs.length) :
    (selected bits xs).length = bits.count true := by
  induction bits generalizing xs with
  | nil => rfl
  | cons bit bits ih =>
    cases xs with
    | nil => cases h
    | cons x xs =>
      have hRest := ih (Nat.succ.inj h)
      rw [selected_cons]
      cases bit with
      | true => rw [if_pos rfl, List.length_cons, List.count_cons_self, hRest]
      | false => rw [if_neg Bool.false_ne_true, List.count_cons_of_ne Bool.false_ne_true, hRest]

end

/-- A list of words without repetitions ascends strictly when it is sorted. -/
theorem pairwise_lt_mergeSort {indices : List UInt64} (h : indices.Nodup) :
    (indices.mergeSort fun i j => decide (i ≤ j)).Pairwise (· < ·) := by
  have hSorted : (indices.mergeSort fun i j => decide (i ≤ j)).Pairwise
      fun i j => decide (i ≤ j) = true := by
    refine List.pairwise_mergeSort (fun i j k hij hjk => ?_) (fun i j => ?_) indices
    · rw [decide_eq_true_eq] at hij hjk ⊢
      exact UInt64.le_trans hij hjk
    · rw [Bool.or_eq_true, decide_eq_true_eq, decide_eq_true_eq]
      exact UInt64.le_total i j
  have hNodup : (indices.mergeSort fun i j => decide (i ≤ j)).Nodup :=
    (List.mergeSort_perm _ _).nodup_iff.mpr h
  refine hSorted.imp₂ (fun i j hLe hNe => ?_) hNodup
  exact UInt64.lt_of_le_of_ne (of_decide_eq_true hLe) hNe

/-! ## Members of a committee -/

namespace BeaconState

variable [HashFunction] {p : Preset} {s : BeaconState} {seed : Root} {slot : Slot}
  {index : CommitteeIndex} {indices members : List ValidatorIndex}

theorem membersFrom_eq_ok {start count : Nat}
    (h : membersFrom p seed indices.toArray start count = .ok members) :
    members = ((shuffled p seed indices).drop start).take count := by
  induction count generalizing start members with
  | zero => exact (Except.ok.inj h).symm
  | succ count ih =>
    simp only [membersFrom, bind_eq_ok, pure_eq_ok, List.size_toArray] at h
    obtain ⟨position, hShuffled, member, hMember, rest, hRest, rfl⟩ := h
    obtain ⟨hStart, rfl⟩ := shuffledIndex_eq_ok hShuffled
    rw [Checked.getAt_eq_ok (Fin.isLt _), Except.ok.injEq] at hMember
    have hBelow : start < (shuffled p seed indices).length := by
      rw [length_shuffled]
      exact hStart
    rw [List.drop_eq_getElem_cons hBelow, List.take_succ_cons, getElem_shuffled, ih hRest,
      ← hMember]
    rfl

/-- The members of a committee follow each other among the shuffled validators of its epoch. -/
theorem committee_sublist (h : s.committee p slot index = .ok members) :
    ∃ seed, members.Sublist (shuffled p seed (s.activeIndices (p.epochAt slot))) := by
  have hIn := committeeIn_of_committee h
  simp only [committeeIn, Outcome.guard_eq_ok, bind_eq_ok, Checked.liftM_eq,
    Checked.toOutcome_eq_ok] at hIn
  obtain ⟨-, -, seed, -, committees, -, before, -, number, -, hMembers⟩ := hIn
  simp only [committeeMembers, bind_eq_ok] at hMembers
  obtain ⟨start, -, next, -, stop, -, hFrom⟩ := hMembers
  refine ⟨seed, ?_⟩
  rw [membersFrom_eq_ok hFrom]
  exact (List.take_sublist _ _).trans (List.drop_sublist _ _)

/-- **No member twice.** Positions are shuffled one to one, and no validator is active twice. -/
theorem committee_nodup (hRegistry : s.validators.size ≤ UInt64.size)
    (h : s.committee p slot index = .ok members) : members.Nodup := by
  obtain ⟨seed, hSublist⟩ := committee_sublist h
  have hShuffled : (shuffled p seed (s.activeIndices (p.epochAt slot))).Nodup :=
    (shuffled_perm _ _ _).nodup_iff.mpr (activeIndices_nodup hRegistry)
  exact hShuffled.sublist hSublist

theorem isActive_of_mem_committee (hRegistry : s.validators.size ≤ UInt64.size)
    (h : s.committee p slot index = .ok members) {i : ValidatorIndex} (hMem : i ∈ members) :
    ∃ validator, s.validators[i.toNat]? = some validator ∧
      validator.isActive (p.epochAt slot) = true := by
  obtain ⟨seed, hSublist⟩ := committee_sublist h
  have hActive := (shuffled_perm p seed _).mem_iff.mp (hSublist.subset hMem)
  exact (mem_activeIndices hRegistry).mp hActive

end BeaconState

end ForkChoice
