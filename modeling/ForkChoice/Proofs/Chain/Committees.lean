import Mathlib.Data.List.Sigma
import ForkChoice.Proofs.Chain.Epochs

/-!
# ForkChoice — committees divide the active validators

The committees of an epoch are numbered through, slot by slot. Number `k` of `total` gets the
positions from `size * k / total` up to `size * (k + 1) / total` of the shuffled active validators:
where one share ends, the next one begins, the first begins at the start, and the last one ends at
the end. So the shares, one after the other, are the shuffled validators, and these are the active
validators in another order. How the quotients are rounded decides only which of the shares get one
member more than the others.

* `share`, `flatten_shares`, `length_share` — equal shares of a list;
* `committeeCount_bounds` — there is a committee in every slot, and there are not too many of them;
* `BeaconState.mem_activeIndices`, `BeaconState.activeIndices_nodup` — who is active;
* `BeaconState.committeeMembers_eq`, `BeaconState.committee_eq_share` — a committee is a share;
* `BeaconState.epochCommittees` — all committees of an epoch, `epochCommittees_perm` — they divide
  the active validators among them.
-/

namespace ForkChoice

/-! ## Equal shares -/

section

variable {α : Type} {xs : List α} {total k : Nat}

/-- Where share number `k` of `total` begins in a list of some length. -/
def shareStart (length total k : Nat) : Nat :=
  length * k / total

/-- Share number `k` of `total` of a list. -/
def share (xs : List α) (total k : Nat) : List α :=
  (xs.drop (shareStart xs.length total k)).take
    (shareStart xs.length total (k + 1) - shareStart xs.length total k)

theorem shareStart_le_succ (length total k : Nat) :
    shareStart length total k ≤ shareStart length total (k + 1) :=
  Nat.div_le_div_right (Nat.mul_le_mul_left length (Nat.le_succ k))

theorem shareStart_le (length : Nat) (h : k ≤ total) : shareStart length total k ≤ length := by
  by_cases hNone : total = 0
  · rw [shareStart, hNone, Nat.div_zero]
    exact Nat.zero_le length
  · refine Nat.div_le_of_le_mul ?_
    rw [Nat.mul_comm total length]
    exact Nat.mul_le_mul_left length h

/-- The first shares together are the list up to where the next one begins. -/
theorem flatten_map_share (xs : List α) (total k : Nat) :
    ((List.range k).map (share xs total)).flatten = xs.take (shareStart xs.length total k) := by
  -- Each share begins where those before it have ended.
  induction k with
  | zero => rw [shareStart, Nat.mul_zero, Nat.zero_div, List.range_zero]; rfl
  | succ k ih =>
    have hNext : shareStart xs.length total k +
        (shareStart xs.length total (k + 1) - shareStart xs.length total k) =
          shareStart xs.length total (k + 1) :=
      Nat.add_sub_of_le (shareStart_le_succ _ _ _)
    rw [List.range_succ, List.map_append, List.flatten_append, ih, ← hNext, List.take_add]
    simp [share]

/-- **Shares.** All shares together are the list. -/
theorem flatten_shares (xs : List α) (h : 0 < total) :
    ((List.range total).map (share xs total)).flatten = xs := by
  have hEnd : shareStart xs.length total total = xs.length := Nat.mul_div_cancel _ h
  rw [flatten_map_share, hEnd, List.take_length]

/-- A share has as many members as go into it in whole numbers, or one more. -/
theorem length_share (xs : List α) (h : k < total) :
    xs.length / total ≤ (share xs total k).length ∧
      (share xs total k).length ≤ xs.length / total + 1 := by
  have hEnd : shareStart xs.length total (k + 1) ≤ xs.length := shareStart_le _ h
  have hLength : (share xs total k).length =
      shareStart xs.length total (k + 1) - shareStart xs.length total k := by
    rw [share, List.length_take, List.length_drop]
    omega
  -- The remainders of both quotients come to less than two shares.
  have hNext : shareStart xs.length total (k + 1) =
      shareStart xs.length total k + xs.length / total +
        if total ≤ xs.length * k % total + xs.length % total then 1 else 0 := by
    rw [shareStart, Nat.mul_succ, Nat.add_div (by omega)]
    rfl
  have hWhole : 0 ≤ xs.length / total := Nat.zero_le _
  split at hNext
  · omega
  · omega

/-- Counting through rows of the same length. -/
theorem flatMap_range_rows (rows columns : Nat) :
    ((List.range rows).flatMap fun row => (List.range columns).map fun column =>
      row * columns + column) = List.range (columns * rows) := by
  induction rows with
  | zero => rfl
  | succ rows ih =>
    rw [List.range_succ, List.flatMap_append, ih, Nat.mul_succ, List.range_add,
      Nat.mul_comm columns rows]
    simp

end

/-! ## The number of committees -/

theorem UInt64.toNat_max (a b : UInt64) : (max a b).toNat = max a.toNat b.toNat := by
  show (if a ≤ b then b else a).toNat = _
  split
  · rename_i h
    rw [UInt64.le_iff_toNat_le] at h
    omega
  · rename_i h
    rw [UInt64.le_iff_toNat_le] at h
    omega

theorem UInt64.toNat_min (a b : UInt64) : (min a b).toNat = min a.toNat b.toNat := by
  show (if a ≤ b then a else b).toNat = _
  split
  · rename_i h
    rw [UInt64.le_iff_toNat_le] at h
    omega
  · rename_i h
    rw [UInt64.le_iff_toNat_le] at h
    omega

theorem committeeCount_bounds (p : Preset) (active : UInt64) :
    1 ≤ (committeeCount p active).toNat ∧ (committeeCount p active).toNat ≤ 64 := by
  have hMost : p.maxCommitteesPerSlot.toNat ≤ 64 := by cases p <;> decide
  have hOne : (1 : UInt64).toNat = 1 := rfl
  rw [committeeCount, UInt64.toNat_max, UInt64.toNat_min, hOne]
  omega

namespace BeaconState

variable {p : Preset} {s : BeaconState} {epoch : Epoch} {relative : RelativeEpoch} {slot : Slot}
  {index : CommitteeIndex}

/-! ## Active validators -/

theorem activeFrom_eq (epoch : Epoch) (start : Nat) (validators : List Validator) :
    activeFrom epoch start validators =
      ((validators.zipIdx start).filter fun entry => entry.1.isActive epoch).map
        fun entry => UInt64.ofNat entry.2 := by
  induction validators generalizing start with
  | nil => rfl
  | cons validator rest ih =>
    rw [activeFrom, List.zipIdx_cons]
    by_cases hActive : validator.isActive epoch = true
    · rw [if_pos hActive, ih, List.filter_cons, if_pos hActive, List.map_cons]
    · rw [if_neg hActive, ih, List.filter_cons, if_neg hActive]

theorem length_activeIndices_le (s : BeaconState) (epoch : Epoch) :
    (s.activeIndices epoch).length ≤ s.validators.size := by
  rw [activeIndices, activeFrom_eq, List.length_map, ← Array.length_toList]
  exact Nat.le_trans (List.length_filter_le _ _) (Nat.le_of_eq List.length_zipIdx)

/-- The registry is small enough to have a number for every validator. -/
theorem mem_activeIndices (h : s.validators.size ≤ UInt64.size) {i : ValidatorIndex} :
    i ∈ s.activeIndices epoch ↔
      ∃ validator, s.validators[i.toNat]? = some validator ∧ validator.isActive epoch = true := by
  rw [activeIndices, activeFrom_eq, List.mem_map]
  constructor
  · rintro ⟨⟨validator, number⟩, hMem, rfl⟩
    obtain ⟨hFound, hActive⟩ := List.mem_filter.mp hMem
    have hAt := List.mem_zipIdx_iff_getElem?.mp hFound
    rw [Array.getElem?_toList] at hAt
    have hNumber : number < s.validators.size := (Array.getElem?_eq_some_iff.mp hAt).1
    refine ⟨validator, ?_, hActive⟩
    rw [UInt64.toNat_ofNat_of_lt' (by omega)]
    exact hAt
  · rintro ⟨validator, hAt, hActive⟩
    refine ⟨(validator, i.toNat), List.mem_filter.mpr ⟨?_, hActive⟩, UInt64.ofNat_toNat⟩
    rw [List.mem_zipIdx_iff_getElem?, Array.getElem?_toList]
    exact hAt

theorem activeIndices_nodup (h : s.validators.size ≤ UInt64.size) :
    (s.activeIndices epoch).Nodup := by
  have hNumbers : ((s.validators.toList.zipIdx.filter fun entry => entry.1.isActive epoch).map
      Prod.snd).Nodup :=
    (List.nodup_zipIdx_map_snd _).sublist (List.filter_sublist.map _)
  have hBelow : ∀ entry ∈ s.validators.toList.zipIdx, entry.2 < UInt64.size := by
    intro entry hMem
    have hAt := List.mem_zipIdx_iff_getElem?.mp hMem
    rw [Array.getElem?_toList] at hAt
    have hNumber : entry.2 < s.validators.size := (Array.getElem?_eq_some_iff.mp hAt).1
    omega
  rw [activeIndices, activeFrom_eq]
  -- Different numbers below the size of a word are different words.
  refine List.Nodup.map_on ?_ hNumbers.of_map
  intro entry hMem entry' hMem' hSame
  have hWord := congrArg UInt64.toNat hSame
  rw [UInt64.toNat_ofNat_of_lt' (hBelow _ (List.mem_of_mem_filter hMem)),
    UInt64.toNat_ofNat_of_lt' (hBelow _ (List.mem_of_mem_filter hMem'))] at hWord
  exact List.inj_on_of_nodup_map hNumbers hMem hMem' hWord

/-! ## Members -/

section

variable [HashFunction] {seed : Root} {indices : List ValidatorIndex}

/-- The members at some positions are found there in the shuffled list. -/
theorem membersFrom_eq (hFits : 2 * indices.length ≤ UInt64.size) (start count : Nat)
    (h : start + count ≤ indices.length) :
    membersFrom p seed indices.toArray start count =
      .ok (((shuffled p seed indices).drop start).take count) := by
  -- The members are drawn one by one, from the first position on.
  induction count generalizing start with
  | zero => rfl
  | succ count ih =>
    have hStart : start < indices.length := by omega
    have hShuffled : start < (shuffled p seed indices).length := by
      rw [length_shuffled]
      exact hStart
    have hPosition : shuffledIndex p seed indices.length start =
        .ok (shufflePerm p seed indices.length ⟨start, hStart⟩ : Nat) :=
      shuffledIndex_eq hFits ⟨start, hStart⟩
    have hRest := ih (start + 1) (by omega)
    rw [List.drop_eq_getElem_cons hShuffled, List.take_succ_cons, getElem_shuffled, membersFrom,
      List.size_toArray, hPosition, ok_bind, Checked.getAt_eq_ok (Fin.isLt _), ok_bind, hRest]
    rfl

/-- **A committee** is a share of the shuffled validators. -/
theorem committeeMembers_eq {number committees : Nat} (hNumber : number < committees)
    (hIndices : indices.length ≤ 2 ^ 40) (hCommittees : committees ≤ 2 ^ 11) :
    committeeMembers p seed indices.toArray number committees =
      .ok (share (shuffled p seed indices) committees number) := by
  have hProduct : indices.length * (number + 1) ≤ 2 ^ 40 * 2 ^ 11 :=
    Nat.mul_le_mul hIndices (by omega)
  have hLess : indices.length * number ≤ indices.length * (number + 1) :=
    Nat.mul_le_mul_left _ (Nat.le_succ number)
  have hSize : UInt64.size = 2 ^ 64 := rfl
  have hStop : shareStart indices.length committees (number + 1) ≤ indices.length :=
    shareStart_le _ hNumber
  have hStart := shareStart_le_succ indices.length committees number
  unfold committeeMembers
  -- Both products and the sum are far below the size of a word.
  rw [List.size_toArray, Checked.product_eq_ok (by omega), ok_bind,
    Checked.sum_eq_ok (by omega), ok_bind, Checked.product_eq_ok (by omega), ok_bind, share,
    length_shuffled]
  show membersFrom p seed indices.toArray (shareStart indices.length committees number)
    (shareStart indices.length committees (number + 1) -
      shareStart indices.length committees number) = _
  exact membersFrom_eq (by omega) _ _ (by omega)

/-- **The committee of a slot**, as it is computed: if the state knows the epoch of the slot, the
index is one of the slot, and somebody is active, nothing fails. The committees of the slots before
it in its epoch come first in the count. -/
theorem committee_eq_share {perSlot : UInt64} (hSlot : p.epochAt slot = epoch)
    (hRelative : s.relativeEpoch p epoch = .ok relative)
    (hPerSlot : s.committeesPerSlot p relative = .ok perSlot) (hIndex : index < perSlot)
    (hSome : s.activeIndices epoch ≠ [])
    (hMany : (s.activeIndices epoch).length ≤ 2 ^ 40)
    (hSeed : s.seed p epoch attesterDomain = .ok seed) :
    s.committee p slot index =
      .ok (share (shuffled p seed (s.activeIndices epoch))
        (perSlot.toNat * p.slotsPerEpoch.toNat)
        (slot.toNat % p.slotsPerEpoch.toNat * perSlot.toNat + index.toNat)) := by
  subst hSlot
  have hEpoch := absoluteEpoch_of_relativeEpoch hRelative
  have hMost : perSlot.toNat ≤ 64 := by
    rw [committeesPerSlot, hEpoch] at hPerSlot
    cases hPerSlot
    exact (committeeCount_bounds p _).2
  have hSlots := p.slotsPerEpoch_le
  have hPositive := p.eight_le_slotsPerEpoch
  have hBelow : index.toNat < perSlot.toNat := UInt64.lt_iff_toNat_lt.mp hIndex
  -- The number of the committee lies below that of all committees, and this one is small.
  have hOffset : slot.toNat % p.slotsPerEpoch.toNat + 1 ≤ p.slotsPerEpoch.toNat :=
    Nat.mod_lt _ (by omega)
  have hTotal : perSlot.toNat * p.slotsPerEpoch.toNat ≤ 64 * 32 := Nat.mul_le_mul hMost hSlots
  have hNumber : slot.toNat % p.slotsPerEpoch.toNat * perSlot.toNat + index.toNat <
      perSlot.toNat * p.slotsPerEpoch.toNat := by
    have hNext := Nat.mul_le_mul_right perSlot.toNat hOffset
    rw [Nat.succ_mul, Nat.mul_comm p.slotsPerEpoch.toNat] at hNext
    omega
  have hSize : UInt64.size = 2 ^ 64 := rfl
  have hNonempty : (s.activeIndices (p.epochAt slot)).isEmpty = false := by
    rw [List.isEmpty_eq_false_iff]
    exact hSome
  have hMembers : committeeMembers p seed (s.activeIndices (p.epochAt slot)).toArray
      (slot.toNat % p.slotsPerEpoch.toNat * perSlot.toNat + index.toNat)
      (perSlot.toNat * p.slotsPerEpoch.toNat) = .ok _ :=
    committeeMembers_eq hNumber hMany (by omega)
  have hCommittees : Checked.product perSlot.toNat p.slotsPerEpoch.toNat = .ok _ :=
    Checked.product_eq_ok (by omega)
  have hBefore : Checked.product (slot.toNat % p.slotsPerEpoch.toNat) perSlot.toNat = .ok _ :=
    Checked.product_eq_ok (by omega)
  have hSum : Checked.sum (slot.toNat % p.slotsPerEpoch.toNat * perSlot.toNat) index.toNat =
      .ok _ :=
    Checked.sum_eq_ok (by omega)
  unfold committee
  simp only [hRelative, hPerSlot, hEpoch, hSeed, p.slotsSinceEpochStart_toNat, hCommittees,
    hBefore, hSum, hMembers, ok_bind, Checked.liftM_eq, Checked.toOutcome, hNonempty]
  rw [if_neg (UInt64.not_le.mpr hIndex)]
  rfl

/-- **Committees do not fault.** Asked for any slot and index, a state with all its randomness mixes
tells the committee or reports why there is none. -/
theorem committee_faultless (hMixes : s.randaoMixes.size = p.epochsPerHistoricalVector.toNat)
    (hRegistry : s.validators.size ≤ 2 ^ 40) (slot : Slot) (index : CommitteeIndex) :
    (s.committee p slot index).fault? = none := by
  cases hRelative : s.relativeEpoch p (p.epochAt slot) with
  | error failure =>
    -- The state does not know the epoch of the slot, and reports this.
    have hFaultless := relativeEpoch_faultless p s (p.epochAt slot)
    rw [hRelative] at hFaultless
    unfold committee
    dsimp only
    rw [hRelative]
    exact hFaultless
  | ok relative =>
    have hMany : (s.activeIndices (p.epochAt slot)).length ≤ 2 ^ 40 :=
      Nat.le_trans (s.length_activeIndices_le _) hRegistry
    have hPerSlot : s.committeesPerSlot p relative = .ok (committeeCount p
        (UInt64.ofNat (s.activeIndices (p.epochAt slot)).length)) := by
      rw [committeesPerSlot, absoluteEpoch_of_relativeEpoch hRelative]
      rfl
    obtain ⟨seed, hSeed⟩ : ∃ seed, s.seed p (p.epochAt slot) attesterDomain = .ok seed :=
      seed_defined hMixes (p.epochAt_lt slot)
    by_cases hIndex : index < committeeCount p
        (UInt64.ofNat (s.activeIndices (p.epochAt slot)).length)
    · by_cases hSome : s.activeIndices (p.epochAt slot) = []
      · -- Nobody is active, and this is reported.
        rw [committee_eq_committeeIn hRelative, committeeIn]
        refine Outcome.guard_faultless fun _ => ?_
        rw [hSome]
        rfl
      · rw [committee_eq_share rfl hRelative hPerSlot hIndex hSome hMany hSeed]
        rfl
    · rw [committee_eq_committeeIn hRelative, committeeIn, if_pos (UInt64.not_lt.mp hIndex)]
      rfl

/-! ## All committees of an epoch -/

/-- The slots of an epoch with the indices of their committees, in order. -/
def committeePositions (p : Preset) (epoch : Epoch) (perSlot : Nat) :
    List (Slot × CommitteeIndex) :=
  (List.range p.slotsPerEpoch.toNat).flatMap fun offset =>
    (List.range perSlot).map fun index => (p.slotAt epoch offset, UInt64.ofNat index)

/-- All committees of an epoch with so many of them in each slot, if none of them fails. -/
def epochCommittees (p : Preset) (s : BeaconState) (epoch : Epoch) (perSlot : UInt64) :
    Outcome QueryError (List (List ValidatorIndex)) :=
  (committeePositions p epoch perSlot.toNat).mapM fun (slot, index) => s.committee p slot index

/-- The committees of an epoch are the shares of its shuffled validators, in the order of their
numbers. -/
theorem epochCommittees_eq {perSlot : UInt64} (hEpoch : s.absoluteEpoch p relative = .ok epoch)
    (hPerSlot : s.committeesPerSlot p relative = .ok perSlot)
    (hSlots : epoch.toNat * p.slotsPerEpoch.toNat + p.slotsPerEpoch.toNat ≤ UInt64.size)
    (hSome : s.activeIndices epoch ≠ []) (hMany : (s.activeIndices epoch).length ≤ 2 ^ 40)
    (hSeed : s.seed p epoch attesterDomain = .ok seed) :
    s.epochCommittees p epoch perSlot =
      .ok ((List.range (perSlot.toNat * p.slotsPerEpoch.toNat)).map
        (share (shuffled p seed (s.activeIndices epoch))
          (perSlot.toNat * p.slotsPerEpoch.toNat))) := by
  -- The state may know the epoch by another name, with the same number of committees.
  obtain ⟨known, hKnown⟩ := relativeEpoch_defined hEpoch
  have hPerSlotKnown : s.committeesPerSlot p known = .ok perSlot := by
    rw [committeesPerSlot, absoluteEpoch_of_relativeEpoch hKnown, ← hEpoch]
    exact hPerSlot
  have hEach : ∀ position ∈ committeePositions p epoch perSlot.toNat,
      s.committee p position.1 position.2 =
        .ok (share (shuffled p seed (s.activeIndices epoch))
          (perSlot.toNat * p.slotsPerEpoch.toNat)
          (position.1.toNat % p.slotsPerEpoch.toNat * perSlot.toNat + position.2.toNat)) := by
    intro position hMem
    obtain ⟨offset, hOffset, hMem⟩ := List.mem_flatMap.mp hMem
    obtain ⟨index, hIndex, rfl⟩ := List.mem_map.mp hMem
    have hAt := Preset.epochAt_slotAt (List.mem_range.mp hOffset) hSlots
    have hBelow : UInt64.ofNat index < perSlot := by
      have hLess := List.mem_range.mp hIndex
      rw [UInt64.lt_iff_toNat_lt, UInt64.toNat_ofNat_of_lt' (Nat.lt_trans hLess perSlot.toNat_lt)]
      exact hLess
    exact committee_eq_share hAt hKnown hPerSlotKnown hBelow hSome hMany hSeed
  rw [epochCommittees, mapM_eq_ok_map hEach, committeePositions, List.map_flatMap,
    ← flatMap_range_rows, List.map_flatMap]
  -- Both sides go through the slots and their indices: it is the numbers that have to be the same.
  congr 1
  refine List.flatMap_congr fun offset hOffset => ?_
  rw [List.map_map, List.map_map]
  refine List.map_congr_left fun index hIndex => ?_
  have hLess := List.mem_range.mp hIndex
  have hOffset := List.mem_range.mp hOffset
  have hWord : (UInt64.ofNat index).toNat = index :=
    UInt64.toNat_ofNat_of_lt' (Nat.lt_trans hLess perSlot.toNat_lt)
  have hRemainder : (p.slotAt epoch offset).toNat % p.slotsPerEpoch.toNat = offset := by
    rw [← p.slotsSinceEpochStart_toNat, Preset.slotsSinceEpochStart_slotAt hOffset hSlots]
  show share _ _ ((p.slotAt epoch offset).toNat % p.slotsPerEpoch.toNat * perSlot.toNat +
    (UInt64.ofNat index).toNat) = share _ _ (offset * perSlot.toNat + index)
  rw [hWord, hRemainder]

/-- **Committees divide the active validators.** Let a state have all its randomness mixes, and let
an epoch that is previous, current or next for it have some active validators, not too many of
them, and slots that are words. Then it tells the number of committees in each slot of the epoch,
and every one of these committees: no computation fails. One after the other, they are the active
validators of the epoch in another order, so that each of them is in exactly one committee and
nobody else is in any, and no committee has more than one member more than another. This holds
whatever the hash function answers. -/
theorem epochCommittees_perm (p : Preset) (s : BeaconState) (relative : RelativeEpoch)
    (epoch : Epoch) (hEpoch : s.absoluteEpoch p relative = .ok epoch)
    (hMixes : s.randaoMixes.size = p.epochsPerHistoricalVector.toNat)
    (hSome : 1 ≤ (s.activeIndices epoch).length)
    (hMany : (s.activeIndices epoch).length ≤ 2 ^ 40)
    (hSlots : epoch.toNat * p.slotsPerEpoch.toNat + p.slotsPerEpoch.toNat ≤ 2 ^ 64) :
    ∃ perSlot committees, s.committeesPerSlot p relative = .ok perSlot ∧
      s.epochCommittees p epoch perSlot = .ok committees ∧
      committees.flatten.Perm (s.activeIndices epoch) ∧
      (s.validators.size ≤ UInt64.size → committees.flatten.Nodup) ∧
      ∀ a ∈ committees, ∀ b ∈ committees, a.length ≤ b.length + 1 := by
  have hPositive := p.eight_le_slotsPerEpoch
  have hSlotsPerEpoch : epoch.toNat * 8 ≤ epoch.toNat * p.slotsPerEpoch.toNat :=
    Nat.mul_le_mul_left _ hPositive
  obtain ⟨seed, hSeed⟩ : ∃ seed, s.seed p epoch attesterDomain = .ok seed :=
    seed_defined hMixes (by omega)
  have hPerSlot : s.committeesPerSlot p relative =
      .ok (committeeCount p (UInt64.ofNat (s.activeIndices epoch).length)) := by
    rw [committeesPerSlot, hEpoch]
    rfl
  have hCommittees := epochCommittees_eq hEpoch hPerSlot hSlots
    (List.ne_nil_of_length_pos hSome) hMany hSeed
  obtain ⟨hAtLeastOne, -⟩ :=
    committeeCount_bounds p (UInt64.ofNat (s.activeIndices epoch).length)
  have hTotal : 0 < (committeeCount p (UInt64.ofNat (s.activeIndices epoch).length)).toNat *
      p.slotsPerEpoch.toNat :=
    Nat.mul_pos (by omega) (by omega)
  have hPerm := shuffled_perm p seed (s.activeIndices epoch)
  rw [← flatten_shares (shuffled p seed (s.activeIndices epoch)) hTotal] at hPerm
  refine ⟨_, _, hPerSlot, hCommittees, hPerm, ?_, ?_⟩
  · intro hRegistry
    exact hPerm.nodup_iff.mpr (activeIndices_nodup hRegistry)
  · -- Both have the same bounds.
    intro a hA b hB
    obtain ⟨k, hk, rfl⟩ := List.mem_map.mp hA
    obtain ⟨k', hk', rfl⟩ := List.mem_map.mp hB
    obtain ⟨-, hLonger⟩ := length_share (shuffled p seed (s.activeIndices epoch))
      (List.mem_range.mp hk)
    obtain ⟨hShorter, -⟩ := length_share (shuffled p seed (s.activeIndices epoch))
      (List.mem_range.mp hk')
    omega

end

/-- A state of the second epoch of a small network with 70 validators, of whom the first ten leave
at the end of this epoch. -/
def leaving : BeaconState :=
  { (default : BeaconState) with
    slot := 13
    randaoMixes := Array.replicate 64 0
    validators :=
      Array.replicate 10 { (default : Validator) with exitEpoch := 2 } ++
        Array.replicate 60 { (default : Validator) with exitEpoch := farFutureEpoch } }

/-- In the next epoch the other 60 are divided: one committee in each slot, of seven or eight
members. -/
theorem epochCommittees_perm_of_leaving :
    letI : HashFunction := ⟨fun bytes => bytes.setWidth 256⟩
    leaving.absoluteEpoch .minimal .next = .ok 2 ∧ (leaving.activeIndices 2).length = 60 ∧
      ∃ perSlot committees, leaving.committeesPerSlot .minimal .next = .ok perSlot ∧
        leaving.epochCommittees .minimal 2 perSlot = .ok committees ∧
        committees.flatten.Perm (leaving.activeIndices 2) ∧ committees.flatten.Nodup ∧
        ∀ a ∈ committees, ∀ b ∈ committees, a.length ≤ b.length + 1 := by
  let : HashFunction := ⟨fun bytes => bytes.setWidth 256⟩
  have hEpoch : leaving.absoluteEpoch .minimal .next = .ok 2 := by decide
  have hActive : (leaving.activeIndices 2).length = 60 := by decide +kernel
  obtain ⟨perSlot, committees, hPerSlot, hCommittees, hPerm, hNodup, hSizes⟩ :=
    epochCommittees_perm .minimal leaving .next 2 hEpoch (by decide) (by omega) (by omega)
      (by decide)
  exact ⟨hEpoch, hActive, perSlot, committees, hPerSlot, hCommittees, hPerm,
    hNodup (by decide), hSizes⟩

end BeaconState

end ForkChoice
