import ForkChoice.Proofs.Chain.Shuffle
import ForkChoice.Proofs.Faults
import ForkChoice.Proofs.Transition.Network

/-!
# ForkChoice — epochs, in numbers

Slots and epochs are words, and so is the first slot of an epoch, except that it stops at the
greatest word. For the epoch of a slot it never comes to that: the first slot of this epoch is not
after the slot. So the division of slots into epochs is division with remainder, at every slot, and
what a state asks of itself (its next epoch, a seed, where an epoch lies) fits into a word.

* `epochAt_toNat`, `startSlot_toNat`, `slotsSinceEpochStart_toNat` — epochs in numbers;
* `BeaconState.relativeEpoch_defined` — an epoch that a state has a name for is one that it knows;
* `BeaconState.seed_defined` — the seed of an epoch exists.
-/

namespace ForkChoice

namespace Word

variable {a b : UInt64}

theorem toNat_add_of_lt (h : a.toNat + b.toNat < UInt64.size) : (a + b).toNat = a.toNat + b.toNat := by
  rw [UInt64.toNat_add]
  exact Nat.mod_eq_of_lt h

theorem add_eq_ok_of_lt (h : a.toNat + b.toNat < UInt64.size) : add a b = .ok (a + b) :=
  if_pos h

theorem sub_eq_ok_of_le (h : b ≤ a) : sub a b = .ok (a - b) :=
  if_pos h

end Word

namespace Preset

variable {p : Preset} {epoch : Epoch} {slot : Slot}

theorem eight_le_slotsPerEpoch (p : Preset) : 8 ≤ p.slotsPerEpoch.toNat := by
  cases p <;> decide

theorem slotsPerEpoch_le (p : Preset) : p.slotsPerEpoch.toNat ≤ 32 := by
  cases p <;> decide

theorem epochAt_toNat (p : Preset) (slot : Slot) :
    (p.epochAt slot).toNat = slot.toNat / p.slotsPerEpoch.toNat :=
  UInt64.toNat_div _ _

/-- So many epochs there are that one more is far from the greatest word. -/
theorem epochAt_lt (p : Preset) (slot : Slot) : (p.epochAt slot).toNat < 2 ^ 61 := by
  have hSlots := p.eight_le_slotsPerEpoch
  have hSlot := slot.toNat_lt
  rw [epochAt_toNat, Nat.div_lt_iff_lt_mul (by omega)]
  omega

theorem startSlot_toNat (h : epoch.toNat * p.slotsPerEpoch.toNat < UInt64.size) :
    (p.startSlot epoch).toNat = epoch.toNat * p.slotsPerEpoch.toNat := by
  rw [startSlot, if_pos h, UInt64.toNat_mul]
  exact Nat.mod_eq_of_lt h

theorem slotsSinceEpochStart_toNat (p : Preset) (slot : Slot) :
    (p.slotsSinceEpochStart slot).toNat = slot.toNat % p.slotsPerEpoch.toNat := by
  have hStart := Nat.div_mul_le_self slot.toNat p.slotsPerEpoch.toNat
  -- The epoch of a slot begins at a slot that is a word, so that nothing is cut off.
  have hFits : (p.startSlot (p.epochAt slot)).toNat =
      slot.toNat / p.slotsPerEpoch.toNat * p.slotsPerEpoch.toNat := by
    rw [← epochAt_toNat]
    refine startSlot_toNat ?_
    rw [epochAt_toNat]
    exact Nat.lt_of_le_of_lt hStart slot.toNat_lt
  have hLe : p.startSlot (p.epochAt slot) ≤ slot := by
    rw [UInt64.le_iff_toNat_le, hFits]
    exact hStart
  rw [slotsSinceEpochStart, UInt64.toNat_sub_of_le _ _ hLe, hFits, Nat.mod_eq_sub_div_mul]

/-! ## The slots of an epoch -/

/-- The slot of an epoch with a number of slots of the epoch before it. -/
def slotAt (p : Preset) (epoch : Epoch) (offset : Nat) : Slot :=
  p.startSlot epoch + UInt64.ofNat offset

variable {offset : Nat}

theorem slotAt_toNat (hOffset : offset < p.slotsPerEpoch.toNat)
    (hSlots : epoch.toNat * p.slotsPerEpoch.toNat + p.slotsPerEpoch.toNat ≤ UInt64.size) :
    (p.slotAt epoch offset).toNat = epoch.toNat * p.slotsPerEpoch.toNat + offset := by
  have hStart : (p.startSlot epoch).toNat = epoch.toNat * p.slotsPerEpoch.toNat :=
    startSlot_toNat (by omega)
  have hWord : (UInt64.ofNat offset).toNat = offset := UInt64.toNat_ofNat_of_lt' (by omega)
  rw [slotAt, Word.toNat_add_of_lt (by omega), hStart, hWord]

theorem epochAt_slotAt (hOffset : offset < p.slotsPerEpoch.toNat)
    (hSlots : epoch.toNat * p.slotsPerEpoch.toNat + p.slotsPerEpoch.toNat ≤ UInt64.size) :
    p.epochAt (p.slotAt epoch offset) = epoch := by
  rw [← UInt64.toNat_inj, epochAt_toNat, slotAt_toNat hOffset hSlots, Nat.mul_comm,
    Nat.mul_add_div (by omega), Nat.div_eq_of_lt hOffset, Nat.add_zero]

theorem slotsSinceEpochStart_slotAt (hOffset : offset < p.slotsPerEpoch.toNat)
    (hSlots : epoch.toNat * p.slotsPerEpoch.toNat + p.slotsPerEpoch.toNat ≤ UInt64.size) :
    (p.slotsSinceEpochStart (p.slotAt epoch offset)).toNat = offset := by
  rw [slotsSinceEpochStart_toNat, slotAt_toNat hOffset hSlots, Nat.mul_comm,
    Nat.mul_add_mod, Nat.mod_eq_of_lt hOffset]

end Preset

namespace BeaconState

variable {p : Preset} {s : BeaconState} {epoch : Epoch} {relative : RelativeEpoch}

/-! ## The epochs around a state -/

theorem nextEpoch_toNat (p : Preset) (s : BeaconState) :
    s.nextEpoch p = .ok (s.currentEpoch p + 1) ∧
      (s.currentEpoch p + 1).toNat = (s.currentEpoch p).toNat + 1 := by
  have hEpoch : (s.currentEpoch p).toNat < 2 ^ 61 := p.epochAt_lt s.slot
  have hOne : (1 : UInt64).toNat = 1 := rfl
  have hFits : (s.currentEpoch p).toNat + (1 : UInt64).toNat < UInt64.size := by
    rw [hOne]
    have hSize : UInt64.size = 2 ^ 64 := rfl
    omega
  exact ⟨Word.add_eq_ok_of_lt hFits, Word.toNat_add_of_lt hFits⟩

/-- The epoch before that of the state is the current one at the start of the chain. -/
theorem previousEpoch_toNat (p : Preset) (s : BeaconState) :
    (s.previousEpoch p).toNat = (s.currentEpoch p).toNat - 1 := by
  have hOne : (1 : UInt64).toNat = 1 := rfl
  unfold previousEpoch Word.satSub
  split
  · rename_i hLe
    rw [UInt64.toNat_sub_of_le _ _ hLe, hOne]
  · rename_i hFirst
    rw [UInt64.le_iff_toNat_le, hOne] at hFirst
    have hZero : (0 : UInt64).toNat = 0 := rfl
    omega

/-- **Where an epoch lies.** An epoch that is previous, current or next for a state is one of those
for which it knows committees. At the start of the chain the previous epoch goes by the name of the
current one. -/
theorem relativeEpoch_defined (h : s.absoluteEpoch p relative = .ok epoch) :
    ∃ relative', s.relativeEpoch p epoch = .ok relative' := by
  obtain ⟨hNext, hNextNat⟩ := s.nextEpoch_toNat p
  have hPrevious := s.previousEpoch_toNat p
  -- The distance to the next epoch is at most two.
  have hDistance : ∃ distance : UInt64, (distance = 0 ∨ distance = 1 ∨ distance = 2) ∧
      epoch.toNat + distance.toNat = (s.currentEpoch p + 1).toNat := by
    cases relative with
    | previous =>
      cases h
      by_cases hFirst : (s.currentEpoch p).toNat = 0
      · refine ⟨1, by decide, ?_⟩
        rw [UInt64.toNat_one]
        omega
      · refine ⟨2, by decide, ?_⟩
        have hTwo : (2 : UInt64).toNat = 2 := rfl
        omega
    | current =>
      cases h
      exact ⟨1, by decide, hNextNat.symm⟩
    | next =>
      have hSame : s.currentEpoch p + 1 = epoch := Except.ok.inj (hNext.symm.trans h)
      exact ⟨0, by decide, by rw [← hSame]; rfl⟩
  obtain ⟨distance, hSmall, hDistance⟩ := hDistance
  have hSub := Word.sub?_eq_some.mpr hDistance
  unfold relativeEpoch
  rw [hNext]
  rcases hSmall with rfl | rfl | rfl
  · exact ⟨.next, by simp only [Checked.liftM_eq, Checked.toOutcome, ok_bind, hSub]; rfl⟩
  · exact ⟨.current, by simp only [Checked.liftM_eq, Checked.toOutcome, ok_bind, hSub]; rfl⟩
  · exact ⟨.previous, by simp only [Checked.liftM_eq, Checked.toOutcome, ok_bind, hSub]; rfl⟩

/-- An epoch that a state has no name for is an error of the domain. -/
theorem relativeEpoch_faultless (p : Preset) (s : BeaconState) (epoch : Epoch) :
    (s.relativeEpoch p epoch).fault? = none := by
  obtain ⟨hNext, -⟩ := s.nextEpoch_toNat p
  unfold relativeEpoch
  rw [hNext]
  refine Outcome.bind_faultless rfl fun next _ => ?_
  split <;> rfl

/-! ## Seeds -/

/-- The seed of an epoch exists in a state that keeps all its randomness mixes. -/
theorem seed_defined [HashFunction] {domain : DomainType}
    (hMixes : s.randaoMixes.size = p.epochsPerHistoricalVector.toNat)
    (hEpoch : epoch.toNat < 2 ^ 61) : ∃ root, s.seed p epoch domain = .ok root := by
  have hVector : 2 ≤ p.epochsPerHistoricalVector.toNat ∧
      p.epochsPerHistoricalVector.toNat ≤ 65536 := by
    cases p <;> decide
  have hSize : UInt64.size = 2 ^ 64 := rfl
  have hFits : epoch.toNat + p.epochsPerHistoricalVector.toNat < UInt64.size := by omega
  have hLater := Word.toNat_add_of_lt hFits
  have hOne : (1 : UInt64).toNat = 1 := rfl
  -- The length of the vector is added first, so that the differences are not negative.
  have hLookahead : minSeedLookahead ≤ epoch + p.epochsPerHistoricalVector := by
    rw [UInt64.le_iff_toNat_le, hLater]
    show 1 ≤ _
    omega
  have hBefore : 1 ≤ epoch + p.epochsPerHistoricalVector - minSeedLookahead := by
    rw [UInt64.le_iff_toNat_le, UInt64.toNat_sub_of_le _ _ hLookahead, hLater, hOne]
    show 1 ≤ _ - 1
    omega
  unfold seed
  rw [Word.add_eq_ok_of_lt hFits, ok_bind, Word.sub_eq_ok_of_le hLookahead, ok_bind,
    Word.sub_eq_ok_of_le hBefore, ok_bind]
  -- The mixes are kept in a ring, and no position of the ring is missing.
  have hIndex : ((epoch + p.epochsPerHistoricalVector - minSeedLookahead - 1) %
      p.epochsPerHistoricalVector).toNat < s.randaoMixes.size := by
    rw [hMixes, UInt64.toNat_mod]
    exact Nat.mod_lt _ (by omega)
  rw [randaoMix, Checked.getAt_eq_ok hIndex]
  exact ⟨_, rfl⟩

end BeaconState

end ForkChoice
