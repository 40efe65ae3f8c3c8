import ForkChoice.Chain.Signing
import ForkChoice.Proofs.Transition.Frame

/-!
# ForkChoice — what all states of a network share

Slots and blocks change the slot of a state, its latest header and its history of roots. The
registry, the randomness and the versions of the protocol remain those of genesis. Committees,
keys and signing roots are computed from what remains, so all states of a network agree on them,
on whichever branch they are and however many slots without a block lie between them. Which slot
a state has reached decides only whether it tells its committees at all: not for epochs that are
too far away.

* `BeaconState.SameNetwork` — states that differ only in what the rules change;
* `slotTransition_processSlots_sameNetwork`, `slotTransition_applyBlock_sameNetwork` — the rules;
* `BeaconState.committeeIn` — the members of a committee, `committeeIn_of_committee` — a state
  that tells them tells these;
* `SameNetwork.committee_unique`, `SameNetwork.signingRoot_eq`, `SameNetwork.readKey_eq` — what
  states of one network agree on.
-/

namespace ForkChoice

namespace Word

variable {a b c : UInt64}

theorem add_eq_ok : add a b = .ok c ↔ a.toNat + b.toNat = c.toNat := by
  unfold add
  split
  · rename_i hFits
    have hSum : (a + b).toNat = a.toNat + b.toNat := by
      rw [UInt64.toNat_add]
      exact Nat.mod_eq_of_lt hFits
    rw [Except.ok.injEq, ← hSum, UInt64.toNat_inj]
  · rename_i hExceeds
    have hc : c.toNat < UInt64.size := c.toNat_lt
    simp only [reduceCtorEq, false_iff]
    omega

theorem sub?_eq_some : sub? a b = some c ↔ b.toNat + c.toNat = a.toNat := by
  unfold sub?
  split
  · rename_i hLe
    have hDifference : (a - b).toNat = a.toNat - b.toNat := UInt64.toNat_sub_of_le a b hLe
    have hLeNat : b.toNat ≤ a.toNat := hLe
    rw [Option.some.injEq, ← UInt64.toNat_inj, hDifference]
    omega
  · rename_i hLess
    have hLessNat : a.toNat < b.toNat := UInt64.not_le.mp hLess
    simp only [reduceCtorEq, false_iff]
    omega

end Word

namespace BeaconState

variable {p : Preset} {config : Config} {s s' s'' : BeaconState}

/-- `s'` is a state of the same network as `s`: what the rules do not change is the same. -/
def SameNetwork (s s' : BeaconState) : Prop :=
  s' = { s with
    slot := s'.slot
    latestBlockHeader := s'.latestBlockHeader
    blockRoots := s'.blockRoots
    stateRoots := s'.stateRoots }

namespace SameNetwork

theorem refl (s : BeaconState) : SameNetwork s s :=
  rfl

theorem symm (h : SameNetwork s s') : SameNetwork s' s := by
  rw [h]
  rfl

theorem trans (h : SameNetwork s s') (h' : SameNetwork s' s'') : SameNetwork s s'' := by
  unfold SameNetwork at h'
  rw [h] at h'
  exact h'

end SameNetwork

theorem Aged.sameNetwork (h : s.Aged s') : s.SameNetwork s' := by
  rw [h]
  rfl

/-! ## The rules -/

section

variable [HashFunction]

theorem slotTransition_processSlots_sameNetwork {slot : Slot}
    (h : (slotTransition p).processSlots s slot = .ok s') : s.SameNetwork s' :=
  (processSlots_aged h).2.sameNetwork

/-- **Blocks** change no more than slots do: the block becomes the latest one, and nothing else
of it goes into the state. -/
theorem slotTransition_applyBlock_sameNetwork {b : Block}
    (h : (slotTransition p).applyBlock s b = .ok s') : s.SameNetwork s' := by
  obtain ⟨aged, header, hAged, -, -, -, rfl, -⟩ := exists_aged_of_applyBlock h
  exact hAged.sameNetwork.trans rfl

end

/-! ## Epochs -/

/-- The epoch that a state calls previous, current or next when it is asked for an epoch is this
epoch. -/
theorem absoluteEpoch_of_relativeEpoch {epoch : Epoch} {relative : RelativeEpoch}
    (h : s.relativeEpoch p epoch = .ok relative) : s.absoluteEpoch p relative = .ok epoch := by
  simp only [relativeEpoch, bind_eq_ok, Checked.liftM_eq, Checked.toOutcome_eq_ok] at h
  obtain ⟨next, hNext, h⟩ := h
  have hAdd := Word.add_eq_ok.mp hNext
  rw [UInt64.toNat_one] at hAdd
  -- How many epochs it is before the next one decides what it is called.
  split at h
  · exact absurd h Outcome.fail_ne_ok
  · -- It is the next one.
    rename_i hDistance
    cases h
    have hSame := Word.sub?_eq_some.mp hDistance
    have hEpoch : next = epoch := by
      rw [← UInt64.toNat_inj, ← hSame]
      rfl
    rw [absoluteEpoch, hNext, hEpoch]
  · -- One epoch before the next one.
    rename_i hDistance
    cases h
    have hSame := Word.sub?_eq_some.mp hDistance
    have hEpoch : s.currentEpoch p = epoch := by
      rw [← UInt64.toNat_inj]
      rw [UInt64.toNat_one] at hSame
      omega
    rw [absoluteEpoch, hEpoch]
  · -- Two epochs before the next one, so the current one is not the first.
    rename_i hDistance
    cases h
    have hSame := Word.sub?_eq_some.mp hDistance
    have hTwo : (2 : UInt64).toNat = 2 := rfl
    have hOne : (1 : UInt64) ≤ s.currentEpoch p := by
      rw [UInt64.le_iff_toNat_le, UInt64.toNat_one]
      omega
    have hEpoch : s.currentEpoch p - 1 = epoch := by
      rw [← UInt64.toNat_inj, UInt64.toNat_sub_of_le _ _ hOne, UInt64.toNat_one]
      omega
    rw [absoluteEpoch, previousEpoch, Word.satSub, if_pos hOne, hEpoch]
  · exact absurd h Outcome.fail_ne_ok

/-! ## Committees -/

section

variable [HashFunction]

/-- The members of a committee, which do not depend on the slot of the state. -/
def committeeIn (p : Preset) (s : BeaconState) (slot : Slot) (index : CommitteeIndex) :
    Outcome QueryError (List ValidatorIndex) := do
  let epoch := p.epochAt slot
  let indices := s.activeIndices epoch
  let perSlot := committeeCount p (UInt64.ofNat indices.length)
  if perSlot ≤ index then Outcome.fail (.committeeIndexOutOfBounds index perSlot)
  else if indices.isEmpty then Outcome.fail .noActiveValidators
  else
    let seed ← s.seed p epoch attesterDomain
    let committees ← Checked.product perSlot.toNat p.slotsPerEpoch.toNat
    let before ← Checked.product (p.slotsSinceEpochStart slot).toNat perSlot.toNat
    let number ← Checked.sum before index.toNat
    committeeMembers p seed indices.toArray number committees

theorem committee_eq_committeeIn {slot : Slot} {index : CommitteeIndex} {relative : RelativeEpoch}
    (h : s.relativeEpoch p (p.epochAt slot) = .ok relative) :
    s.committee p slot index = s.committeeIn p slot index := by
  have hEpoch := absoluteEpoch_of_relativeEpoch h
  have hPerSlot : s.committeesPerSlot p relative =
      .ok (committeeCount p (UInt64.ofNat (s.activeIndices (p.epochAt slot)).length)) := by
    rw [committeesPerSlot, hEpoch]
    rfl
  unfold committee
  dsimp only
  rw [h, ok_bind, hPerSlot, hEpoch]
  rfl

/-- **Committees.** The members of a committee that a state tells do not depend on its slot. -/
theorem committeeIn_of_committee {slot : Slot} {index : CommitteeIndex}
    {members : List ValidatorIndex} (h : s.committee p slot index = .ok members) :
    s.committeeIn p slot index = .ok members := by
  have hRelative : ∃ relative, s.relativeEpoch p (p.epochAt slot) = .ok relative := by
    unfold committee at h
    dsimp only at h
    obtain ⟨relative, hRelative, -⟩ := bind_eq_ok.mp h
    exact ⟨relative, hRelative⟩
  obtain ⟨relative, hRelative⟩ := hRelative
  rw [← committee_eq_committeeIn hRelative, h]

end

/-! ## What states of one network agree on -/

namespace SameNetwork

theorem committeeIn_eq [HashFunction] (h : SameNetwork s s') (slot : Slot)
    (index : CommitteeIndex) : s'.committeeIn p slot index = s.committeeIn p slot index := by
  rw [h]
  rfl

/-- Two states that tell a committee tell the same one. -/
theorem committee_unique [HashFunction] (h : SameNetwork s s') {slot : Slot}
    {index : CommitteeIndex} {members members' : List ValidatorIndex}
    (hMembers : s.committee p slot index = .ok members)
    (hMembers' : s'.committee p slot index = .ok members') : members = members' := by
  have hIn := committeeIn_of_committee hMembers
  have hIn' := committeeIn_of_committee hMembers'
  rw [h.committeeIn_eq, hIn] at hIn'
  exact Except.ok.inj hIn'

theorem signingRoot_eq [HashFunction] (h : SameNetwork s s') (data : AttestationData) :
    data.signingRoot p config s' = data.signingRoot p config s := by
  rw [h]
  rfl

theorem readKey_eq [SignatureScheme] (h : SameNetwork s s') (index : ValidatorIndex) :
    s'.readKey index = s.readKey index := by
  rw [h]
  rfl

end SameNetwork

end BeaconState

end ForkChoice
