import ForkChoice.Proofs.Outcome
import ForkChoice.Transition.Basic

/-!
# ForkChoice — what a transition does to a state

A state that moves on through slots changes its history and nothing else; a block that is applied
to it becomes the latest block besides. Two facts about blocks in a store come from here: slots
fall along the links, because the header of the parent has to be older than the block, and a block
has the state root of the state after it.

* `BeaconState.Aged` — a state after some slots;
* `processSlots_aged` — slots do no more than that;
* `processHeader_eq_ok`, `checkStateRoot_eq_ok` — the two other parts of a block;
* `exists_aged_of_applyBlock` — a block taken apart, `slotTransition_applyBlock` — what is known of
  the state after it;
* `StateTransition.Keeps` — a property of states that the rules keep.
-/

namespace ForkChoice

namespace Progress

/-- Operations one after another succeed if both do. -/
theorem toOutcome_andThen (first : Progress) (next : BeaconState → Progress) :
    (first.andThen next).toOutcome = first.toOutcome >>= fun s => (next s).toOutcome := by
  obtain ⟨s, result⟩ := first
  cases result <;> rfl

@[simp] theorem toOutcome_done (s : BeaconState) : (done s).toOutcome = .ok s :=
  rfl

@[simp] theorem toOutcome_failed_ne_ok {s s' : BeaconState} {reason : TransitionError} :
    (failed s reason).toOutcome ≠ .ok s' :=
  nofun

@[simp] theorem toOutcome_ofChecked {s s' : BeaconState} {c : Checked BeaconState} :
    (ofChecked s c).toOutcome = .ok s' ↔ c = .ok s' := by
  cases c <;> simp [ofChecked, done, toOutcome]

end Progress

namespace BeaconState

variable {p : Preset} {s s' : BeaconState} {b : Block} {slot : Slot}

/-! ## Slots -/

/-- `s'` is `s` after some slots: the slot and the history of roots may be other ones, and the
state root of the latest block may be filled in. -/
def Aged (s s' : BeaconState) : Prop :=
  s' = { s with
    slot := s'.slot
    stateRoots := s'.stateRoots
    blockRoots := s'.blockRoots
    latestBlockHeader :=
      { s.latestBlockHeader with stateRoot := s'.latestBlockHeader.stateRoot } }

namespace Aged

theorem refl (s : BeaconState) : Aged s s :=
  rfl

theorem trans {s'' : BeaconState} (h : Aged s s') (h' : Aged s' s'') : Aged s s'' := by
  unfold Aged at h'
  rw [h] at h'
  exact h'

theorem headerSlot (h : Aged s s') : s'.latestBlockHeader.slot = s.latestBlockHeader.slot := by
  rw [h]

theorem currentJustified (h : Aged s s') : s'.currentJustified = s.currentJustified := by
  rw [h]

theorem finalized (h : Aged s s') : s'.finalized = s.finalized := by
  rw [h]

end Aged

variable [HashFunction]

theorem processSlot_aged (h : s.processSlot p = .ok s') : s.Aged s' := by
  simp only [processSlot, bind_eq_ok, pure_eq_ok] at h
  obtain ⟨stateRoot, -, stateRoots, -, blockRoots, -, rfl⟩ := h
  unfold Aged
  split <;> rfl

theorem advanceBy_aged {count : Nat} (h : advanceBy p count s = .ok s') : s.Aged s' := by
  induction count generalizing s with
  | zero =>
    cases h
    exact Aged.refl _
  | succ count ih =>
    rw [advanceBy, bind_eq_ok] at h
    obtain ⟨first, hFirst, hRest⟩ := h
    -- The slot itself is one of the fields that may change.
    have hNext : first.Aged { first with slot := first.slot + 1 } := rfl
    exact (processSlot_aged hFirst).trans (hNext.trans (ih hRest))

/-- **Slots.** Time moves forward only, and it changes nothing but the history. -/
theorem processSlots_aged (h : (s.processSlots p slot).toOutcome = .ok s') :
    s.slot < slot ∧ s.Aged s' := by
  unfold processSlots at h
  split at h
  · exact absurd h Progress.toOutcome_failed_ne_ok
  · rename_i hLater
    rw [Progress.toOutcome_ofChecked] at h
    exact ⟨UInt64.not_le.mp hLater, advanceBy_aged h⟩

/-! ## Blocks -/

theorem checkHeader_eq_ok :
    s.checkHeader p b = .ok () ↔
      b.slot = s.slot ∧ s.latestBlockHeader.slot < b.slot ∧
        s.proposer p = .ok b.proposerIndex ∧ b.parentRoot = s.latestBlockHeader.treeRoot := by
  simp only [checkHeader, Outcome.guard_eq_ok, bind_eq_ok, Outcome.mapError_eq_ok,
    pure_eq_ok, and_true, Classical.not_not, UInt64.not_le, ne_eq]
  constructor
  · rintro ⟨hSlot, hLater, proposer, hProposer, hIndex, hParent⟩
    exact ⟨hSlot, hLater, hIndex ▸ hProposer, hParent⟩
  · rintro ⟨hSlot, hLater, hProposer, hParent⟩
    exact ⟨hSlot, hLater, _, hProposer, rfl, hParent⟩

/-- A block becomes the latest one if it passes the checks and its proposer is not slashed. -/
theorem processHeader_eq_ok :
    (s.processHeader p b).toOutcome = .ok s' ↔
      s.checkHeader p b = .ok () ∧ s.isSlashed b.proposerIndex = false ∧
        ∃ header, b.header = .ok header ∧
          s' = { s with latestBlockHeader := { header with stateRoot := 0 } } := by
  unfold processHeader
  cases s.checkHeader p b with
  | error failure => simp [Progress.toOutcome]
  | ok =>
    cases b.header with
    | error reason => simp [Progress.toOutcome]
    | ok header =>
      dsimp only
      -- Whether the proposer is slashed is asked after the header has been stored.
      have hSlashed : isSlashed { s with latestBlockHeader := { header with stateRoot := 0 } }
          b.proposerIndex = s.isSlashed b.proposerIndex := rfl
      rw [hSlashed]
      cases s.isSlashed b.proposerIndex with
      | true => simp
      | false => simp [@eq_comm _ _ s']

theorem checkStateRoot_eq_ok :
    (s.checkStateRoot p b).toOutcome = .ok s' ↔ s' = s ∧ s.treeRoot p = .ok b.stateRoot := by
  unfold checkStateRoot
  cases s.treeRoot p with
  | error reason => simp [Progress.toOutcome]
  | ok computed =>
    by_cases h : computed = b.stateRoot
    · simp [h, @eq_comm _ s']
    · simp [h]

theorem slot_of_header {header : BlockHeader} (h : b.header = .ok header) :
    header.slot = b.slot := by
  simp only [Block.header, bind_eq_ok, pure_eq_ok] at h
  obtain ⟨bodyRoot, -, rfl⟩ := h
  rfl

/-- The state after a block is that before it, moved on to the slot of the block, with the header
of the block, in which the state root is missing. -/
theorem exists_aged_of_applyBlock (h : (slotTransition p).applyBlock s b = .ok s') :
    ∃ aged header, s.Aged aged ∧ (aged = s ∨ (slotTransition p).processSlots s b.slot = .ok aged) ∧
      aged.checkHeader p b = .ok () ∧ b.header = .ok header ∧
        s' = { aged with latestBlockHeader := { header with stateRoot := 0 } } ∧
          s'.treeRoot p = .ok b.stateRoot := by
  simp only [slotTransition, applyBlock, Progress.toOutcome_andThen, bind_eq_ok] at h
  obtain ⟨filled, ⟨aged, hSlots, hHeader⟩, hRoot⟩ := h
  obtain ⟨hCheck, -, header, hSome, rfl⟩ := processHeader_eq_ok.mp hHeader
  obtain ⟨rfl, hStateRoot⟩ := checkStateRoot_eq_ok.mp hRoot
  -- Whether slots had to pass decides how the block has come to its slot.
  split at hSlots
  · have hAged := (processSlots_aged hSlots).2
    exact ⟨aged, header, hAged, Or.inr hSlots, hCheck, hSome, rfl, hStateRoot⟩
  · cases hSlots
    exact ⟨s, header, Aged.refl s, Or.inl rfl, hCheck, hSome, rfl, hStateRoot⟩

/-- What is known of the state after a block. -/
structure After (p : Preset) (s : BeaconState) (b : Block) (s' : BeaconState) : Prop where
  slot : s'.slot = b.slot
  /-- The block is newer than the latest one before it. -/
  later : s.latestBlockHeader.slot < b.slot
  headerSlot : s'.latestBlockHeader.slot = b.slot
  stateRoot : s'.treeRoot p = .ok b.stateRoot
  currentJustified : s'.currentJustified = s.currentJustified
  finalized : s'.finalized = s.finalized

/-- **Blocks.** A block is applied only to a state whose latest block is older, whether or not
slots have to pass before it, and it has the root of the state after it. -/
theorem slotTransition_applyBlock (h : (slotTransition p).applyBlock s b = .ok s') :
    After p s b s' := by
  obtain ⟨aged, header, hAged, -, hCheck, hSome, rfl, hStateRoot⟩ := exists_aged_of_applyBlock h
  -- The check of the header is against the latest block of the aged state, which kept its slot.
  obtain ⟨hSlot, hLater, -, -⟩ := checkHeader_eq_ok.mp hCheck
  have hNewest : header.slot = b.slot := slot_of_header hSome
  exact {
    slot := hSlot.symm
    later := hAged.headerSlot ▸ hLater
    headerSlot := hNewest
    stateRoot := hStateRoot
    currentJustified := hAged.currentJustified
    finalized := hAged.finalized }

end BeaconState

/-! ## What the rules keep -/

/-- What a state has is had by the states that the rules make of it. -/
structure StateTransition.Keeps (t : StateTransition) (P : BeaconState → Prop) : Prop where
  processSlots : ∀ {s s' : BeaconState} {slot : Slot}, P s → t.processSlots s slot = .ok s' → P s'
  applyBlock : ∀ {s s' : BeaconState} {b : Block}, P s → t.applyBlock s b = .ok s' → P s'

end ForkChoice
