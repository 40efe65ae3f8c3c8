import ForkChoice.Proofs.Faults
import ForkChoice.Proofs.Store.Genesis
import ForkChoice.Proofs.Transition.Memory

/-!
# ForkChoice — moving on in several steps

A slot that passes looks only at the state that the slot before it has left. So it does not matter
whether a state moves on at once or stops on the way, and a state that has been moved on beforehand,
be it a part of the way to a block or all of it, takes the block as if it had not been. This is
what makes it safe to keep states that have been moved on in advance. Operations are compared with
all that they leave behind, which is a state also where an error is reported; only a fault leaves
none.

* `Progress.Agrees` — two operations come to the same;
* `BeaconState.advanceBy_add` — slots one after another;
* `BeaconState.Intact` — a state that can move on, `Intact.processSlots` — it does;
* `BeaconState.processSlots_andThen`, `BeaconState.processSlots_andThen_applyBlock` — slots and then
  slots, slots and then a block;
* `BeaconState.PassesSteadily`, `passesSteadily` — what is known of states that move on.
-/

namespace ForkChoice

/-! ## Operations that come to the same -/

namespace Progress

variable {x y : Progress} {f g : BeaconState → Progress}

/-- Both operations have the same result and leave the same state, or both end with the same fault,
which leaves no state to anybody. -/
def Agrees (x y : Progress) : Prop :=
  x = y ∨ ∃ reason, x.result = .error (.fault reason) ∧ y.result = .error (.fault reason)

theorem Agrees.refl (x : Progress) : Agrees x x :=
  Or.inl rfl

theorem Agrees.toOutcome_eq (h : Agrees x y) : x.toOutcome = y.toOutcome := by
  rcases h with rfl | ⟨reason, hx, hy⟩
  · rfl
  · rw [toOutcome, toOutcome, hx, hy]

/-- Where there is no fault, the two operations are the same. -/
theorem Agrees.eq (h : Agrees x y) (hFaultless : y.toOutcome.fault? = none) : x = y := by
  rcases h with rfl | ⟨reason, -, hy⟩
  · rfl
  · rw [toOutcome, hy] at hFaultless
    exact absurd hFaultless (by simp [Failure.fault?])

theorem andThen_of_error {failure : Failure TransitionError} (h : x.result = .error failure) :
    x.andThen f = x := by
  rw [andThen, h]

theorem andThen_of_ok (h : x.result = .ok ()) : x.andThen f = f x.state := by
  rw [andThen, h]

/-- What comes after operations that come to the same comes to the same. -/
theorem Agrees.andThen (h : Agrees x y) : Agrees (x.andThen f) (y.andThen f) := by
  rcases h with rfl | ⟨reason, hx, hy⟩
  · exact Agrees.refl _
  · rw [andThen_of_error hx, andThen_of_error hy]
    exact Or.inr ⟨reason, hx, hy⟩

theorem andThen_congr (h : x.result = .ok () → f x.state = g x.state) :
    x.andThen f = x.andThen g := by
  cases hResult : x.result with
  | error failure => rw [andThen_of_error hResult, andThen_of_error hResult]
  | ok => rw [andThen_of_ok hResult, andThen_of_ok hResult, h hResult]

theorem andThen_done : x.andThen done = x := by
  obtain ⟨s, _ | _⟩ := x <;> rfl

theorem andThen_assoc : (x.andThen f).andThen g = x.andThen fun s => (f s).andThen g := by
  cases hResult : x.result with
  | error failure =>
    rw [andThen_of_error hResult, andThen_of_error hResult, andThen_of_error hResult]
  | ok => rw [andThen_of_ok hResult, andThen_of_ok hResult]

/-- The state from which a computation has started is left only if it faults. -/
theorem ofChecked_agrees (s s' : BeaconState) (c : Checked BeaconState) :
    Agrees (ofChecked s c) (ofChecked s' c) := by
  cases c with
  | error reason => exact Or.inr ⟨reason, rfl, rfl⟩
  | ok s => exact Agrees.refl _

end Progress

namespace BeaconState

variable [HashFunction] {p : Preset} {s s' : BeaconState} {b : Block} {slot a c k : Slot}

/-! ## Slots one after another -/

/-- Some slots, and then some more. -/
theorem advanceBy_add (m n : Nat) :
    advanceBy p (m + n) s = advanceBy p m s >>= advanceBy p n := by
  -- The slots that come first are the ones that are taken off.
  induction m generalizing s with
  | zero => rw [Nat.zero_add]; rfl
  | succ m ih =>
    rw [Nat.succ_add, advanceBy, advanceBy, bind_assoc]
    exact bind_congr fun first => ih

theorem processSlot_slot (h : s.processSlot p = .ok s') : s'.slot = s.slot := by
  simp only [processSlot, bind_eq_ok, pure_eq_ok] at h
  obtain ⟨stateRoot, -, stateRoots, -, blockRoots, -, rfl⟩ := h
  rfl

theorem advanceBy_slot {count : Nat} (h : advanceBy p count s = .ok s') :
    s'.slot = s.slot + UInt64.ofNat count := by
  induction count generalizing s with
  | zero =>
    cases h
    simp
  | succ count ih =>
    rw [advanceBy, bind_eq_ok] at h
    obtain ⟨first, hFirst, hRest⟩ := h
    have hEnd : s'.slot = first.slot + 1 + UInt64.ofNat count := ih hRest
    rw [hEnd, processSlot_slot hFirst, UInt64.add_assoc, UInt64.add_comm 1, UInt64.ofNat_add]
    rfl

theorem processSlots_of_later (h : s.slot < slot) :
    s.processSlots p slot = .ofChecked s (advanceBy p (slot - s.slot).toNat s) :=
  if_neg (UInt64.not_le.mpr h)

/-- A state that moves on to a slot is in this slot then. -/
theorem processSlots_slot (h : (s.processSlots p slot).result = .ok ()) :
    (s.processSlots p slot).state.slot = slot := by
  have hOk : (s.processSlots p slot).toOutcome = .ok (s.processSlots p slot).state := by
    rw [Progress.toOutcome, h]
  have hLater := (processSlots_aged hOk).1
  rw [processSlots_of_later hLater] at hOk ⊢
  rw [advanceBy_slot (Progress.toOutcome_ofChecked.mp hOk), UInt64.ofNat_toNat, UInt64.add_comm,
    UInt64.sub_add_cancel]

/-- **Slots** on the way to later slots. -/
theorem processSlots_andThen (ha : s.slot < a) (hc : a < c) :
    ((s.processSlots p a).andThen (·.processSlots p c)).Agrees (s.processSlots p c) := by
  have hCount : (c - s.slot).toNat = (a - s.slot).toNat + (c - a).toNat := by
    rw [UInt64.toNat_sub_of_le _ _ (UInt64.le_of_lt (UInt64.lt_trans ha hc)),
      UInt64.toNat_sub_of_le _ _ (UInt64.le_of_lt ha),
      UInt64.toNat_sub_of_le _ _ (UInt64.le_of_lt hc)]
    rw [UInt64.lt_iff_toNat_lt] at ha hc
    omega
  have hReached : (s.processSlots p a).result = .ok () → (s.processSlots p a).state.slot = a :=
    processSlots_slot
  rw [processSlots_of_later (UInt64.lt_trans ha hc), hCount, advanceBy_add]
  rw [processSlots_of_later ha] at hReached ⊢
  cases hFirst : advanceBy p (a - s.slot).toNat s with
  | error reason => exact Progress.Agrees.refl _
  | ok moved =>
    rw [hFirst] at hReached
    have hSlot : moved.slot = a := hReached rfl
    -- What is left of the way is counted from where the first part has ended.
    show Progress.Agrees (moved.processSlots p c) (.ofChecked s (advanceBy p (c - a).toNat moved))
    rw [processSlots_of_later (hSlot ▸ hc), hSlot]
    exact Progress.ofChecked_agrees _ _ _

omit [HashFunction] in
theorem applies_of_later (h : s.slot < b.slot) : SlotPolicy.ifNeeded.applies s b = true :=
  decide_eq_true (UInt64.ne_of_lt h)

/-- **Slots** on the way to a block. -/
theorem processSlots_andThen_applyBlock (hk : s.slot < k) (hb : k ≤ b.slot) :
    ((s.processSlots p k).andThen (·.applyBlock p b .ifNeeded false)).Agrees
      (s.applyBlock p b .ifNeeded false) := by
  have hNeeded : SlotPolicy.ifNeeded.applies s b = true :=
    applies_of_later (UInt64.lt_of_lt_of_le hk hb)
  -- Both ways differ only in how they get to the slot of the block.
  suffices hStart : ((s.processSlots p k).andThen fun moved =>
      if SlotPolicy.ifNeeded.applies moved b then moved.processSlots p b.slot
      else .done moved).Agrees (s.processSlots p b.slot) by
    unfold applyBlock
    simp only [hNeeded, if_true, ← Progress.andThen_assoc]
    exact hStart.andThen.andThen
  by_cases hThere : k = b.slot
  · -- The state is at the slot of the block already.
    subst hThere
    rw [Progress.andThen_congr (g := Progress.done) fun hOk => ?_, Progress.andThen_done]
    · exact Progress.Agrees.refl _
    · exact if_neg (by simpa [SlotPolicy.applies] using processSlots_slot hOk)
  · -- Some slots are left for the block.
    rw [Progress.andThen_congr (g := (·.processSlots p b.slot)) fun hOk => ?_]
    · exact processSlots_andThen hk (UInt64.lt_of_le_of_ne hb hThere)
    · refine if_pos (decide_eq_true ?_)
      rw [processSlots_slot hOk]
      exact hThere

/-! ## States that can move on -/

/-- The rings of the state are full, and it has a root. -/
structure Intact (p : Preset) (s : BeaconState) : Prop where
  blockRoots_size : s.blockRoots.size = p.slotsPerHistoricalRoot.toNat
  stateRoots_size : s.stateRoots.size = p.slotsPerHistoricalRoot.toNat
  root : ∃ stateRoot, s.treeRoot p = .ok stateRoot

namespace Intact

/-- What remains of a state that loses no entry of its rings is intact. -/
theorem of_sameNetwork (h : s.Intact p) (hSame : s.SameNetwork s')
    (hBlocks : s'.blockRoots.size = s.blockRoots.size)
    (hStates : s'.stateRoots.size = s.stateRoots.size) : s'.Intact p := by
  rw [h.blockRoots_size] at hBlocks
  rw [h.stateRoots_size] at hStates
  obtain ⟨stateRoot, hRoot⟩ := h.root
  exact ⟨hBlocks, hStates,
    treeRoot_defined hRoot (Nat.le_of_eq hBlocks) (Nat.le_of_eq hStates) hSame⟩

theorem processSlot (h : s.Intact p) : ∃ s', s.processSlot p = .ok s' ∧ s'.Intact p := by
  obtain ⟨stateRoot, hRoot⟩ := h.root
  have hSlot := processSlot_eq hRoot h.blockRoots_size h.stateRoots_size
  exact ⟨_, hSlot, h.of_sameNetwork (processSlot_aged hSlot).sameNetwork
    Array.size_setIfInBounds Array.size_setIfInBounds⟩

/-- **Slots**, however many, do not fault. -/
theorem advanceBy (h : s.Intact p) (count : Nat) :
    ∃ s', BeaconState.advanceBy p count s = .ok s' ∧ s'.Intact p := by
  -- What carries the induction is that each slot leaves an intact state for the next one.
  induction count generalizing s with
  | zero => exact ⟨s, rfl, h⟩
  | succ count ih =>
    obtain ⟨first, hFirst, hIntact⟩ := h.processSlot
    have hNext : ({ first with slot := first.slot + 1 } : BeaconState).Intact p :=
      hIntact.of_sameNetwork rfl rfl rfl
    obtain ⟨s', hRest, hs'⟩ := ih hNext
    refine ⟨s', ?_, hs'⟩
    rw [BeaconState.advanceBy, hFirst]
    exact hRest

/-- A later slot is reached. -/
theorem processSlots_defined (h : s.Intact p) (hLater : s.slot < slot) :
    ∃ s', s.processSlots p slot = .done s' ∧ s'.slot = slot ∧ s'.Intact p := by
  obtain ⟨s', hMoved, hs'⟩ := h.advanceBy (slot - s.slot).toNat
  have hDone : s.processSlots p slot = .done s' := by
    rw [processSlots_of_later hLater, hMoved]
    rfl
  have hSlot : (s.processSlots p slot).state.slot = slot := processSlots_slot (by rw [hDone]; rfl)
  rw [hDone] at hSlot
  exact ⟨s', hDone, hSlot, hs'⟩

end Intact

/-! ## What is left alone -/

/-- Slots leave a state of the same network behind, also where they are not later. -/
theorem sameNetwork_processSlots (p : Preset) (s : BeaconState) (slot : Slot) :
    s.SameNetwork (s.processSlots p slot).state := by
  unfold processSlots
  split
  · exact SameNetwork.refl s
  · cases hMoved : advanceBy p (slot - s.slot).toNat s with
    | error reason => exact SameNetwork.refl s
    | ok moved => exact (advanceBy_aged hMoved).sameNetwork

omit [HashFunction] in
theorem SameNetwork.andThen {x : Progress} {f : BeaconState → Progress}
    (h : s.SameNetwork x.state) (hNext : ∀ moved : BeaconState, moved.SameNetwork (f moved).state) :
    s.SameNetwork (x.andThen f).state := by
  cases hResult : x.result with
  | error failure => rwa [Progress.andThen_of_error hResult]
  | ok =>
    rw [Progress.andThen_of_ok hResult]
    exact h.trans (hNext x.state)

theorem sameNetwork_processHeader (p : Preset) (s : BeaconState) (b : Block) :
    s.SameNetwork (s.processHeader p b).state := by
  unfold processHeader
  split
  · exact SameNetwork.refl s
  · split
    · exact SameNetwork.refl s
    · -- A slashed proposer is found out after the header has been stored.
      dsimp only
      split <;> rfl

theorem sameNetwork_checkStateRoot (p : Preset) (s : BeaconState) (b : Block) :
    s.SameNetwork (s.checkStateRoot p b).state := by
  unfold checkStateRoot
  split
  · exact SameNetwork.refl s
  · split <;> exact SameNetwork.refl s

/-- So do blocks, those included that are not accepted. -/
theorem sameNetwork_applyBlock (p : Preset) (s : BeaconState) (b : Block) (policy : SlotPolicy)
    (trust : Bool) : s.SameNetwork (s.applyBlock p b policy trust).state := by
  refine SameNetwork.andThen (SameNetwork.andThen ?_ fun moved => ?_) fun moved => ?_
  · split
    · exact sameNetwork_processSlots p s b.slot
    · exact SameNetwork.refl s
  · exact sameNetwork_processHeader p moved b
  · split
    · exact SameNetwork.refl moved
    · exact sameNetwork_checkStateRoot p moved b

/-! ## At once or in several steps -/

/-- What is known of a state that moves on. -/
structure PassesSteadily (p : Preset) (s : BeaconState) : Prop where
  /-- A stop on the way to a later slot makes no difference. -/
  slots : ∀ {a c}, s.slot < a → a < c →
    ((slotTransition p).processSlots s a >>= fun moved => (slotTransition p).processSlots moved c) =
      (slotTransition p).processSlots s c
  /-- Neither does a stop on the way to a block, be the block accepted or not. -/
  block : ∀ {b k}, s.slot < k → k ≤ b.slot →
    ((slotTransition p).processSlots s k >>= fun moved => (slotTransition p).applyBlock moved b) =
      (slotTransition p).applyBlock s b
  /-- The state that is left is the same, too, where no fault takes it away. -/
  left : ∀ {b k}, s.slot < k → k ≤ b.slot → ((slotTransition p).applyBlock s b).fault? = none →
    ((s.processSlots p k).andThen (·.applyBlock p b .ifNeeded false)).state =
      (s.applyBlock p b .ifNeeded false).state
  /-- Later slots are reached. -/
  reaches : s.Intact p → ∀ {a}, s.slot < a →
    ∃ moved, (slotTransition p).processSlots s a = .ok moved ∧ moved.slot = a ∧ moved.Intact p
  /-- Slots leave everything alone but the slot, the latest header and the history, and so do
  blocks. -/
  slots_left : ∀ a, s.SameNetwork (s.processSlots p a).state
  block_left : ∀ b, s.SameNetwork (s.applyBlock p b .ifNeeded false).state

/-- **Composition.** Slots may be processed in any number of steps, and in advance of a block. -/
theorem passesSteadily (p : Preset) (s : BeaconState) : s.PassesSteadily p where
  slots ha hc := by
    have hSame := (processSlots_andThen (p := p) ha hc).toOutcome_eq
    rwa [Progress.toOutcome_andThen] at hSame
  block hk hb := by
    have hSame := (processSlots_andThen_applyBlock (p := p) hk hb).toOutcome_eq
    rwa [Progress.toOutcome_andThen] at hSame
  left hk hb hFaultless := by
    rw [(processSlots_andThen_applyBlock (p := p) hk hb).eq hFaultless]
  reaches h a ha := by
    obtain ⟨moved, hDone, hSlot, hIntact⟩ := h.processSlots_defined ha
    exact ⟨moved, congrArg Progress.toOutcome hDone, hSlot, hIntact⟩
  slots_left := sameNetwork_processSlots p s
  block_left b := sameNetwork_applyBlock p s b .ifNeeded false

omit [HashFunction] in
/-- The state of a new network may pass an empty slot before the first block comes. -/
theorem passesSteadily_genesis :
    letI : HashFunction := Engine.linearHash
    ∃ (n : Engine.ForkedNetwork) (moved after : BeaconState),
      Engine.forkedNetwork = some n ∧ n.state.PassesSteadily .minimal ∧ n.state.Intact .minimal ∧
        n.state.slot = 0 ∧ n.late.slot = 2 ∧
          (slotTransition .minimal).processSlots n.state 1 = .ok moved ∧
            (slotTransition .minimal).applyBlock n.state n.late = .ok after ∧
              (slotTransition .minimal).applyBlock moved n.late = .ok after := by
  let : HashFunction := Engine.linearHash
  have hRuns : (Engine.forkedNetwork.any fun n =>
      decide (n.state.slot = 0) && decide (n.late.slot = 2) &&
        decide (n.state.blockRoots.size = Preset.minimal.slotsPerHistoricalRoot.toNat) &&
          decide (n.state.stateRoots.size = Preset.minimal.slotsPerHistoricalRoot.toNat) &&
            (n.state.treeRoot .minimal).toOption.isSome &&
              ((slotTransition .minimal).applyBlock n.state n.late).toOption.isSome) = true := by
    decide +kernel
  simp only [Option.any_eq_true, Bool.and_eq_true, decide_eq_true_eq, Engine.toOption_eq_some,
    Option.isSome_iff_exists] at hRuns
  obtain ⟨n, hNetwork, ⟨⟨⟨⟨hStart, hSlot⟩, hBlocks⟩, hStates⟩, hRoot⟩, after, hAfter⟩ := hRuns
  have hIntact : n.state.Intact .minimal := ⟨hBlocks, hStates, hRoot⟩
  have hSteady := passesSteadily .minimal n.state
  have hOne : n.state.slot < 1 := hStart ▸ by decide
  obtain ⟨moved, hMoved, -⟩ := hSteady.reaches hIntact hOne
  refine ⟨n, moved, after, hNetwork, hSteady, hIntact, hStart, hSlot, hMoved, hAfter, ?_⟩
  have hSame := hSteady.block hOne (b := n.late) (hSlot ▸ by decide)
  rw [hMoved, hAfter] at hSame
  exact hSame

end BeaconState

end ForkChoice
