import ForkChoice.Proofs.Chain.Committees
import ForkChoice.Proofs.Chain.Roots
import ForkChoice.Proofs.Transition.Composition

/-!
# ForkChoice — the rules do not fault

A transition reads the rings of a state at computed places, hashes its collections, and draws the
proposer of a slot. None of this can go wrong in a state whose rings are full, whose registry fits
into its tree, and in which all validators have the full balance: the places are reduced by the
length of the ring, the trees have room, and the first validator that is drawn is taken, since its
balance outweighs every random byte. Slots and blocks leave such a state such a state, so from one
that is, no sequence of them faults.

* `BeaconState.Complete` — such a state;
* `Complete.processSlots`, `Complete.applyBlock_faultless` — slots and blocks do not fault,
  `complete_keeps` — and keep the state complete;
* `Complete.proposer_faultless`, `Complete.indexed_faultless` — nor do the questions about it.
-/

namespace ForkChoice

namespace BeaconState

variable {p : Preset} {s s' : BeaconState} {slot : Slot} {b : Block}

/-- A state in which nothing is missing that a transition asks for. -/
structure Complete [HashFunction] (p : Preset) (s : BeaconState) : Prop where
  blockRoots_size : s.blockRoots.size = p.slotsPerHistoricalRoot.toNat
  stateRoots_size : s.stateRoots.size = p.slotsPerHistoricalRoot.toNat
  randaoMixes_size : s.randaoMixes.size = p.epochsPerHistoricalVector.toNat
  registry : s.validators.size ≤ 2 ^ 40
  weight : ∀ validator ∈ s.validators, validator.effectiveBalance = maxEffectiveBalance
  root : ∃ stateRoot, s.treeRoot p = .ok stateRoot

variable [HashFunction]

/-- Another state of the network is complete if its rings are full. -/
theorem Complete.of_sameNetwork (h : s.Complete p) (hSame : s.SameNetwork s')
    (hBlocks : s'.blockRoots.size = p.slotsPerHistoricalRoot.toNat)
    (hStates : s'.stateRoots.size = p.slotsPerHistoricalRoot.toNat) : s'.Complete p := by
  obtain ⟨stateRoot, hRoot⟩ := h.root
  exact {
    blockRoots_size := hBlocks
    stateRoots_size := hStates
    randaoMixes_size := by
      rw [hSame]
      exact h.randaoMixes_size
    registry := by
      rw [hSame]
      exact h.registry
    weight := by
      rw [hSame]
      exact h.weight
    root := treeRoot_defined hRoot (Nat.le_of_eq hBlocks) (Nat.le_of_eq hStates) hSame }

namespace Complete

/-! ## Slots -/

theorem intact (h : s.Complete p) : s.Intact p :=
  ⟨h.blockRoots_size, h.stateRoots_size, h.root⟩

/-- A later slot is reached. -/
theorem processSlots_defined (h : s.Complete p) (hLater : s.slot < slot) :
    ∃ s', (slotTransition p).processSlots s slot = .ok s' ∧ s'.Complete p := by
  obtain ⟨s', hDone, -, hIntact⟩ := h.intact.processSlots_defined hLater
  have hMoved : (slotTransition p).processSlots s slot = .ok s' :=
    congrArg Progress.toOutcome hDone
  exact ⟨s', hMoved, h.of_sameNetwork (slotTransition_processSlots_sameNetwork hMoved)
    hIntact.blockRoots_size hIntact.stateRoots_size⟩

theorem processSlots (h : s.Complete p) (slot : Slot) :
    ((slotTransition p).processSlots s slot).fault? = none ∧
      ∀ s', (slotTransition p).processSlots s slot = .ok s' → s'.Complete p := by
  by_cases hLater : s.slot < slot
  · obtain ⟨s', hMoved, hs'⟩ := h.processSlots_defined hLater
    rw [hMoved]
    refine ⟨rfl, fun s'' hOk => ?_⟩
    cases hOk
    exact hs'
  · -- A slot that is not later is an error of the domain.
    show (Progress.toOutcome (BeaconState.processSlots p s slot)).fault? = none ∧
      ∀ s', (BeaconState.processSlots p s slot).toOutcome = .ok s' → s'.Complete p
    rw [BeaconState.processSlots, if_pos (UInt64.not_lt.mp hLater)]
    exact ⟨rfl, fun s' hOk => absurd hOk Progress.toOutcome_failed_ne_ok⟩

/-! ## The proposer -/

omit [HashFunction] in
/-- The full balance outweighs every byte. -/
theorem full_outweighs (byte : UInt8) :
    maxEffectiveBalance * byte.toUInt64 ≤ 255 * maxEffectiveBalance := by
  have hByte : byte.toUInt64.toNat < 256 := by
    rw [UInt8.toNat_toUInt64]
    exact byte.toNat_lt
  have hFull : maxEffectiveBalance.toNat = 32000000000 := rfl
  have hProduct : (255 * maxEffectiveBalance).toNat = 255 * 32000000000 := rfl
  rw [UInt64.le_iff_toNat_le, UInt64.toNat_mul, hFull, hProduct, Nat.mod_eq_of_lt (by omega)]
  omega

/-- The first validator that is drawn proposes. -/
theorem proposerFrom_defined (h : s.Complete p) {epoch : Epoch} {seed : Root}
    (hSome : s.activeIndices epoch ≠ []) (fuel trial : Nat) :
    ∃ candidate, proposerFrom p s.validators (s.activeIndices epoch).toArray seed (fuel + 1) trial =
      .ok candidate := by
  have hLength : (s.activeIndices epoch).length ≤ 2 ^ 40 :=
    Nat.le_trans (s.length_activeIndices_le epoch) h.registry
  have hSize : UInt64.size = 2 ^ 64 := rfl
  have hPlace : trial % (s.activeIndices epoch).length < (s.activeIndices epoch).length :=
    Nat.mod_lt _ (List.length_pos_iff.mpr hSome)
  let drawn := shufflePerm p seed (s.activeIndices epoch).length ⟨_, hPlace⟩
  have hShuffled : shuffledIndex p seed (s.activeIndices epoch).length
      (trial % (s.activeIndices epoch).length) = .ok (drawn : Nat) :=
    shuffledIndex_eq (by omega) ⟨_, hPlace⟩
  have hCandidate : Checked.getAt (s.activeIndices epoch).toArray drawn =
      .ok (s.activeIndices epoch)[drawn.val] :=
    Checked.getAt_eq_ok drawn.isLt
  -- Who is drawn is active, and so in the registry, with the full balance.
  have hRegistry : s.validators.size ≤ UInt64.size := Nat.le_trans h.registry (by omega)
  obtain ⟨validator, hValidator, -⟩ :=
    (mem_activeIndices hRegistry).mp (List.getElem_mem drawn.isLt)
  have hWeight := h.weight validator (Array.mem_of_getElem? hValidator)
  have hTrial : Word.mul validator.effectiveBalance 255 = .ok (255 * maxEffectiveBalance) := by
    rw [hWeight]
    decide
  refine ⟨(s.activeIndices epoch)[drawn.val], ?_⟩
  rw [proposerFrom, List.size_toArray, hShuffled, ok_bind, hCandidate, ok_bind, hValidator]
  dsimp only
  rw [hTrial, ok_bind, if_pos (full_outweighs _)]
  rfl

/-- **The proposer** of a slot is drawn, or nobody is active. -/
theorem proposer_faultless (h : s.Complete p) : (s.proposer p).fault? = none := by
  obtain ⟨seed, hSeed⟩ : ∃ seed, s.seed p (s.currentEpoch p) proposerDomain = .ok seed :=
    seed_defined h.randaoMixes_size (p.epochAt_lt s.slot)
  unfold proposer
  dsimp only
  rw [hSeed]
  show (proposerIndex p s.validators (s.activeIndices (s.currentEpoch p))
    (hashRootWord seed s.slot)).fault? = none
  refine Outcome.guard_faultless fun hSome => ?_
  rw [List.isEmpty_iff] at hSome
  -- There is at least one trial.
  obtain ⟨fuel, hFuel⟩ : ∃ fuel, trialLimit = fuel + 1 := ⟨trialLimit - 1, by decide⟩
  obtain ⟨candidate, hCandidate⟩ := h.proposerFrom_defined hSome fuel 0
  rw [hFuel, hCandidate]
  rfl

/-! ## Blocks -/

theorem checkHeader_faultless (h : s.Complete p) (b : Block) :
    (s.checkHeader p b).fault? = none := by
  -- All that is computed between the comparisons is the proposer.
  refine Outcome.guard_faultless fun _ => Outcome.guard_faultless fun _ => ?_
  refine Outcome.bind_faultless ?_ fun computed _ => ?_
  · rw [Outcome.fault?_mapError]
    exact h.proposer_faultless
  · exact Outcome.guard_faultless fun _ => Outcome.guard_faultless fun _ => rfl

theorem processHeader_faultless (h : s.Complete p) {header : BlockHeader}
    (hHeader : b.header = .ok header) : (s.processHeader p b).toOutcome.fault? = none := by
  have hCheck := h.checkHeader_faultless b
  unfold processHeader
  rw [hHeader]
  cases hResult : s.checkHeader p b with
  | error failure =>
    rw [hResult] at hCheck
    exact hCheck
  | ok =>
    -- A slashed proposer is an error of the domain.
    dsimp only
    split <;> rfl

theorem checkStateRoot_faultless (h : s.Complete p) (b : Block) :
    (s.checkStateRoot p b).toOutcome.fault? = none := by
  obtain ⟨stateRoot, hRoot⟩ := h.root
  unfold checkStateRoot
  rw [hRoot]
  dsimp only
  split <;> rfl

/-- The header of a block takes nothing away from a state. -/
theorem withHeader (h : s.Complete p) (header : BlockHeader) :
    ({ s with latestBlockHeader := header } : BeaconState).Complete p :=
  h.of_sameNetwork rfl h.blockRoots_size h.stateRoots_size

/-- The slots in front of a block. -/
theorem beforeBlock (h : s.Complete p) (b : Block) {start : Progress}
    (hStart : start = if SlotPolicy.ifNeeded.applies s b then s.processSlots p b.slot else .done s) :
    start.toOutcome.fault? = none ∧ ∀ aged, start.toOutcome = .ok aged → aged.Complete p := by
  rw [hStart]
  split
  · exact h.processSlots b.slot
  · refine ⟨rfl, fun aged hOk => ?_⟩
    cases hOk
    exact h

/-- **Blocks** that have roots do not fault. -/
theorem applyBlock_faultless (h : s.Complete p) {header : BlockHeader}
    (hHeader : b.header = .ok header) :
    ((slotTransition p).applyBlock s b).fault? = none := by
  obtain ⟨hBefore, hAged⟩ := h.beforeBlock b rfl
  simp only [slotTransition, applyBlock, Progress.toOutcome_andThen]
  refine Outcome.bind_faultless (Outcome.bind_faultless hBefore ?_) ?_
  · intro aged hOk
    exact (hAged aged hOk).processHeader_faultless hHeader
  · intro filled hOk
    obtain ⟨aged, hSlots, hFilled⟩ := bind_eq_ok.mp hOk
    obtain ⟨-, -, header', -, rfl⟩ := processHeader_eq_ok.mp hFilled
    exact ((hAged aged hSlots).withHeader _).checkStateRoot_faultless b

end Complete

/-- **Nothing gets lost**: the rules make complete states of complete ones. -/
theorem complete_keeps (p : Preset) : (slotTransition p).Keeps (Complete p) where
  processSlots h hOk := (h.processSlots _).2 _ hOk
  applyBlock {s} {s'} {b} h hOk := by
    obtain ⟨aged, header, -, hAged, -, -, rfl, -⟩ := exists_aged_of_applyBlock hOk
    refine Complete.withHeader ?_ _
    rcases hAged with rfl | hSlots
    · exact h
    · exact (h.processSlots b.slot).2 aged hSlots

/-! ## Attestations -/

/-- **Participants.** Whatever an attestation says, a complete state tells who takes part in it, or
reports why it does not know. -/
theorem Complete.indexed_faultless (h : s.Complete p) (a : Attestation) :
    (s.indexed p a).fault? = none := by
  refine Outcome.bind_faultless (Outcome.bind_faultless ?_ ?_) fun indices _ => rfl
  · exact committee_faultless h.randaoMixes_size h.registry a.data.slot a.data.index
  · intro committee _
    exact Outcome.guard_faultless fun _ => rfl

end BeaconState

end ForkChoice
