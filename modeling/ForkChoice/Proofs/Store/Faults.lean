import ForkChoice.Proofs.Store.Interruption
import ForkChoice.Proofs.Store.Lineage
import ForkChoice.Proofs.Store.States
import ForkChoice.Proofs.Transition.Faults

/-!
# ForkChoice — which requests end with a fault

The rules do not fault at a complete state, and all states of a store are complete if the first one
is. What is left are the computations of the store itself, and there are three that can go wrong.
The root of a block is computed before anything is checked, and a block with too many attestations
has none. The greatest distance that a state may be moved is added to the slot of the state, both
for a block and for the target of an attestation, and may not fit into a word. And one is added to
the slot of an attestation, which may be the greatest word. Nothing else that a request says, and
nothing that has been done before, makes a request fault.

* `StoreView.Faulty` — the requests that fault, and how;
* `Draft.fault?` — the fault with which a request ends;
* `faults_of_requests` — the requests that fault are these, and none but crowded blocks while there
  is room for the slots ahead.
-/

namespace ForkChoice

open StoreView Outcome

theorem Word.add_eq_error {a b : UInt64} {fault : Fault} :
    Word.add a b = .error fault ↔ UInt64.size ≤ a.toNat + b.toNat ∧ fault = .addOverflow := by
  unfold Word.add
  split
  · rename_i hFits
    simp [Nat.not_le.mpr hFits]
  · rename_i hExceeds
    simp [Nat.not_lt.mp hExceeds, eq_comm]

/-! ## Blocks -/

namespace StoreView

variable {v : StoreView} {b : Block} {root : Root} {parentState : BeaconState} {fault : Fault}

theorem ancestor_faultless (v : StoreView) (root : Root) (slot : Slot) :
    (v.ancestor root slot).fault? = none := by
  unfold ancestor
  split <;> rfl

/-- A new block that passes all checks before that of its distance from its parent, while the
greatest distance leads beyond the greatest slot. -/
structure LacksRoom [HashFunction] (v : StoreView) (b : Block) (root : Root)
    (parentState : BeaconState) : Prop where
  root_eq : b.treeRoot = .ok root
  fresh : v.block? root = none
  parent : v.state? b.parentRoot = some parentState
  arrived : b.slot ≤ v.currentSlot
  later : v.finalizedSlot < b.slot
  descends : v.ancestor b.parentRoot v.finalizedSlot = .ok (some v.finalized.root)
  exceeds : UInt64.size ≤ parentState.slot.toNat + v.limits.maxEmptySlots.toNat

variable [HashFunction]

/-- **Admission** faults for want of a root or of room. -/
theorem admitBlock_fault? :
    (v.admitBlock b).fault? = some fault ↔
      b.treeRoot = .error fault ∨
        fault = .addOverflow ∧ ∃ root parentState, v.LacksRoom b root parentState := by
  simp only [admitBlock, fault?_bind, Checked.liftM_eq, fault?_toOutcome, Checked.toOutcome_eq_ok]
  refine or_congr_right ⟨?_, ?_⟩
  · rintro ⟨root, hRoot, h⟩
    by_cases hKnown : v.containsBlock root
    · simp [hKnown] at h
    rw [if_neg hKnown] at h
    cases hParent : v.state? b.parentRoot with
    | none => simp [hParent] at h
    | some parentState =>
      simp only [hParent, fault?_guard, fault?_bind, ancestor_faultless, fault?_toOutcome,
        reduceCtorEq, false_or, Checked.toOutcome_eq_ok, fault?_pure, and_false, exists_false,
        or_false, Word.add_eq_error] at h
      obtain ⟨hArrived, hLater, ancestor, hAncestor, hDescends, hExceeds, rfl⟩ := h
      refine ⟨rfl, root, parentState, ⟨hRoot, ?_, hParent, UInt64.not_lt.mp hArrived,
        UInt64.not_le.mp hLater, ?_, hExceeds⟩⟩
      · simpa [containsBlock] using hKnown
      · rw [hAncestor, Classical.not_not.mp hDescends]
  · rintro ⟨rfl, root, parentState, h⟩
    refine ⟨root, h.root_eq, ?_⟩
    rw [if_neg (by simp [containsBlock, h.fresh])]
    simp only [h.parent, fault?_guard, fault?_bind, fault?_toOutcome, Word.add_eq_error]
    -- All checks pass up to the sum, which overflows.
    exact ⟨UInt64.not_lt.mpr h.arrived, UInt64.not_le.mpr h.later, Or.inr ⟨_, h.descends, by simp,
      Or.inl ⟨h.exceeds, trivial⟩⟩⟩

end StoreView

namespace Draft

variable {t : StateTransition} {d : Draft} {fault : Fault}

/-- **Checkpoints.** Walks may be too long, but they do not fault. -/
theorem updateCheckpoints_faultless (d : Draft) (state : BeaconState) :
    fault? (d.updateCheckpoints state).1 = none := by
  rcases hEnd : d.updateCheckpoints state with ⟨failure | _, d'⟩
  · -- Either half fails only where a walk does.
    rcases updateCheckpoints_eq_error.mp hEnd with hFirst | ⟨-, hSecond⟩
    · obtain ⟨⟨-, -, hWalk⟩, -⟩ := updateJustified_eq_error.mp hFirst
      rw [eq_of_ancestor_error hWalk]
      rfl
    · obtain ⟨⟨-, -, -, hWalk⟩, -⟩ := updateFinalized_eq_error.mp hSecond
      rw [eq_of_ancestor_error hWalk]
      rfl
  · rfl

variable [HashFunction] {b : Block}

/-- **Imports** fault at the admission of the block, or where it is applied. -/
theorem importBlock_fault? :
    fault? (d.importBlock t b).1 = some fault ↔
      (d.view.admitBlock b).fault? = some fault ∨
        ∃ root parentState, d.view.admitBlock b = .ok (.fresh root parentState) ∧
          (t.applyBlock parentState b).fault? = some fault := by
  unfold importBlock
  cases d.view.admitBlock b with
  | error failure => simp
  | ok admission =>
    cases admission with
    | known root => simp
    | fresh root parentState =>
      dsimp only
      cases hApplied : t.applyBlock parentState b with
      | error failure => simp [hApplied]
      | ok state =>
        have hCheckpoints := updateCheckpoints_faultless
          (d.countApplyBlock.insertBlock root b state) state
        dsimp only
        -- Nothing is left but to take note of the checkpoints.
        split
        · rename_i hEnd
          rw [hEnd, fault?_error] at hCheckpoints
          simp [hApplied, hCheckpoints]
        · simp [hApplied]

end Draft

/-! ## Attestations -/

namespace StoreView

variable {v : StoreView} {fault : Fault}

theorem admitVote_faultless (v : StoreView) (data : AttestationData) :
    (v.admitVote data).fault? = none := by
  refine guard_faultless fun _ => guard_faultless fun _ => guard_faultless fun _ => ?_
  split
  · rfl
  · refine guard_faultless fun _ => ?_
    split
    · rfl
    · refine guard_faultless fun _ => guard_faultless fun _ => ?_
      exact bind_faultless (v.ancestor_faultless _ _) fun ancestor _ => guard_faultless fun _ => rfl

/-- A vote whose target has no state yet, while the greatest distance from the block of the target
leads beyond the greatest slot. -/
structure LacksRoomAt (v : StoreView) (target : Checkpoint) (targetState : BeaconState) : Prop where
  missing : v.checkpointState? target = none
  later : targetState.slot < v.preset.startSlot target.epoch
  exceeds : UInt64.size ≤ targetState.slot.toNat + v.limits.maxEmptySlots.toNat

/-- The slot after another one is no word if this is the greatest one. -/
theorem succ_exceeds {slot : Slot} : UInt64.size ≤ slot.toNat + (1 : UInt64).toNat ↔
    slot = Word.greatest := by
  have hOne : (1 : UInt64).toNat = 1 := rfl
  have hGreatest : Word.greatest.toNat + 1 = UInt64.size := rfl
  have hSlot : slot.toNat < UInt64.size := slot.toNat_lt
  rw [← UInt64.toNat_inj, hOne]
  omega

/-- **Participants** fault for the last slot there is. -/
theorem admitParticipants_fault? [HashFunction] [SignatureScheme] {state : BeaconState}
    {check : SignatureCheck} {a : Attestation} (hState : state.Complete v.preset) :
    (v.admitParticipants check state a).fault? = some fault ↔
      a.data.slot = Word.greatest ∧ fault = .addOverflow := by
  unfold admitParticipants
  rw [fault?_bind, Checked.liftM_eq, fault?_toOutcome, Word.add_eq_error, succ_exceeds]
  refine or_iff_left ?_
  rintro ⟨next, -, hFault⟩
  -- The committee of the attestation is known or not, and the check of the signature is no
  -- computation that could fault.
  refine fault?_ne_some ?_ hFault
  refine guard_faultless fun _ => bind_faultless ?_ fun indexed _ => ?_
  · rw [fault?_mapError]
    exact hState.indexed_faultless a
  · split <;> rfl

end StoreView

namespace Draft

variable {d : Draft} {target : Checkpoint} {targetState : BeaconState} {fault : Fault}

section

variable [HashFunction]

/-- **The state at a checkpoint** faults for want of room. -/
theorem checkpointState_fault? (hState : targetState.Complete d.view.preset) :
    fault? (d.checkpointState (slotTransition d.view.preset) target targetState).1 = some fault ↔
      d.view.LacksRoomAt target targetState ∧ fault = .addOverflow := by
  unfold checkpointState
  cases hMissing : d.view.checkpointState? target with
  | some state =>
    simp only [fault?_ok, reduceCtorEq, false_iff, not_and]
    intro h
    rw [h.missing] at hMissing
    cases hMissing
  | none =>
    dsimp only
    split
    · -- The state after the block is the one at the checkpoint.
      rename_i hThere
      simp only [fault?_ok, reduceCtorEq, false_iff, not_and]
      intro h
      exact absurd h.later (UInt64.not_lt.mpr hThere)
    rename_i hEarlier
    have hLater := UInt64.not_le.mp hEarlier
    cases hLast : Word.add targetState.slot d.view.limits.maxEmptySlots with
    | error reason =>
      obtain ⟨hExceeds, rfl⟩ := Word.add_eq_error.mp hLast
      have hRoom : d.view.LacksRoomAt target targetState := ⟨hMissing, hLater, hExceeds⟩
      simp [hRoom, Failure.fault?, eq_comm]
    | ok last =>
      -- From here on nothing faults.
      have hFits : ¬d.view.LacksRoomAt target targetState := by
        intro h
        have hNot := Word.add_eq_error.mpr ⟨h.exceeds, rfl⟩
        rw [hLast] at hNot
        cases hNot
      obtain ⟨reached, hReached, -⟩ := hState.processSlots_defined hLater
      dsimp only
      rw [hReached]
      split <;> simp [hFits]

/-- Where there is room, there is a state unless the target is too far away. -/
theorem exists_checkpointState_iff (hState : targetState.Complete d.view.preset)
    (hRoom : ¬d.view.LacksRoomAt target targetState) :
    (∃ state d', d.checkpointState (slotTransition d.view.preset) target targetState =
        (.ok state, d')) ↔
      (d.view.checkpointState? target = none → (d.view.preset.startSlot target.epoch).toNat ≤
        targetState.slot.toNat + d.view.limits.maxEmptySlots.toNat) := by
  unfold checkpointState
  cases hMissing : d.view.checkpointState? target with
  | some state => simp
  | none =>
    dsimp only
    by_cases hThere : d.view.preset.startSlot target.epoch ≤ targetState.slot
    · rw [if_pos hThere]
      have hLe := UInt64.le_iff_toNat_le.mp hThere
      exact ⟨fun _ _ => by omega, fun _ => ⟨_, _, rfl⟩⟩
    rw [if_neg hThere]
    have hLater := UInt64.not_le.mp hThere
    have hFits : targetState.slot.toNat + d.view.limits.maxEmptySlots.toNat < UInt64.size :=
      Nat.lt_of_not_le fun hExceeds => hRoom ⟨hMissing, hLater, hExceeds⟩
    have hLast := Word.toNat_add_of_lt hFits
    rw [Word.add_eq_ok_of_lt hFits]
    dsimp only
    obtain ⟨reached, hReached, -⟩ := hState.processSlots_defined hLater
    -- The sum fits, so that words and numbers are compared alike.
    by_cases hFar : targetState.slot + d.view.limits.maxEmptySlots <
        d.view.preset.startSlot target.epoch
    · rw [if_pos hFar]
      rw [UInt64.lt_iff_toNat_lt] at hFar
      simp only [Prod.mk.injEq, Outcome.fail_ne_ok, false_and, exists_false, forall_const,
        false_iff]
      omega
    · rw [if_neg hFar, hReached]
      rw [UInt64.lt_iff_toNat_lt] at hFar
      exact ⟨fun _ _ => by omega, fun _ => ⟨_, _, rfl⟩⟩

end

/-- **Attestations** fault where the state at the target does, or where the participants do. -/
theorem attest_fault? [HashFunction] [SignatureScheme] {t : StateTransition}
    {check : SignatureCheck} {a : Attestation} :
    fault? (d.attest t check a).1 = some fault ↔
      ∃ targetState, d.view.admitVote a.data = .ok targetState ∧
        (fault? (d.checkpointState t a.data.target targetState).1 = some fault ∨
          ∃ state d', d.checkpointState t a.data.target targetState = (.ok state, d') ∧
            (d'.view.admitParticipants check state a).fault? = some fault) := by
  have hVote := d.view.admitVote_faultless a.data
  unfold attest
  cases hAdmitted : d.view.admitVote a.data with
  | error failure =>
    rw [hAdmitted, fault?_error] at hVote
    simp [hVote]
  | ok targetState =>
    dsimp only
    rcases hCached : d.checkpointState t a.data.target targetState with ⟨failure | state, d'⟩
    · simp [hCached]
    · dsimp only
      cases hParticipants : d'.view.admitParticipants check state a with
      | error failure => simp [hCached, hParticipants]
      | ok indices => simp [hCached, hParticipants]

end Draft

/-! ## Genesis -/

section

variable [HashFunction]

/-- The store of a network at its beginning, all of whose validators have the full balance. -/
def Store.IsFundedGenesis (s : Store) : Prop :=
  ∃ config genesisTime validators state block,
    (∀ validator ∈ validators, validator.effectiveBalance = maxEffectiveBalance) ∧
      Devnet.genesisState s.preset config genesisTime validators = .ok state ∧
        Devnet.genesisBlock s.preset state = .ok block ∧
          Store.ofAnchor s.preset s.config s.limits block state = .ok s

/-- The validators of a quick start have the full balance. -/
theorem Store.isFundedGenesis_of_quickStart {p : Preset} {config config' : Config}
    {limits : StoreLimits} {genesisTime : UInt64} {count : Nat} {state : BeaconState}
    {block : Block} {s : Store}
    (hState : Devnet.quickStartState p config genesisTime count = .ok state)
    (hBlock : Devnet.genesisBlock p state = .ok block)
    (hAnchor : Store.ofAnchor p config' limits block state = .ok s) : s.IsFundedGenesis := by
  have hStore := hAnchor
  obtain ⟨root, -, -, elapsed, -, time, -, rfl⟩ := Store.ofAnchor_eq_ok.mp hAnchor
  obtain ⟨validators, hValidators, hGenesis⟩ := bind_eq_ok.mp hState
  refine ⟨config, genesisTime, validators, state, block, ?_, hGenesis, hBlock, hStore⟩
  intro validator hMem
  obtain ⟨index, -, hIndex⟩ := mem_of_mapM_eq_ok hValidators hMem
  simp only [Devnet.quickStartValidator, bind_eq_ok, pure_eq_ok] at hIndex
  obtain ⟨key, -, rfl⟩ := hIndex
  rfl

/-- A network whose validators all have the full balance begins with a complete state. -/
theorem BeaconState.complete_of_genesis {p : Preset} {s : BeaconState} {config : Config}
    {genesisTime : UInt64} {validators : List Validator}
    (hWeight : ∀ validator ∈ validators, validator.effectiveBalance = maxEffectiveBalance)
    (hState : Devnet.genesisState p config genesisTime validators = .ok s) : s.Complete p := by
  -- The registry has a root, so it fits.
  have hLength : validators.length ≤ validatorRegistryLimit := by
    have hRoots := hState
    simp only [Devnet.genesisState, bind_eq_ok] at hRoots
    obtain ⟨registry, hRegistry, -⟩ := hRoots
    have hRoom := Merkle.length_le_of_listRoot (by decide) hRegistry
    rwa [List.length_map] at hRoom
  obtain ⟨stateRoot, hRoot⟩ := Store.genesisState_treeRoot_defined hState hLength
  simp only [Devnet.genesisState, bind_eq_ok, pure_eq_ok] at hState
  obtain ⟨registry, -, body, -, rfl⟩ := hState
  exact {
    blockRoots_size := Array.size_replicate
    stateRoots_size := Array.size_replicate
    randaoMixes_size := Array.size_replicate
    registry := by
      rw [List.size_toArray]
      exact hLength
    weight := by
      intro validator hMem
      exact hWeight validator (List.mem_toArray.mp hMem)
    root := ⟨stateRoot, hRoot⟩ }

theorem Store.IsFundedGenesis.facts {s : Store} (hs : s.IsFundedGenesis) :
    ∃ root block state, s.Facts root block state ∧ state.Complete s.preset := by
  obtain ⟨config, genesisTime, validators, state, block, hWeight, hState, hBlock, hAnchor⟩ := hs
  obtain ⟨root, hFacts⟩ := Store.facts_of_ofAnchor hState hBlock hAnchor
  exact ⟨root, block, state, hFacts, BeaconState.complete_of_genesis hWeight hState⟩

end

/-! ## The clock -/

namespace StoreView

variable [HashFunction] [SignatureScheme]

/-- No state after a block is ahead of the clock. -/
def StatesArrived (v : StoreView) : Prop :=
  ∀ root state, v.state? root = some state → state.slot ≤ v.currentSlot

omit [HashFunction] [SignatureScheme] in
theorem StatesArrived.of_sameTree {v v' : StoreView} (h : v.StatesArrived) (hTree : SameTree v v')
    (hTime : v.time ≤ v'.time) : v'.StatesArrived := by
  intro root state hState
  rw [hTree.state?] at hState
  have hSlot : v.currentSlot ≤ v'.currentSlot :=
    currentSlot_le (by rw [hTree]) (by rw [hTree]) hTime
  exact UInt64.le_trans (h root state hState) hSlot

omit [HashFunction] [SignatureScheme] in
theorem StatesArrived.of_sameChain {v v' : StoreView} (h : v.StatesArrived)
    (hSame : SameChain v v') : v'.StatesArrived :=
  h.of_sameTree hSame.sameTree (UInt64.le_of_eq (by rw [hSame]))

/-- A block is admitted when its slot has come, and time does not go back. -/
theorem stable_statesArrived (p : Preset) : Draft.Stable (slotTransition p) StatesArrived where
  change d c h := by
    cases c with
    | tick time => exact h.of_sameTree (d.tick_sameTree time) (d.time_le_tick time)
    | block b =>
      show (d.importBlock (slotTransition p) b).2.view.StatesArrived
      rcases d.importBlock_cases (slotTransition p) b with
        ⟨hSame, -⟩ | ⟨root, parentState, state, hAdmitted, hApplied, hDraft, -⟩
      · rw [hSame]
        exact h
      · obtain ⟨-, -, -, hArrived, -⟩ := admitBlock_eq_fresh.mp hAdmitted
        have hSlot := (BeaconState.slotTransition_applyBlock hApplied).slot
        have hChecked :=
          (d.countApplyBlock.insertBlock root b state).updateCheckpoints_rejustified state
        rw [hDraft]
        refine StatesArrived.of_sameTree ?_ hChecked.view.sameTree
          (UInt64.le_of_eq hChecked.view.time.symm)
        rw [Draft.insertBlock_view, Draft.countApplyBlock_view]
        -- The new state is at the slot of its block, and the others were there before.
        intro r state' hState
        by_cases hNew : r = root
        · rw [hNew, withBlock_state?_self, Option.some.injEq] at hState
          rw [← hState, hSlot]
          exact hArrived
        · rw [withBlock_state?_of_ne hNew] at hState
          exact h r state' hState
    | attestation check a => exact h.of_sameChain (d.attest_sameChain (slotTransition p) check a)
    | discardVotes => exact h.of_sameChain d.discardVotes_sameChain
  commit d h := h.of_sameChain d.commit_sameChain

omit [SignatureScheme] in
theorem statesArrived_of_facts {s : Store} {root : Root} {block : Block} {state : BeaconState}
    (hFacts : s.Facts root block state) : s.view.StatesArrived := by
  obtain ⟨time, hStore⟩ := hFacts.store_eq
  intro r state' hState
  rw [congrArg Store.view hStore, singleton_state?, Option.ite_none_right_eq_some] at hState
  rw [← Option.some.inj hState.2, hFacts.stateSlot]
  exact UInt64.zero_le

end StoreView

/-! ## Requests -/

section

variable [HashFunction]

/-- **Requests that fault.** A block has too many attestations, or there is no room for the slots
that may pass before it or before the target of an attestation, or an attestation is for the last
slot there is and has come as far as to its participants. -/
inductive StoreView.Faulty (v : StoreView) : Change → Fault → Prop
  | crowded {b : Block} (hMany : maxAttestations < b.body.attestations.length) :
    Faulty v (.block b) .crowdedTree
  | lacksRoom {b : Block} {root : Root} {parentState : BeaconState}
    (hRoom : v.LacksRoom b root parentState) : Faulty v (.block b) .addOverflow
  | lacksRoomAt {check : SignatureCheck} {a : Attestation} {targetState : BeaconState}
    (hVote : v.admitVote a.data = .ok targetState)
    (hRoom : v.LacksRoomAt a.data.target targetState) : Faulty v (.attestation check a) .addOverflow
  | lastSlot {check : SignatureCheck} {a : Attestation} {targetState : BeaconState}
    (hVote : v.admitVote a.data = .ok targetState)
    (hNear : v.checkpointState? a.data.target = none →
      (v.preset.startSlot a.data.target.epoch).toNat ≤
        targetState.slot.toNat + v.limits.maxEmptySlots.toNat)
    (hLast : a.data.slot = Word.greatest) : Faulty v (.attestation check a) .addOverflow

/-- A request that is no block with too many attestations. -/
def Change.Fits : Change → Prop
  | .block b => b.body.attestations.length ≤ maxAttestations
  | _ => True

/-- The fault with which a request ends, if it ends with one. When time passes, or votes are
discarded, there is no result that could be one. -/
def Draft.fault? [SignatureScheme] (t : StateTransition) (d : Draft) : Change → Option Fault
  | .tick _ => none
  | .block b => Outcome.fault? (d.importBlock t b).1
  | .attestation check a => Outcome.fault? (d.attest t check a).1
  | .discardVotes => none

variable {s : Store} {v : StoreView} {d : Draft} {fault : Fault}

theorem Draft.importBlock_faulty_iff {b : Block}
    (hStates : d.view.StatesHave s (BeaconState.Complete s.preset)) :
    Outcome.fault? (d.importBlock (slotTransition s.preset) b).1 = some fault ↔
      d.view.Faulty (.block b) fault := by
  rw [importBlock_fault?, admitBlock_fault?]
  constructor
  · rintro ((hRoot | ⟨rfl, root, parentState, hRoom⟩) | ⟨root, parentState, hAdmitted, hFault⟩)
    · -- Only too many attestations keep a block from having a root.
      by_cases hFew : b.body.attestations.length ≤ maxAttestations
      · obtain ⟨root, hDefined⟩ := Block.treeRoot_defined hFew
        rw [hDefined] at hRoot
        cases hRoot
      · rw [Block.treeRoot_eq_error (Nat.lt_of_not_le hFew)] at hRoot
        cases hRoot
        exact .crowded (Nat.lt_of_not_le hFew)
    · exact .lacksRoom hRoom
    · -- The rules do not fault.
      obtain ⟨hRoot, -, hParent, -⟩ := admitBlock_eq_fresh.mp hAdmitted
      obtain ⟨header, hHeader, -⟩ := bind_eq_ok.mp hRoot
      have hNone := (hStates.state hParent).applyBlock_faultless hHeader
      rw [hNone] at hFault
      cases hFault
  · intro h
    cases h with
    | crowded hMany => exact Or.inl (Or.inl (Block.treeRoot_eq_error hMany))
    | lacksRoom hRoom => exact Or.inl (Or.inr ⟨rfl, _, _, hRoom⟩)

/-- The state at the target is complete, whether it was found or made. -/
theorem Draft.participants_fault? [SignatureScheme] {check : SignatureCheck} {a : Attestation}
    {target : Checkpoint} {targetState state : BeaconState} {d' : Draft}
    (hStates : d.view.StatesHave s (BeaconState.Complete s.preset))
    (hTarget : targetState.Complete s.preset)
    (hCached : d.checkpointState (slotTransition s.preset) target targetState = (.ok state, d')) :
    (d'.view.admitParticipants check state a).fault? = some fault ↔
      a.data.slot = Word.greatest ∧ fault = .addOverflow := by
  obtain ⟨hAfter, hFound⟩ := hStates.checkpointState_draft
    (BeaconState.complete_keeps s.preset) hTarget target
  rw [hCached] at hAfter hFound
  refine admitParticipants_fault? ?_
  rw [hAfter.preset]
  exact hFound state rfl

theorem Draft.attest_faulty_iff [SignatureScheme] {check : SignatureCheck} {a : Attestation}
    (hStates : d.view.StatesHave s (BeaconState.Complete s.preset)) :
    Outcome.fault? (d.attest (slotTransition s.preset) check a).1 = some fault ↔
      d.view.Faulty (.attestation check a) fault := by
  have hTarget : ∀ {targetState}, d.view.admitVote a.data = .ok targetState →
      targetState.Complete s.preset := by
    intro targetState hVote
    obtain ⟨-, -, -, hState, -⟩ := admitVote_eq_ok.mp hVote
    exact hStates.state hState
  have hPreset := hStates.preset
  rw [attest_fault?, ← hPreset]
  constructor
  · rintro ⟨targetState, hVote, hFault | ⟨state, d', hCached, hFault⟩⟩
    · rw [checkpointState_fault? (hPreset ▸ hTarget hVote)] at hFault
      obtain ⟨hRoom, rfl⟩ := hFault
      exact .lacksRoomAt hVote hRoom
    · rw [hPreset] at hCached
      obtain ⟨hLast, rfl⟩ := (participants_fault? hStates (hTarget hVote) hCached).mp hFault
      rw [← hPreset] at hCached
      by_cases hRoom : d.view.LacksRoomAt a.data.target targetState
      · exact .lacksRoomAt hVote hRoom
      · exact .lastSlot hVote ((exists_checkpointState_iff (hPreset ▸ hTarget hVote) hRoom).mp
          ⟨state, d', hCached⟩) hLast
  · intro h
    cases h with
    | @lacksRoomAt _ _ targetState hVote hRoom =>
      exact ⟨targetState, hVote, Or.inl
        ((checkpointState_fault? (hPreset ▸ hTarget hVote)).mpr ⟨hRoom, rfl⟩)⟩
    | @lastSlot _ _ targetState hVote hNear hLast =>
      refine ⟨targetState, hVote, ?_⟩
      by_cases hRoom : d.view.LacksRoomAt a.data.target targetState
      · exact Or.inl ((checkpointState_fault? (hPreset ▸ hTarget hVote)).mpr ⟨hRoom, rfl⟩)
      obtain ⟨state, d', hCached⟩ :=
        (exists_checkpointState_iff (hPreset ▸ hTarget hVote) hRoom).mpr hNear
      refine Or.inr ⟨state, d', hCached, ?_⟩
      rw [hPreset] at hCached
      exact (participants_fault? hStates (hTarget hVote) hCached).mpr ⟨hLast, rfl⟩

/-- **Room.** While the slots up to the greatest distance from the present one and those of one more
epoch are words, only a block with too many attestations is a request that faults. -/
theorem StoreView.not_faulty_of_room {c : Change} (hStates : v.StatesArrived) (hFits : c.Fits)
    (hRoom : v.currentSlot.toNat + v.limits.maxEmptySlots.toNat + v.preset.slotsPerEpoch.toNat <
      UInt64.size) : ¬v.Faulty c fault := by
  intro h
  cases h with
  | crowded hMany => exact absurd hFits (Nat.not_le.mpr hMany)
  | lacksRoom h =>
    -- The parent is not ahead of the clock, and neither is the block of a target.
    have hSlot := UInt64.le_iff_toNat_le.mp (hStates _ _ h.parent)
    have hExceeds := h.exceeds
    omega
  | lacksRoomAt hVote h =>
    obtain ⟨-, -, -, hTarget, -⟩ := admitVote_eq_ok.mp hVote
    have hSlot := UInt64.le_iff_toNat_le.mp (hStates _ _ hTarget)
    have hExceeds := h.exceeds
    omega
  | lastSlot hVote _ hLast =>
    -- The vote is of an epoch that has begun, and the last slot is of the last one.
    obtain ⟨hEpoch, -, hSame, -⟩ := admitVote_eq_ok.mp hVote
    rw [hSame, hLast, UInt64.le_iff_toNat_le, currentEpoch, Preset.epochAt_toNat,
      Preset.epochAt_toNat] at hEpoch
    have hPositive := v.preset.eight_le_slotsPerEpoch
    have hGreatest : Word.greatest.toNat + 1 = UInt64.size := rfl
    have hBegun := Nat.mul_le_mul_left v.preset.slotsPerEpoch.toNat hEpoch
    have hNow := Nat.mul_div_le v.currentSlot.toNat v.preset.slotsPerEpoch.toNat
    have hEnd := Nat.lt_mul_div_succ Word.greatest.toNat
      (show 0 < v.preset.slotsPerEpoch.toNat by omega)
    rw [Nat.mul_succ] at hEnd
    omega

/-- **Which requests fault.** From a genesis at which all validators have the full balance, whatever
has been done, whatever the limits and the configuration are and whatever a request says: time
passing never faults, and a block or an attestation does exactly if it is one of those listed, with
the fault that is given there. As long as the slots ahead are words, no request faults but blocks
with too many attestations. -/
theorem faults_of_requests [SignatureScheme] (hs : s.IsFundedGenesis)
    (hd : s.Shows (slotTransition s.preset) d.view) (c : Change) :
    (∀ fault, d.fault? (slotTransition s.preset) c = some fault ↔ d.view.Faulty c fault) ∧
      (c.Fits → d.view.currentSlot.toNat + d.view.limits.maxEmptySlots.toNat +
        d.view.preset.slotsPerEpoch.toNat < UInt64.size →
          d.fault? (slotTransition s.preset) c = none) := by
  obtain ⟨root, block, origin, hFacts, hComplete⟩ := hs.facts
  have hStates : d.view.StatesHave s (BeaconState.Complete s.preset) :=
    statesHave_of_shows (BeaconState.complete_keeps s.preset) hFacts hComplete hd
  have hArrived : d.view.StatesArrived :=
    (stable_statesArrived s.preset).shows (statesArrived_of_facts hFacts) hd
  have hFaults : ∀ fault, d.fault? (slotTransition s.preset) c = some fault ↔
      d.view.Faulty c fault := by
    intro fault
    cases c with
    | tick time => exact ⟨nofun, nofun⟩
    | block b => exact Draft.importBlock_faulty_iff hStates
    | attestation check a => exact Draft.attest_faulty_iff hStates
    | discardVotes => exact ⟨nofun, nofun⟩
  refine ⟨hFaults, fun hFits hRoom => ?_⟩
  rw [Option.eq_none_iff_forall_ne_some]
  intro fault hFault
  exact not_faulty_of_room hArrived hFits hRoom ((hFaults fault).mp hFault)

end

/-! ## Limits that leave no room -/

namespace Engine.ChainedNetwork

variable (n : ChainedNetwork)

/-- The store of the network with other limits. -/
def storeWithin [HashFunction] (limits : StoreLimits) : Option Store :=
  (Store.ofAnchor .minimal .minimal limits n.anchor n.state).toOption

/-- The draft that knows the first block, at some time. -/
def afterFirst [HashFunction] [SignatureScheme] (s : Store) (time : UInt64) : Draft :=
  (Draft.ofStore s).changeAll (slotTransition s.preset) [.tick time, .block n.first]

/-- A vote of the second epoch for the first block. -/
def laterVote : Attestation :=
  let root := n.vote.data.blockRoot
  { n.vote.attestation with data := ⟨8, 0, root, .empty, ⟨1, root⟩⟩ }

/-- The first block with one attestation more than there is room for. -/
def crowdedFirst : Block :=
  { n.first with body := { n.first.body with
      attestations := List.replicate (maxAttestations + 1) n.vote.attestation } }

end Engine.ChainedNetwork

section

open Engine (ChainedNetwork chainedNetwork linearHash toOption_eq_some)

/-- What has been computed of the network with two limits holds of two that begin with validators of
full balance. -/
theorem exists_storeWithin [HashFunction] {limits limits' : StoreLimits}
    {check : ChainedNetwork → Store → Store → Bool}
    (h : (chainedNetwork.any fun n => (n.storeWithin limits).any fun s =>
      (n.storeWithin limits').any fun s' => check n s s') = true) :
    ∃ n s s', chainedNetwork = some n ∧ n.storeWithin limits = some s ∧
      n.storeWithin limits' = some s' ∧ s.IsFundedGenesis ∧ s'.IsFundedGenesis ∧
        check n s s' = true := by
  simp only [Option.any_eq_true] at h
  obtain ⟨n, hNetwork, s, hs, s', hs', hCheck⟩ := h
  have hGenesis : ∀ {limits : StoreLimits} {s : Store}, n.storeWithin limits = some s →
      s.IsFundedGenesis := by
    intro limits s hStore
    simp only [chainedNetwork, Option.bind_eq_bind, Option.bind_eq_some_iff, toOption_eq_some]
      at hNetwork
    obtain ⟨state, hState, anchor, hAnchor, _, -, _, -, _, -, _, -, hEnd⟩ := hNetwork
    cases hEnd
    have hOf := toOption_eq_some.mp hStore
    have hSame := hOf
    obtain ⟨root, -, -, elapsed, -, time, -, rfl⟩ := Store.ofAnchor_eq_ok.mp hOf
    refine ⟨_, _, _, state, anchor, ?_, hState, hAnchor, hSame⟩
    intro validator hMem
    obtain ⟨index, -, rfl⟩ := List.mem_map.mp hMem
    rfl
  exact ⟨n, s, s', hNetwork, hs, hs', hGenesis hs, hGenesis hs', hCheck⟩

/-- **Requests can fault.** In a small network whose limits let a state be moved to the greatest
slot, a second block ends with a fault, and so does a vote of the second epoch for the first block;
with limits that are smaller by one, the second block is imported. A block with one attestation too
many ends with a fault whatever the limits are. -/
theorem small_network_faults :
    letI : HashFunction := linearHash
    letI : SignatureScheme := Bls.scheme
    ∃ n s s', chainedNetwork = some n ∧ n.storeWithin ⟨8192, Word.greatest⟩ = some s ∧
      n.storeWithin ⟨8192, Word.greatest - 1⟩ = some s' ∧ s.IsFundedGenesis ∧ s'.IsFundedGenesis ∧
        (n.afterFirst s 12).fault? (slotTransition s.preset) (.block n.second) =
          some .addOverflow ∧
        (n.afterFirst s 48).fault? (slotTransition s.preset) (.attestation .skip n.laterVote) =
          some .addOverflow ∧
        ((n.afterFirst s' 12).importBlock (slotTransition s'.preset) n.second).1.isOk = true ∧
        (Draft.ofStore s').fault? (slotTransition s'.preset) (.block n.crowdedFirst) =
          some .crowdedTree := by
  let : HashFunction := linearHash
  let : SignatureScheme := Bls.scheme
  have hRuns : (chainedNetwork.any fun n => (n.storeWithin ⟨8192, Word.greatest⟩).any fun s =>
      (n.storeWithin ⟨8192, Word.greatest - 1⟩).any fun s' =>
        (n.afterFirst s 12).fault? (slotTransition s.preset) (.block n.second) =
            some .addOverflow &&
          (n.afterFirst s 48).fault? (slotTransition s.preset) (.attestation .skip n.laterVote) =
            some .addOverflow &&
          ((n.afterFirst s' 12).importBlock (slotTransition s'.preset) n.second).1.isOk &&
          (Draft.ofStore s').fault? (slotTransition s'.preset) (.block n.crowdedFirst) =
            some .crowdedTree) = true := by
    decide +kernel
  obtain ⟨n, s, s', hNetwork, hs, hs', hGenesis, hGenesis', hRun⟩ := exists_storeWithin hRuns
  simp only [Bool.and_eq_true, decide_eq_true_eq] at hRun
  obtain ⟨⟨⟨hBlock, hVote⟩, hImported⟩, hCrowded⟩ := hRun
  exact ⟨n, s, s', hNetwork, hs, hs', hGenesis, hGenesis', hBlock, hVote, hImported, hCrowded⟩

/-- The second block in the network with the greatest limits, and in the one with the usual ones. -/
theorem faults_of_requests_of_chained :
    letI : HashFunction := linearHash
    letI : SignatureScheme := Bls.scheme
    ∃ n s s', chainedNetwork = some n ∧ n.storeWithin ⟨8192, Word.greatest⟩ = some s ∧
      n.storeWithin {} = some s' ∧ s.IsFundedGenesis ∧ s'.IsFundedGenesis ∧
        s.Shows (slotTransition s.preset) (n.afterFirst s 12).view ∧
        s'.Shows (slotTransition s'.preset) (n.afterFirst s' 12).view ∧
        (n.afterFirst s 12).view.Faulty (.block n.second) .addOverflow ∧
        (n.afterFirst s' 12).fault? (slotTransition s'.preset) (.block n.second) = none := by
  let : HashFunction := linearHash
  let : SignatureScheme := Bls.scheme
  have hRuns : (chainedNetwork.any fun n => (n.storeWithin ⟨8192, Word.greatest⟩).any fun s =>
      (n.storeWithin {}).any fun s' =>
        (n.afterFirst s 12).fault? (slotTransition s.preset) (.block n.second) =
            some .addOverflow &&
          n.second.body.attestations.length ≤ maxAttestations &&
          (n.afterFirst s' 12).view.currentSlot.toNat +
            (n.afterFirst s' 12).view.limits.maxEmptySlots.toNat +
              (n.afterFirst s' 12).view.preset.slotsPerEpoch.toNat < UInt64.size) = true := by
    decide +kernel
  obtain ⟨n, s, s', hNetwork, hs, hs', hGenesis, hGenesis', hRun⟩ := exists_storeWithin hRuns
  simp only [Bool.and_eq_true, decide_eq_true_eq] at hRun
  obtain ⟨⟨hFault, hFits⟩, hRoom⟩ := hRun
  have hShows : ∀ s : Store, s.Shows (slotTransition s.preset) (n.afterFirst s 12).view :=
    fun s => ⟨[], Or.inr ⟨[.tick 12, .block n.first], rfl⟩⟩
  exact ⟨n, s, s', hNetwork, hs, hs', hGenesis, hGenesis', hShows s, hShows s',
    ((faults_of_requests hGenesis (hShows s) _).1 _).mp hFault,
    (faults_of_requests hGenesis' (hShows s') _).2 hFits hRoom⟩

end

end ForkChoice
