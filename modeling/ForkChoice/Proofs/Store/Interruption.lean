import ForkChoice.Engine.Blocks
import ForkChoice.Proofs.Store.Admission
import ForkChoice.Proofs.Store.Finality
import ForkChoice.Proofs.Store.Frame

/-!
# ForkChoice — what a failed operation leaves

An operation that fails leaves all that can be read as it was, with two exceptions. The state at the
target of an attestation is stored before the participants are looked at, and stays. And a block is
stored before the checkpoints of its state are compared with those of the store, which may take a
walk: if the walk goes beyond its bound, the block stays in the draft, and of the checkpoints that
move one has moved already. An engine never shows such a draft, because it commits the draft only if
the import succeeds.

* `StoreView.Interrupted` — the two places in which an import ends halfway, and what is read then;
* `updateJustified_eq_error`, `updateFinalized_eq_error` — how either half of the comparison fails;
* `Draft.importBlock_error_iff` — a failed import changes nothing, or it was interrupted;
* `Draft.attest_error_view` — a failed attestation leaves a state at its target at most;
* `failed_operations_leave` — both together, and the engine;
* `rivals_interrupted` — a small network in which both walks are too long.
-/

namespace ForkChoice

open StoreView

/-! ## Interrupted imports -/

namespace StoreView

variable {v : StoreView} {failure : Failure StoreError}

/-- The better of the best justified checkpoint and another one, the former if they are equal. -/
def bestWith (v : StoreView) (candidate : Checkpoint) : Checkpoint :=
  if v.bestJustified.epoch < candidate.epoch then candidate else v.bestJustified

/-- **Imports that end halfway.** A block is admitted and applied, and then one of the two walks that
follow goes beyond its bound. What can be read has the block in it, and either the best justified
checkpoint or the finalized one as the state of the block has it. -/
inductive Interrupted [HashFunction] (t : StateTransition) (v : StoreView) (b : Block) :
    Failure StoreError → StoreView → Prop
  /-- Late in an epoch, the walk from a later justified checkpoint is too long. -/
  | justified {root : Root} {parentState state : BeaconState}
    (hAdmitted : v.admitBlock b = .ok (.fresh root parentState))
    (hApplied : t.applyBlock parentState b = .ok state)
    (hLater : v.justified.epoch < state.currentJustified.epoch)
    (hLate : v.preset.safeSlotsToUpdateJustified ≤ v.preset.slotsSinceEpochStart v.currentSlot)
    (hWalk : (v.withBlock root b state).ancestor state.currentJustified.root
      (v.preset.startSlot v.justified.epoch) =
        Outcome.fail (.ancestorDepthExceeded state.currentJustified.root v.limits.maxAncestorDepth)) :
    Interrupted t v b
      (.error (.ancestorDepthExceeded state.currentJustified.root v.limits.maxAncestorDepth))
      { v.withBlock root b state with bestJustified := v.bestWith state.currentJustified }
  /-- The walk from the justified checkpoint down to what is now final is too long. -/
  | finalized {root : Root} {parentState state : BeaconState}
    (hAdmitted : v.admitBlock b = .ok (.fresh root parentState))
    (hApplied : t.applyBlock parentState b = .ok state)
    (hStays : state.currentJustified.epoch ≤ v.justified.epoch)
    (hOther : v.justified ≠ state.currentJustified)
    (hLater : v.finalized.epoch < state.finalized.epoch)
    (hWalk : (v.withBlock root b state).ancestor v.justified.root
      (v.preset.startSlot state.finalized.epoch) =
        Outcome.fail (.ancestorDepthExceeded v.justified.root v.limits.maxAncestorDepth)) :
    Interrupted t v b (.error (.ancestorDepthExceeded v.justified.root v.limits.maxAncestorDepth))
      { v.withBlock root b state with finalized := state.finalized }

/-- An interrupted import can be told from what is read afterwards. -/
theorem Interrupted.ne [HashFunction] {t : StateTransition} {b : Block} {v' : StoreView}
    (h : v.Interrupted t b failure v') : v' ≠ v := by
  -- There is one more block than before.
  have hCount : v'.importCount = v.importCount + 1 := by
    cases h <;> rfl
  intro hSame
  rw [hSame] at hCount
  omega

/-! ## Walks that are too long -/

/-- A walk fails in one way. -/
theorem eq_of_ancestor_error {root : Root} {slot : Slot} (h : v.ancestor root slot = .error failure) :
    failure = .error (.ancestorDepthExceeded root v.limits.maxAncestorDepth) := by
  unfold ancestor at h
  split at h
  · cases h
  · cases h
    rfl

/-- Early in an epoch there is no walk. -/
theorem shouldUpdateJustified_eq_error {candidate : Checkpoint} :
    v.shouldUpdateJustified candidate = .error failure ↔
      v.preset.safeSlotsToUpdateJustified ≤ v.preset.slotsSinceEpochStart v.currentSlot ∧
        v.ancestor candidate.root (v.preset.startSlot v.justified.epoch) = .error failure := by
  unfold shouldUpdateJustified
  split
  · rename_i hEarly
    simp [UInt64.not_le.mpr hEarly]
  · rename_i hLate
    simp only [bind_eq_error, pure_ne_error, and_false, exists_false, or_false,
      UInt64.not_lt.mp hLate, true_and]

theorem justifiedDescendsFrom_eq_error {justified finalized : Checkpoint} :
    v.justifiedDescendsFrom justified finalized = .error failure ↔
      v.ancestor justified.root v.finalizedSlot = .error failure := by
  simp only [justifiedDescendsFrom, bind_eq_error, pure_ne_error, and_false, exists_false, or_false]

end StoreView

namespace Draft

variable {t : StateTransition} {d d' : Draft} {failure : Failure StoreError}

/-- The draft that has taken note of a later justified checkpoint, whether it takes effect or not. -/
def noteJustified (d : Draft) (candidate : Checkpoint) : Draft :=
  if d.view.bestJustified.epoch < candidate.epoch then d.setBestJustified candidate else d

theorem noteJustified_view (d : Draft) (candidate : Checkpoint) :
    (d.noteJustified candidate).view =
      { d.view with bestJustified := d.view.bestWith candidate } := by
  unfold noteJustified bestWith
  split <;> rfl

/-- **The first half** fails if the walk from a later checkpoint does. The best one has moved by
then. -/
theorem updateJustified_eq_error {candidate : Checkpoint} :
    d.updateJustified candidate = (.error failure, d') ↔
      (d.view.justified.epoch < candidate.epoch ∧
        d.view.preset.safeSlotsToUpdateJustified ≤
          d.view.preset.slotsSinceEpochStart d.view.currentSlot ∧
        d.view.ancestor candidate.root (d.view.preset.startSlot d.view.justified.epoch) =
          .error failure) ∧ d' = d.noteJustified candidate := by
  unfold updateJustified
  by_cases hEarlier : candidate.epoch ≤ d.view.justified.epoch
  · simp [hEarlier, UInt64.not_lt.mpr hEarlier]
  rw [if_neg hEarlier]
  have hView := d.noteJustified_view candidate
  have hTree : SameTree d.view (d.noteJustified candidate).view := by
    rw [hView]
    rfl
  -- The walk does not see the checkpoint that has moved.
  have hFails : (d.noteJustified candidate).view.shouldUpdateJustified candidate =
        .error failure ↔
      d.view.preset.safeSlotsToUpdateJustified ≤
          d.view.preset.slotsSinceEpochStart d.view.currentSlot ∧
        d.view.ancestor candidate.root (d.view.preset.startSlot d.view.justified.epoch) =
          .error failure := by
    rw [shouldUpdateJustified_eq_error, hTree.ancestor_eq, hView]
    rfl
  rw [← hFails, ← noteJustified]
  cases hUpdate : (d.noteJustified candidate).view.shouldUpdateJustified candidate with
  | ok update => simp [hUpdate]
  | error failure' =>
    simp only [hUpdate, Prod.mk.injEq, Except.error.injEq, UInt64.not_le.mp hEarlier, true_and]
    exact and_congr_right fun _ => eq_comm

/-- **The second half** fails if the walk from the justified checkpoint does. The finalized one has
moved by then. -/
theorem updateFinalized_eq_error {candidate stateJustified : Checkpoint} :
    d.updateFinalized candidate stateJustified = (.error failure, d') ↔
      (d.view.finalized.epoch < candidate.epoch ∧ d.view.justified ≠ stateJustified ∧
        stateJustified.epoch ≤ d.view.justified.epoch ∧
        d.view.ancestor d.view.justified.root (d.view.preset.startSlot candidate.epoch) =
          .error failure) ∧ d' = d.setFinalized candidate := by
  unfold updateFinalized
  by_cases hEarlier : candidate.epoch ≤ d.view.finalized.epoch
  · simp [hEarlier, UInt64.not_lt.mpr hEarlier]
  -- The finalized checkpoint is the new one from here on. Nothing else has changed.
  have hJustified : (d.setFinalized candidate).view.justified = d.view.justified := rfl
  simp only [if_neg hEarlier, hJustified]
  by_cases hSame : d.view.justified = stateJustified
  · simp [hSame]
  rw [if_neg hSame]
  by_cases hLater : d.view.justified.epoch < stateJustified.epoch
  · simp [hLater, UInt64.not_le.mpr hLater]
  rw [if_neg hLater]
  have hTree : SameTree d.view (d.setFinalized candidate).view := rfl
  have hFails : (d.setFinalized candidate).view.justifiedDescendsFrom d.view.justified candidate =
        .error failure ↔
      d.view.ancestor d.view.justified.root (d.view.preset.startSlot candidate.epoch) =
        .error failure := by
    rw [justifiedDescendsFrom_eq_error, hTree.ancestor_eq]
    rfl
  rw [← hFails]
  cases (d.setFinalized candidate).view.justifiedDescendsFrom d.view.justified candidate with
  | ok descends => simp
  | error failure' =>
    simp [UInt64.not_le.mp hEarlier, hSame, UInt64.not_lt.mp hLater, eq_comm]

/-- If the second half fails, the first one has changed nothing: a checkpoint that it moves, or
that it leaves because of a conflict, is not the later one in the second half. -/
theorem updateCheckpoints_eq_error {state : BeaconState} :
    d.updateCheckpoints state = (.error failure, d') ↔
      d.updateJustified state.currentJustified = (.error failure, d') ∨
        state.currentJustified.epoch ≤ d.view.justified.epoch ∧
          d.updateFinalized state.finalized state.currentJustified = (.error failure, d') := by
  unfold updateCheckpoints
  by_cases hEarlier : state.currentJustified.epoch ≤ d.view.justified.epoch
  · rw [updateJustified, if_pos hEarlier]
    simp [hEarlier]
  rcases hFirst : d.updateJustified state.currentJustified with ⟨failure' | _, d₁⟩
  · simp [hEarlier]
  simp only [hEarlier, false_and, or_false, Prod.mk.injEq, reduceCtorEq, iff_false]
  intro hSecond
  obtain ⟨⟨-, hOther, hStays, -⟩, -⟩ := updateFinalized_eq_error.mp hSecond
  -- What the first half leaves is not later than the checkpoint of the state.
  obtain ⟨best, hView | ⟨-, hView⟩⟩ := d.updateJustified_cases state.currentJustified <;>
    rw [hFirst] at hView <;> rw [hView] at hOther hStays
  · exact hEarlier hStays
  · exact hOther rfl

/-! ## Imports and attestations that fail -/

theorem stored_view {root : Root} {b : Block} {state : BeaconState} :
    (d.countApplyBlock.insertBlock root b state).view = d.view.withBlock root b state := by
  rw [insertBlock_view, countApplyBlock_view]

section

variable [HashFunction] {b : Block} {v' : StoreView}

/-- Before the block is stored, a failed import changes nothing that can be read. -/
theorem importBlock_eq_error :
    d.importBlock t b = (.error failure, d') ↔
      (d.view.admitBlock b = .error failure ∧ d = d') ∨
      (∃ root parentState, d.view.admitBlock b = .ok (.fresh root parentState) ∧
        ((∃ reason, t.applyBlock parentState b = .error reason ∧
            reason.map .transition = failure ∧ d.countApplyBlock = d') ∨
          ∃ state, t.applyBlock parentState b = .ok state ∧
            (d.countApplyBlock.insertBlock root b state).updateCheckpoints state =
              (.error failure, d'))) := by
  unfold importBlock
  cases d.view.admitBlock b with
  | error failure' => simp
  | ok admission =>
    cases admission with
    | known root => simp
    | fresh root parentState =>
      dsimp only
      cases hApplied : t.applyBlock parentState b with
      | error reason => simp [hApplied]
      | ok state =>
        rcases hCheckpoints : (d.countApplyBlock.insertBlock root b state).updateCheckpoints state with
          ⟨failure' | _, d₁⟩ <;> simp [hApplied, hCheckpoints]

/-- **Failed imports.** An import that fails changes nothing that can be read, or it was
interrupted. -/
theorem importBlock_error_view (h : d.importBlock t b = (.error failure, d')) :
    d'.view = d.view ∨ d.view.Interrupted t b failure d'.view := by
  rcases importBlock_eq_error.mp h with
    ⟨-, rfl⟩ | ⟨root, parentState, hAdmitted, ⟨_, -, -, rfl⟩ | ⟨state, hApplied, hCheckpoints⟩⟩
  · exact Or.inl rfl
  · exact Or.inl rfl
  right
  -- The block is stored, so what fails is one of the two walks.
  rcases updateCheckpoints_eq_error.mp hCheckpoints with hFirst | ⟨hStays, hSecond⟩
  · obtain ⟨⟨hLater, hLate, hWalk⟩, rfl⟩ := updateJustified_eq_error.mp hFirst
    rw [stored_view] at hLater hLate hWalk
    rw [noteJustified_view, stored_view]
    cases eq_of_ancestor_error hWalk
    exact .justified hAdmitted hApplied hLater hLate hWalk
  · obtain ⟨⟨hLater, hOther, -, hWalk⟩, rfl⟩ := updateFinalized_eq_error.mp hSecond
    rw [stored_view] at hStays hLater hOther hWalk
    rw [setFinalized_view, stored_view]
    cases eq_of_ancestor_error hWalk
    exact .finalized hAdmitted hApplied hStays hOther hLater hWalk

/-- An interrupted import fails, and leaves what is described. -/
theorem exists_of_interrupted (h : d.view.Interrupted t b failure v') :
    ∃ d', d.importBlock t b = (.error failure, d') ∧ d'.view = v' := by
  cases h with
  | @justified root parentState state hAdmitted hApplied hLater hLate hWalk =>
    refine ⟨_, importBlock_eq_error.mpr (Or.inr ⟨root, parentState, hAdmitted, Or.inr
      ⟨state, hApplied, updateCheckpoints_eq_error.mpr (Or.inl
        (updateJustified_eq_error.mpr ⟨⟨?_, ?_, ?_⟩, rfl⟩))⟩⟩), ?_⟩
    · rwa [stored_view]
    · rwa [stored_view]
    · rwa [stored_view]
    · rw [noteJustified_view, stored_view]
      rfl
  | @finalized root parentState state hAdmitted hApplied hStays hOther hLater hWalk =>
    refine ⟨_, importBlock_eq_error.mpr (Or.inr ⟨root, parentState, hAdmitted, Or.inr
      ⟨state, hApplied, updateCheckpoints_eq_error.mpr (Or.inr ⟨?_,
        updateFinalized_eq_error.mpr ⟨⟨?_, ?_, ?_, ?_⟩, rfl⟩⟩)⟩⟩), ?_⟩
    · rwa [stored_view]
    · rwa [stored_view]
    · rwa [stored_view]
    · rwa [stored_view]
    · rwa [stored_view]
    · rw [setFinalized_view, stored_view]

end

/-- A state at a checkpoint is stored only if there is none. -/
theorem checkpointState_eq_of_known {target : Checkpoint} {targetState state : BeaconState}
    (h : d.view.checkpointState? target = some state) :
    d.checkpointState t target targetState = (.ok state, d) := by
  rw [checkpointState, h]

/-- **Failed attestations.** An attestation that fails changes nothing that can be read, but that
there may be a state at its target that was missing. -/
theorem attest_error_view [HashFunction] [SignatureScheme] {check : SignatureCheck}
    {a : Attestation} (h : d.attest t check a = (.error failure, d')) :
    d'.view = d.view ∨ (d.view.checkpointState? a.data.target = none ∧
      ∃ state, d'.view = d.view.withCheckpointState a.data.target state) := by
  unfold attest at h
  split at h
  · -- The vote is not admitted.
    cases h
    exact Or.inl rfl
  rename_i targetState _
  cases hKnown : d.view.checkpointState? a.data.target with
  | some state =>
    left
    rw [checkpointState_eq_of_known hKnown] at h
    dsimp only at h
    split at h
    · cases h
      rfl
    · cases h
  | none =>
    -- What fails after the state was stored leaves it there.
    rcases checkpointState_cases t d a.data.target targetState with
      ⟨_, d₁, hState, hView⟩ | ⟨_, -, hFound⟩ | ⟨state, d₁, hState, hView, -⟩
    · rw [hState] at h
      cases h
      exact Or.inl hView
    · rw [hKnown] at hFound
      cases hFound
    · rw [hState] at h
      dsimp only at h
      split at h
      · cases h
        exact Or.inr ⟨rfl, state, hView⟩
      · cases h

end Draft

section

variable [HashFunction] [SignatureScheme]

/-- **An engine gives a draft up** if the import fails, so that its store is the one before. -/
theorem Engine.importBlock_store_of_error {t : StateTransition} {e : Engine} {b : PendingBlock}
    {failure : Failure StoreError} {d : Draft}
    (h : (Draft.ofStore e.store).importBlock t b.block = (.error failure, d)) :
    (e.importBlock t b).run.engine.store = e.store := by
  unfold importBlock
  rw [h]
  cases failure with
  | fault reason => rfl
  | error reason =>
    show ((e.abandon d).delayOrRefuseBlock b reason).store = e.store
    unfold delayOrRefuseBlock
    split
    · rfl
    · split <;> rfl
    · rfl

/-- **What a failed operation leaves.** Whatever the rules by which states move on: after an import
that fails, all that can be read from the draft is as it was, unless the import was interrupted by a
walk that is too long, in which case it is exactly what `Interrupted` says; and the store of an
engine is as it was in any case. After an attestation that fails, all that can be read is as it was,
but that there may be a state at its target that was missing before. -/
theorem failed_operations_leave (t : StateTransition) (d : Draft) :
    (∀ b failure d', d.importBlock t b = (.error failure, d') →
      d'.view = d.view ∨ d.view.Interrupted t b failure d'.view) ∧
    (∀ b failure v', d.view.Interrupted t b failure v' →
      v' ≠ d.view ∧ ∃ d', d.importBlock t b = (.error failure, d') ∧ d'.view = v') ∧
    (∀ (e : Engine) b failure d', (Draft.ofStore e.store).importBlock t b.block =
      (.error failure, d') → (e.importBlock t b).run.engine.store = e.store) ∧
    ∀ check a failure d', d.attest t check a = (.error failure, d') →
      d'.view = d.view ∨ (d.view.checkpointState? a.data.target = none ∧
        ∃ state, d'.view = d.view.withCheckpointState a.data.target state) := by
  refine ⟨?_, ?_, ?_, ?_⟩
  · intro b failure d' h
    exact Draft.importBlock_error_view h
  · intro b failure v' h
    exact ⟨h.ne, Draft.exists_of_interrupted h⟩
  · intro e b failure d' h
    exact Engine.importBlock_store_of_error h
  · intro check a failure d' h
    exact Draft.attest_error_view h

end

/-! ## Walks that are too long in a small network -/

namespace RivalNetwork

/-- The draft in the third epoch into which the rival branch is imported. -/
def lateDraft [HashFunction] [SignatureScheme] (n : RivalNetwork) : Draft :=
  (Draft.ofStore n.store).changeAll n.rules [.tick 120, .block n.rivalFirst]

/-- The draft at the beginning of the third epoch that knows all blocks but the finalizing one. -/
def earlyDraft [HashFunction] [SignatureScheme] (n : RivalNetwork) : Draft :=
  (Draft.ofStore n.store).changeAll n.rules
    [.tick 96, .block n.rivalFirst, .block n.rivalSecond, .block n.first]

/-- A vote in which nobody takes part, for a block of the second epoch. -/
def emptyVote (n : RivalNetwork) : Attestation :=
  ⟨⟨[], Nat.zero_le _⟩, ⟨9, 0, n.rivalFirstRoot, .empty, ⟨1, n.store.anchorRoot⟩⟩, 0⟩

end RivalNetwork

/-- **Failed imports leave their blocks.** In a small network in which walks follow one link, a
block that justifies itself late in an epoch is refused, and yet the draft has it, together with its
checkpoint as the best justified one. And a block that finalizes its parent, while the justified
block is on a longer branch, is refused, and yet its parent is final. -/
theorem rivals_interrupted :
    letI : HashFunction := Engine.linearHash
    letI : SignatureScheme := Bls.scheme
    ∃ n, rivalNetwork ⟨1, 32⟩ 16 = some n ∧ n.store.IsAnchored ∧
      (let d := n.lateDraft
        let (result, d') := d.importBlock n.rules n.rivalSecond
        result = Outcome.fail (.ancestorDepthExceeded n.rivalSecondRoot 1) ∧
          d.view.containsBlock n.rivalSecondRoot = false ∧
          d'.view.containsBlock n.rivalSecondRoot = true ∧
          d.view.bestJustified = ⟨0, n.store.anchorRoot⟩ ∧
          d'.view.bestJustified = ⟨2, n.rivalSecondRoot⟩) ∧
      let d := n.earlyDraft
      let (result, d') := d.importBlock n.rules n.second
      result = Outcome.fail (.ancestorDepthExceeded n.rivalSecondRoot 1) ∧
        d.view.importCount = 3 ∧ d'.view.importCount = 4 ∧
        d.view.finalized = ⟨0, n.store.anchorRoot⟩ ∧ d'.view.finalized = ⟨1, n.firstRoot⟩ := by
  let : HashFunction := Engine.linearHash
  let : SignatureScheme := Bls.scheme
  -- Both imports are computed, from genesis on.
  have hRuns : ((rivalNetwork ⟨1, 32⟩ 16).any fun n =>
      (let d := n.lateDraft
        let (result, d') := d.importBlock n.rules n.rivalSecond
        decide (result = Outcome.fail (.ancestorDepthExceeded n.rivalSecondRoot 1)) &&
          !d.view.containsBlock n.rivalSecondRoot && d'.view.containsBlock n.rivalSecondRoot &&
          decide (d.view.bestJustified = ⟨0, n.store.anchorRoot⟩) &&
          decide (d'.view.bestJustified = ⟨2, n.rivalSecondRoot⟩)) &&
      (let d := n.earlyDraft
        let (result, d') := d.importBlock n.rules n.second
        decide (result = Outcome.fail (.ancestorDepthExceeded n.rivalSecondRoot 1)) &&
          decide (d.view.importCount = 3) && decide (d'.view.importCount = 4) &&
          decide (d.view.finalized = ⟨0, n.store.anchorRoot⟩) &&
          decide (d'.view.finalized = ⟨1, n.firstRoot⟩))) = true := by
    decide +kernel
  obtain ⟨n, hNetwork, hs, -, hRun⟩ := exists_rivalNetwork hRuns
  simp only [Bool.and_eq_true, decide_eq_true_eq, Bool.not_eq_true'] at hRun
  obtain ⟨⟨⟨⟨⟨hLate, hMissing⟩, hKnown⟩, hBest⟩, hBest'⟩,
    ⟨⟨⟨hEarly, hCount⟩, hCount'⟩, hFinal⟩, hFinal'⟩ := hRun
  exact ⟨n, hNetwork, hs, ⟨hLate, hMissing, hKnown, hBest, hBest'⟩,
    hEarly, hCount, hCount', hFinal, hFinal'⟩

theorem exists_of_not_isOk {ε α β : Type} {r : Except ε α × β} (h : r.1.isOk = false) :
    ∃ failure b, r = (.error failure, b) := by
  rcases r with ⟨failure | _, b⟩
  · exact ⟨failure, b, rfl⟩
  · cases h

/-- In the same network, the draft with the block that justifies itself was interrupted, the store of
an engine does not change, and a vote without participants leaves a state at its target. -/
theorem failed_operations_leave_of_rivals :
    letI : HashFunction := Engine.linearHash
    letI : SignatureScheme := Bls.scheme
    ∃ n, rivalNetwork ⟨1, 32⟩ 16 = some n ∧ n.store.IsAnchored ∧
      let d := n.lateDraft
      let e : Engine := { store := d.commit }
      (∃ failure d', d.importBlock n.rules n.rivalSecond = (.error failure, d') ∧
        d.view.Interrupted n.rules n.rivalSecond failure d'.view ∧ d'.view ≠ d.view) ∧
      (∃ failure d', (Draft.ofStore e.store).importBlock n.rules n.rivalSecond =
          (.error failure, d') ∧
        (e.importBlock n.rules ⟨n.rivalSecond, false⟩).run.engine.store = e.store) ∧
      ∃ failure d' state, d.attest n.rules .skip n.emptyVote = (.error failure, d') ∧
        d.view.checkpointState? n.emptyVote.data.target = none ∧
          d'.view = d.view.withCheckpointState n.emptyVote.data.target state := by
  let : HashFunction := Engine.linearHash
  let : SignatureScheme := Bls.scheme
  have hRuns : ((rivalNetwork ⟨1, 32⟩ 16).any fun n =>
      let d := n.lateDraft
      !d.view.containsBlock n.rivalSecondRoot &&
        (d.importBlock n.rules n.rivalSecond).2.view.containsBlock n.rivalSecondRoot &&
        !(d.importBlock n.rules n.rivalSecond).1.isOk &&
        !((Draft.ofStore d.commit).importBlock n.rules n.rivalSecond).1.isOk &&
        !(d.attest n.rules .skip n.emptyVote).1.isOk &&
        ((d.attest n.rules .skip n.emptyVote).2.view.checkpointState?
          n.emptyVote.data.target).isSome &&
        (d.view.checkpointState? n.emptyVote.data.target).isNone) = true := by
    decide +kernel
  obtain ⟨n, hNetwork, hs, -, hRun⟩ := exists_rivalNetwork hRuns
  simp only [Bool.and_eq_true, Bool.not_eq_true', Option.isSome_iff_exists,
    Option.isNone_iff_eq_none] at hRun
  obtain ⟨⟨⟨⟨⟨⟨hMissing, hKnown⟩, hImport⟩, hAgain⟩, hVote⟩, ⟨state, hState⟩⟩, hNoState⟩ := hRun
  obtain ⟨hBlocks, hExact, hEngine, hVotes⟩ := failed_operations_leave n.rules n.lateDraft
  refine ⟨n, hNetwork, hs, ?_, ?_, ?_⟩
  · obtain ⟨failure, d', hResult⟩ := exists_of_not_isOk hImport
    refine ⟨failure, d', hResult, ?_⟩
    rcases hBlocks _ _ _ hResult with hSame | hInterrupted
    · -- The block is in the draft, so that not all is as it was.
      rw [hResult, hSame, hMissing] at hKnown
      cases hKnown
    · exact ⟨hInterrupted, (hExact _ _ _ hInterrupted).1⟩
  · obtain ⟨failure, d', hResult⟩ := exists_of_not_isOk hAgain
    exact ⟨failure, d', hResult, hEngine _ ⟨n.rivalSecond, false⟩ _ _ hResult⟩
  · obtain ⟨failure, d', hResult⟩ := exists_of_not_isOk hVote
    rcases hVotes _ _ _ _ hResult with hSame | ⟨-, state', hView⟩
    · rw [hResult, hSame, hNoState] at hState
      cases hState
    · exact ⟨failure, d', state', hResult, hNoState, hView⟩

end ForkChoice
