import ForkChoice.Proofs.Store.Draft

/-!
# ForkChoice — why a block or an attestation is refused

A refusal is final or not. The reasons that may pass are few, and each tells what is missing: a
block is too early only if its parent is known, because the parent is looked up first, and what is
reported as unknown is not known. All other reasons are final.

* `Failure.IsFinal` — a fault, or a reason that does not pass;
* `admitBlock_error`, `Draft.importBlock_error` — the reasons for refusing a block;
* `admitVote_error`, `Draft.attest_error` — the reasons for refusing an attestation;
* `Draft.importBlock_imported`, `Draft.importBlock_known` — what an import leaves that is not
  refused.
-/

namespace ForkChoice

/-- A fault, or a reason for a refusal that does not pass. -/
def Failure.IsFinal (failure : Failure StoreError) : Prop :=
  ∀ reason, failure = .error reason → reason.isDelayable = false

namespace Failure.IsFinal

theorem fault (reason : Fault) : IsFinal (.fault reason) :=
  fun _ h => nomatch h

theorem error {reason : StoreError} (h : reason.isDelayable = false) : IsFinal (.error reason) := by
  intro reason' hSame
  cases hSame
  exact h

/-- Whatever the rules report, it is final. -/
theorem transition (failure : Failure TransitionError) : IsFinal (failure.map .transition) := by
  cases failure with
  | fault reason => exact fault reason
  | error reason => exact error rfl

/-- A computation that is lifted fails by faults only. -/
theorem of_toOutcome {α : Type} {c : Checked α} {failure : Failure StoreError}
    (h : (c.toOutcome : Outcome StoreError α) = .error failure) : failure.IsFinal := by
  cases c with
  | ok a => cases h
  | error reason =>
    cases h
    exact fault reason

theorem of_ancestor {v : StoreView} {root : Root} {slot : Slot} {failure : Failure StoreError}
    (h : v.ancestor root slot = .error failure) : failure.IsFinal := by
  unfold StoreView.ancestor at h
  split at h
  · cases h
  · cases h
    exact error rfl

end Failure.IsFinal

open Failure.IsFinal

namespace StoreView

variable {v : StoreView} {failure : Failure StoreError}

/-! ## Blocks -/

/-- A block that may become acceptable later: its parent is not known, or it is early. -/
inductive BlockDelay (v : StoreView) (b : Block) : Failure StoreError → Prop
  | parent (root : Root) (h : v.state? b.parentRoot = none) :
    BlockDelay v b (.error (.noParentBlock root b.parentRoot))
  | slot {state : BeaconState} (hParent : v.state? b.parentRoot = some state)
    (h : v.currentSlot < b.slot) : BlockDelay v b (.error (.blockInFuture b.slot v.currentSlot))

/-- **Early blocks.** Among the checks before a block is applied, the one for its parent comes
before the one for its slot. -/
theorem admitBlock_error [HashFunction] {b : Block} (h : v.admitBlock b = .error failure) :
    failure.IsFinal ∨ v.BlockDelay b failure := by
  rw [admitBlock, bind_eq_error] at h
  rcases h with h | ⟨root, -, h⟩
  · exact Or.inl (of_toOutcome h)
  split at h
  · exact absurd h pure_ne_error
  -- Without the parent nothing else is looked at.
  cases hParent : v.state? b.parentRoot with
  | none =>
    rw [hParent] at h
    cases h
    exact Or.inr (.parent root hParent)
  | some parentState =>
    simp only [hParent, Outcome.guard_eq_error, bind_eq_error, pure_ne_error, and_false,
      or_false] at h
    rcases h with ⟨hFuture, rfl⟩ | ⟨-, ⟨-, rfl⟩ | ⟨-, hAncestor | ⟨ancestor, -, h⟩⟩⟩
    · exact Or.inr (.slot hParent hFuture)
    · exact Or.inl (error rfl)
    · exact Or.inl (of_ancestor hAncestor)
    · rcases h with ⟨-, rfl⟩ | ⟨-, hLast | ⟨last, -, -, rfl⟩⟩
      · exact Or.inl (error rfl)
      · exact Or.inl (of_toOutcome hLast)
      · exact Or.inl (error rfl)

/-! ## Attestations -/

/-- An attestation that may become acceptable later: it is early, or it votes for a block that is
not known, or its target is not known. -/
inductive VoteDelay (v : StoreView) : Failure StoreError → Prop
  | early (attestation current : Slot) :
    VoteDelay v (.error (.earlyForkChoiceConsideration attestation current))
  | block {root : Root} (h : v.block? root = none) : VoteDelay v (.error (.unknownBlockRoot root))
  | target {root : Root} (h : v.state? root = none) : VoteDelay v (.error (.unknownTargetRoot root))

theorem admitVote_error {data : AttestationData} (h : v.admitVote data = .error failure) :
    failure.IsFinal ∨ v.VoteDelay failure := by
  simp only [admitVote, Outcome.guard_eq_error] at h
  rcases h with ⟨-, rfl⟩ | ⟨-, ⟨-, rfl⟩ | ⟨-, ⟨-, rfl⟩ | ⟨-, h⟩⟩⟩
  · exact Or.inr (.early _ _)
  · exact Or.inl (error rfl)
  · exact Or.inl (error rfl)
  cases hTarget : v.state? data.target.root with
  | none =>
    rw [hTarget] at h
    cases h
    exact Or.inr (.target hTarget)
  | some targetState =>
    simp only [hTarget, Outcome.guard_eq_error] at h
    rcases h with ⟨-, rfl⟩ | ⟨-, h⟩
    · exact Or.inr (.early _ _)
    cases hBlock : v.block? data.blockRoot with
    | none =>
      rw [hBlock] at h
      cases h
      exact Or.inr (.block hBlock)
    | some block =>
      simp only [hBlock, Outcome.guard_eq_error, bind_eq_error, pure_ne_error, and_false,
        or_false] at h
      rcases h with ⟨-, rfl⟩ | ⟨-, ⟨-, rfl⟩ | ⟨-, hAncestor | ⟨ancestor, -, -, rfl⟩⟩⟩
      · exact Or.inl (error rfl)
      · exact Or.inl (error rfl)
      · exact Or.inl (of_ancestor hAncestor)
      · exact Or.inl (error rfl)

theorem admitParticipants_error [HashFunction] [SignatureScheme] {check : SignatureCheck}
    {state : BeaconState} {a : Attestation}
    (h : v.admitParticipants check state a = .error failure) :
    failure.IsFinal ∨ v.VoteDelay failure := by
  rw [admitParticipants, bind_eq_error] at h
  rcases h with h | ⟨next, -, h⟩
  · exact Or.inl (of_toOutcome h)
  rw [Outcome.guard_eq_error] at h
  rcases h with ⟨-, rfl⟩ | ⟨-, h⟩
  · exact Or.inr (.early _ _)
  -- What the state says about the participants is reported as an invalid attestation.
  left
  rw [bind_eq_error] at h
  rcases h with h | ⟨indexed, -, h⟩
  · cases hIndexed : state.indexed v.preset a with
    | ok indexed =>
      rw [hIndexed] at h
      cases h
    | error reason =>
      rw [hIndexed] at h
      cases h
      cases reason with
      | fault reason => exact fault reason
      | error reason => exact error rfl
  · split at h
    · cases h
      exact error rfl
    · exact absurd h pure_ne_error

end StoreView

namespace Draft

open StoreView

variable {t : StateTransition} {d d' : Draft} {failure : Failure StoreError}

/-! ## What is left of an operation -/

theorem updateCheckpoints_error {state : BeaconState}
    (h : (d.updateCheckpoints state).1 = .error failure) : failure.IsFinal := by
  -- Nothing can fail but a walk, and of walks there are two.
  have hFails : ∀ {v : StoreView} {candidate : Checkpoint},
      v.shouldUpdateJustified candidate = .error failure → failure.IsFinal := by
    intro v candidate hUpdate
    unfold shouldUpdateJustified at hUpdate
    split at hUpdate
    · exact absurd hUpdate pure_ne_error
    · simp only [bind_eq_error, pure_ne_error, and_false, exists_false, or_false] at hUpdate
      exact of_ancestor hUpdate
  have hDescends : ∀ {v : StoreView} {justified finalized : Checkpoint},
      v.justifiedDescendsFrom justified finalized = .error failure → failure.IsFinal := by
    intro v justified finalized hWalk
    simp only [justifiedDescendsFrom, bind_eq_error, pure_ne_error, and_false, exists_false,
      or_false] at hWalk
    exact of_ancestor hWalk
  unfold updateCheckpoints at h
  split at h
  · rename_i hJustified
    cases h
    unfold updateJustified at hJustified
    split at hJustified
    · cases hJustified
    · dsimp only at hJustified
      split at hJustified <;> split at hJustified <;> cases hJustified <;> rename_i hUpdate <;>
        exact hFails hUpdate
  · unfold updateFinalized at h
    split at h
    · cases h
    · dsimp only at h
      split at h
      · cases h
      · split at h
        · cases h
        · split at h
          · rename_i hWalk
            cases h
            exact hDescends hWalk
          · cases h

/-- A block that is imported was admitted and applied. All that changes besides is the
checkpoints. -/
theorem importBlock_imported [HashFunction] {b : Block} {root : Root}
    (h : d.importBlock t b = (.ok (.imported root), d')) :
    ∃ parentState state, d.view.admitBlock b = .ok (.fresh root parentState) ∧
      t.applyBlock parentState b = .ok state ∧
        StoreView.Rejustified (d.view.withBlock root b state) d'.view := by
  rcases d.importBlock_cases t b with
    ⟨-, hNot⟩ | ⟨root', parentState, state, hAdmitted, hApplied, hDraft, hRoot⟩
  · exact absurd (congrArg Prod.fst h) (hNot root)
  · cases hRoot root (congrArg Prod.fst h)
    refine ⟨parentState, state, hAdmitted, hApplied, ?_⟩
    have hLeft : d' = ((d.countApplyBlock.insertBlock root b state).updateCheckpoints state).2 := by
      rw [← hDraft, h]
    have hChecked :=
      ((d.countApplyBlock.insertBlock root b state).updateCheckpoints_rejustified state).view
    rwa [insertBlock_view, countApplyBlock_view, ← hLeft] at hChecked

/-- A block that is known already is known under its root. -/
theorem importBlock_known [HashFunction] {b : Block} {root : Root}
    (h : d.importBlock t b = (.ok (.alreadyKnown root), d')) :
    b.treeRoot = .ok root ∧ ∃ block, d.view.block? root = some block := by
  unfold importBlock at h
  split at h
  · cases h
  · rename_i root' hKnown
    cases h
    rw [admitBlock, bind_eq_ok] at hKnown
    obtain ⟨root', hRoot, hKnown⟩ := hKnown
    rw [Checked.liftM_eq, Checked.toOutcome_eq_ok] at hRoot
    split at hKnown
    · rename_i hContains
      cases hKnown
      exact ⟨hRoot, Option.isSome_iff_exists.mp hContains⟩
    · split at hKnown
      · cases hKnown
      · simp only [Outcome.guard_eq_ok, bind_eq_ok, pure_eq_ok, reduceCtorEq, and_false,
          exists_false] at hKnown
  · dsimp only at h
    split at h
    · cases h
    · split at h <;> cases h

/-- **Refused blocks.** Whether a refusal may pass is decided before the block is applied. -/
theorem importBlock_error [HashFunction] {b : Block}
    (h : (d.importBlock t b).1 = .error failure) :
    failure.IsFinal ∨ d.view.BlockDelay b failure := by
  unfold importBlock at h
  split at h
  · rename_i hAdmission
    cases h
    exact admitBlock_error hAdmission
  · cases h
  · left
    dsimp only at h
    split at h
    · cases h
      exact Failure.IsFinal.transition _
    · split at h
      · rename_i hCheckpoints
        cases h
        exact updateCheckpoints_error (congrArg Prod.fst hCheckpoints)
      · cases h

theorem checkpointState_error {target : Checkpoint} {targetState : BeaconState}
    (h : (d.checkpointState t target targetState).1 = .error failure) : failure.IsFinal := by
  unfold checkpointState at h
  split at h
  · cases h
  · dsimp only at h
    split at h
    · cases h
    · split at h
      · cases h
        exact Failure.IsFinal.fault _
      · split at h
        · cases h
          exact Failure.IsFinal.error rfl
        · split at h
          · cases h
            exact Failure.IsFinal.transition _
          · cases h

/-- **Refused attestations.** What is reported as unknown is not known. -/
theorem attest_error [HashFunction] [SignatureScheme] {check : SignatureCheck} {a : Attestation}
    (h : (d.attest t check a).1 = .error failure) :
    failure.IsFinal ∨ d.view.VoteDelay failure := by
  unfold attest at h
  split at h
  · rename_i hVote
    cases h
    exact admitVote_error hVote
  · rename_i targetState _
    have hState := (d.checkpointState_cached t a.data.target targetState).sameChain
    split at h
    · rename_i hFails
      cases h
      exact Or.inl (checkpointState_error (congrArg Prod.fst hFails))
    · rename_i state d'' hFound
      rw [hFound] at hState
      split at h
      · rename_i hParticipants
        cases h
        -- The state that was stored for the target is of no account here.
        rcases admitParticipants_error hParticipants with hFinal | hDelay
        · exact Or.inl hFinal
        · right
          rw [hState] at hDelay
          cases hDelay with
          | early attestation current => exact .early attestation current
          | block hUnknown => exact .block hUnknown
          | target hUnknown => exact .target hUnknown
      · cases h

end Draft

end ForkChoice
