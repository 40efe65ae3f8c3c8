import ForkChoice.Proofs.Store.Draft

/-!
# ForkChoice — what is checked of an attestation

An attestation is admitted in two parts. What it votes for is checked against the blocks that are
known and the clock; who takes part is checked against the state at its target. Signatures come
last: an attestation that passes without the check of its signature passes with it exactly if the
signature is right, and the outcome is the same in both cases.

* `admitVote_eq_ok`, `admitParticipants_eq_ok` — the two parts;
* `SignatureCheck.all_perform`, `IndexedAttestation.validate_eq_ok` — the part of signatures;
* `Draft.checkpointState_cases` — the state at the target;
* `Draft.attest_eq_ok` — an attestation that is accepted, `Draft.attest_perform_iff` — the same
  attestation when its signature is checked.
-/

namespace ForkChoice

/-! ## What is voted for -/

namespace StoreView

variable {v : StoreView}

/-- **Admission.** A vote is admitted if its target is that of its slot, of this epoch or the one
before, and not later than the clock, if target and block are known, and if the target is the last
block up to the beginning of its epoch on the chain of a block that is not later than the vote. -/
theorem admitVote_eq_ok {data : AttestationData} {targetState : BeaconState} :
    v.admitVote data = .ok targetState ↔
      data.target.epoch ≤ v.currentEpoch ∧ v.previousEpoch ≤ data.target.epoch ∧
        data.target.epoch = v.preset.epochAt data.slot ∧
          v.state? data.target.root = some targetState ∧
            v.preset.startSlot data.target.epoch ≤ v.currentSlot ∧
              ∃ block, v.block? data.blockRoot = some block ∧ block.slot ≤ data.slot ∧
                v.preset.epochAt block.slot ≤ data.target.epoch ∧
                  v.ancestor data.blockRoot (v.preset.startSlot data.target.epoch) =
                    .ok (some data.target.root) := by
  simp only [admitVote, Outcome.guard_eq_ok, UInt64.not_lt, Classical.not_not, ne_eq]
  cases hTarget : v.state? data.target.root with
  | none => simp
  | some state =>
    cases hBlock : v.block? data.blockRoot with
    | none => simp
    | some block =>
      simp only [Outcome.guard_eq_ok, bind_eq_ok, UInt64.not_lt, Classical.not_not, pure_eq_ok,
        Option.some.injEq]
      constructor
      · rintro ⟨hNow, hOld, hEpoch, hPast, hSlot, hBefore, ancestor, hAncestor, rfl, rfl⟩
        exact ⟨hNow, hOld, hEpoch, rfl, hPast, block, rfl, hSlot, hBefore, hAncestor⟩
      · rintro ⟨hNow, hOld, hEpoch, rfl, hPast, _, rfl, hSlot, hBefore, hAncestor⟩
        exact ⟨hNow, hOld, hEpoch, hPast, hSlot, hBefore, _, hAncestor, rfl, rfl⟩

end StoreView

/-! ## Who takes part -/

theorem pairwise_of_isStrictlyAscending {indices : List UInt64}
    (h : isStrictlyAscending indices = true) : indices.Pairwise (· < ·) := by
  induction indices with
  | nil => exact .nil
  | cons first rest ih =>
    cases rest with
    | nil => exact List.pairwise_singleton _ _
    | cons second rest =>
      rw [isStrictlyAscending, Bool.and_eq_true, decide_eq_true_eq] at h
      have hRest := ih h.2
      refine List.pairwise_cons.mpr ⟨?_, hRest⟩
      intro later hMem
      rcases List.mem_cons.mp hMem with rfl | hMem
      · exact h.1
      · exact UInt64.lt_trans h.1 (List.rel_of_pairwise_cons hRest hMem)

theorem isStrictlyAscending_of_pairwise {indices : List UInt64} (h : indices.Pairwise (· < ·)) :
    isStrictlyAscending indices = true := by
  induction indices with
  | nil => rfl
  | cons first rest ih =>
    obtain ⟨hFirst, hRest⟩ := List.pairwise_cons.mp h
    cases rest with
    | nil => rfl
    | cons second rest =>
      rw [isStrictlyAscending, Bool.and_eq_true, decide_eq_true_eq]
      exact ⟨hFirst second List.mem_cons_self, ih hRest⟩

namespace SignatureCheck

variable [SignatureScheme] {message : Root} {signature : SignatureBytes}
  {keys : Unit → Except ValidationError (List SignatureScheme.PublicKey)} {kind : SignatureKind}

/-- A check that is performed reads the signature and the keys. -/
theorem all_perform :
    perform.all message signature keys kind = .ok () ↔
      ∃ decoded, SignatureScheme.readSignature signature = .ok decoded ∧
        ∃ found, keys () = .ok found ∧ SignatureScheme.verifyAll decoded message found = true := by
  simp only [all, bind_eq_ok, mapError_eq_ok]
  refine exists_congr fun decoded => and_congr_right fun _ => ?_
  refine exists_congr fun found => and_congr_right fun _ => ?_
  cases SignatureScheme.verifyAll decoded message found <;> simp

end SignatureCheck

section

variable [HashFunction]

theorem BeaconState.attestingIndices_eq_ok {p : Preset} {s : BeaconState} {data : AttestationData}
    {bits : AggregationBits} {indices : List ValidatorIndex} :
    s.attestingIndices p data bits = .ok indices ↔
      ∃ committee, s.committee p data.slot data.index = .ok committee ∧
        committee.length = bits.length ∧
          (bits.bits.zip committee).filterMap (fun (bit, index) => if bit then some index else none)
            = indices := by
  simp only [attestingIndices, bind_eq_ok, Outcome.guard_eq_ok, pure_eq_ok, Classical.not_not,
    ne_eq]

variable [SignatureScheme]

theorem IndexedAttestation.validate_eq_ok {p : Preset} {config : Config} {s : BeaconState}
    {a : IndexedAttestation} {check : SignatureCheck} :
    a.validate p config s check true = .ok () ↔
      a.attestingIndices ≠ [] ∧ isStrictlyAscending a.attestingIndices = true ∧
        check.all (a.data.signingRoot p config s) a.signature
          (fun _ => a.attestingIndices.mapM s.readKey) .attestation = .ok () := by
  unfold validate
  split
  · rename_i hEmpty
    simp [List.isEmpty_iff.mp hEmpty]
  · rename_i hSome
    rw [List.isEmpty_iff] at hSome
    split <;> simp_all

/-- **Participants** are accepted if the slot of the attestation is over, if the state tells the
committee, and if there are any, none of them twice; then the signature is checked. -/
theorem StoreView.admitParticipants_eq_ok {v : StoreView} {check : SignatureCheck}
    {state : BeaconState} {a : Attestation} {indices : List ValidatorIndex} :
    v.admitParticipants check state a = .ok indices ↔
      (∃ next, Word.add a.data.slot 1 = .ok next ∧ next ≤ v.currentSlot) ∧
        ∃ members, state.attestingIndices v.preset a.data a.aggregationBits = .ok members ∧
          indices = members.mergeSort (fun i j => decide (i ≤ j)) ∧
            indices ≠ [] ∧ isStrictlyAscending indices = true ∧
              check.all (a.data.signingRoot v.preset v.config state) a.signature
                (fun _ => indices.mapM state.readKey) .attestation = .ok () := by
  simp only [admitParticipants, bind_eq_ok, Checked.liftM_eq, Checked.toOutcome_eq_ok,
    Outcome.guard_eq_ok, Outcome.mapError_eq_ok, BeaconState.indexed, pure_eq_ok, UInt64.not_lt]
  constructor
  · rintro ⟨next, hNext, hPast, indexed, ⟨members, hMembers, rfl⟩, h⟩
    refine ⟨⟨next, hNext, hPast⟩, members, hMembers, ?_⟩
    split at h
    · exact absurd h Outcome.fail_ne_ok
    · rename_i hValid
      cases h
      exact ⟨rfl, IndexedAttestation.validate_eq_ok.mp hValid⟩
  · rintro ⟨⟨next, hNext, hPast⟩, members, hMembers, rfl, hValid⟩
    refine ⟨next, hNext, hPast, _, ⟨members, hMembers, rfl⟩, ?_⟩
    rw [IndexedAttestation.validate_eq_ok.mpr hValid]
    rfl

end

/-! ## The state at the target -/

/-- A state that has been moved on to a slot, if it was not there yet. -/
def StateTransition.Reaches (t : StateTransition) (state : BeaconState) (slot : Slot)
    (reached : BeaconState) : Prop :=
  (slot ≤ state.slot ∧ reached = state) ∨
    (state.slot < slot ∧ t.processSlots state slot = .ok reached)

namespace Draft

/-- **The state at a checkpoint** is found or made. If it is made, it is the state after the block
of the checkpoint at the beginning of the epoch, and it is found from then on. -/
theorem checkpointState_cases (t : StateTransition) (d : Draft) (target : Checkpoint)
    (targetState : BeaconState) :
    (∃ failure d', d.checkpointState t target targetState = (.error failure, d') ∧
      d'.view = d.view) ∨
    (∃ state, d.checkpointState t target targetState = (.ok state, d) ∧
      d.view.checkpointState? target = some state) ∨
    ∃ state d', d.checkpointState t target targetState = (.ok state, d') ∧
      d'.view = d.view.withCheckpointState target state ∧
        t.Reaches targetState (d.view.preset.startSlot target.epoch) state := by
  unfold checkpointState
  split
  · rename_i state hFound
    exact Or.inr (Or.inl ⟨state, rfl, hFound⟩)
  · dsimp only
    split
    · rename_i hThere
      exact Or.inr (Or.inr ⟨_, _, rfl, d.insertCheckpointState_view _ _, Or.inl ⟨hThere, rfl⟩⟩)
    · rename_i hEarlier
      split
      · exact Or.inl ⟨_, _, rfl, rfl⟩
      · split
        · exact Or.inl ⟨_, _, rfl, rfl⟩
        · split
          · exact Or.inl ⟨_, _, rfl, rfl⟩
          · rename_i state hReached
            exact Or.inr (Or.inr ⟨state, _, rfl, d.countProcessSlots.insertCheckpointState_view _ _,
              Or.inr ⟨UInt64.not_le.mp hEarlier, hReached⟩⟩)

section

variable [HashFunction] [SignatureScheme] {t : StateTransition} {d d' : Draft}
  {check : SignatureCheck} {a : Attestation} {indices : List ValidatorIndex}

/-- **An attestation that is accepted** is admitted for the blocks and at the state of its
target, and then its votes are recorded. -/
theorem attest_eq_ok :
    d.attest t check a = (.ok indices, d') ↔
      ∃ targetState, d.view.admitVote a.data = .ok targetState ∧
        ∃ state cached, d.checkpointState t a.data.target targetState = (.ok state, cached) ∧
          cached.view.admitParticipants check state a = .ok indices ∧
            cached.mergeVotes indices a.data.message = d' := by
  unfold attest
  cases d.view.admitVote a.data with
  | error failure => simp
  | ok targetState =>
    dsimp only
    rcases hState : d.checkpointState t a.data.target targetState with ⟨_ | state, cached⟩
    · simp [hState]
    · dsimp only
      constructor
      · intro h
        split at h
        · cases h
        · rename_i hParticipants
          cases h
          exact ⟨targetState, rfl, state, cached, hState, hParticipants, rfl⟩
      · rintro ⟨_, hTarget, state', cached', hSame, hParticipants, rfl⟩
        cases hTarget
        cases hState.symm.trans hSame
        rw [hParticipants]

/-- **Signatures last.** An attestation that is accepted without the check of its signature is
accepted with it exactly if its signature is right, and the same votes are recorded then. -/
theorem attest_perform_iff (h : d.attest t .skip a = (.ok indices, d')) :
    ∃ targetState state cached, d.view.admitVote a.data = .ok targetState ∧
      d.checkpointState t a.data.target targetState = (.ok state, cached) ∧
        (∃ members,
          state.attestingIndices cached.view.preset a.data a.aggregationBits = .ok members ∧
            indices = members.mergeSort fun i j => decide (i ≤ j)) ∧
            isStrictlyAscending indices = true ∧
              ∀ credited d'', d.attest t .perform a = (.ok credited, d'') ↔
                credited = indices ∧ d'' = d' ∧
                  SignatureCheck.perform.all
                    (a.data.signingRoot cached.view.preset cached.view.config state) a.signature
                    (fun _ => indices.mapM state.readKey) .attestation = .ok () := by
  obtain ⟨targetState, hVote, state, cached, hCached, hParticipants, hEnd⟩ := attest_eq_ok.mp h
  obtain ⟨hPast, members, hMembers, hSorted, hSome, hAscending, -⟩ :=
    StoreView.admitParticipants_eq_ok.mp hParticipants
  refine ⟨targetState, state, cached, hVote, hCached, ⟨members, hMembers, hSorted⟩, hAscending, ?_⟩
  intro credited d''
  constructor
  · intro hPerform
    -- All that comes before the signature is as it was.
    obtain ⟨_, hVote', _, _, hCached', hParticipants', hEnd'⟩ := attest_eq_ok.mp hPerform
    cases hVote.symm.trans hVote'
    cases hCached.symm.trans hCached'
    obtain ⟨-, _, hMembers', hSorted', -, -, hCheck⟩ :=
      StoreView.admitParticipants_eq_ok.mp hParticipants'
    cases hMembers.symm.trans hMembers'
    obtain rfl : credited = indices := hSorted'.trans hSorted.symm
    exact ⟨rfl, hEnd'.symm.trans hEnd, hCheck⟩
  · rintro ⟨rfl, rfl, hCheck⟩
    exact attest_eq_ok.mpr ⟨targetState, hVote, state, cached, hCached,
      StoreView.admitParticipants_eq_ok.mpr
        ⟨hPast, members, hMembers, hSorted, hSome, hAscending, hCheck⟩, hEnd⟩

end

end Draft

end ForkChoice
