import ForkChoice.Proofs.Store.Admission
import ForkChoice.Proofs.Store.Growth

/-!
# ForkChoice — what all states of a store have

A store begins with one state. All others come from it by the rules: the state after a block from
that after its parent, and the state at a checkpoint from that after the block of the checkpoint.
So what the first state has and the rules keep, all states have that a store or a draft ever shows,
whatever has been done and on whatever branch they are.

* `StoreView.StatesHave` — all states of a view have it;
* `StatesHave.checkpointState_draft` — the state at a checkpoint, found or made;
* `stable_statesHave` — no operation brings a state that does not have it,
  `statesHave_of_shows` — all that can be read after genesis.
-/

namespace ForkChoice

theorem StateTransition.Keeps.reaches {t : StateTransition} {P : BeaconState → Prop}
    (hKeeps : t.Keeps P) {s reached : BeaconState} {slot : Slot} (hState : P s)
    (h : t.Reaches s slot reached) : P reached := by
  rcases h with ⟨-, rfl⟩ | ⟨-, hReached⟩
  · exact hState
  · exact hKeeps.processSlots hState hReached

namespace StoreView

/-- The view has the rules of the store `s`, and its states have the property. -/
structure StatesHave (s : Store) (P : BeaconState → Prop) (v : StoreView) : Prop where
  preset : v.preset = s.preset
  config : v.config = s.config
  state : ∀ {root : Root} {state : BeaconState}, v.state? root = some state → P state
  checkpointState : ∀ {c : Checkpoint} {state : BeaconState}, v.checkpointState? c = some state →
    P state

namespace StatesHave

variable {t : StateTransition} {P : BeaconState → Prop} {s : Store} {state : BeaconState}
  {v v' : StoreView} {d : Draft}

theorem of_sameTree (h : StatesHave s P v) (hSame : SameTree v v')
    (hStates : v'.checkpointState? = v.checkpointState?) : StatesHave s P v' where
  preset := hSame.preset.trans h.preset
  config := by
    rw [hSame]
    exact h.config
  state hState := by
    rw [hSame.state?] at hState
    exact h.state hState
  checkpointState hState := by
    rw [hStates] at hState
    exact h.checkpointState hState

theorem withBlock (h : StatesHave s P v) {root : Root} {block : Block} (hState : P state) :
    StatesHave s P (v.withBlock root block state) where
  preset := h.preset
  config := h.config
  state {r} {state'} hSome := by
    by_cases hNew : r = root
    · rw [hNew, withBlock_state?_self, Option.some.injEq] at hSome
      rwa [← hSome]
    · rw [withBlock_state?_of_ne hNew] at hSome
      exact h.state hSome
  checkpointState := h.checkpointState

theorem withCheckpointState (h : StatesHave s P v) {c : Checkpoint} (hState : P state) :
    StatesHave s P (v.withCheckpointState c state) where
  preset := h.preset
  config := h.config
  state := h.state
  checkpointState {c'} {state'} hSome := by
    change (if c = c' then some state else v.checkpointState? c') = some state' at hSome
    split at hSome
    · rwa [← Option.some.inj hSome]
    · exact h.checkpointState hSome

theorem tick (h : StatesHave s P d.view) (time : UInt64) : StatesHave s P (d.tick time).view :=
  h.of_sameTree (d.tick_sameTree time) (d.tick_checkpointState? time)

/-- A state at a checkpoint comes from the state after its block. -/
theorem checkpointState_draft (h : StatesHave s P d.view) (hKeeps : t.Keeps P) (hState : P state)
    (target : Checkpoint) :
    StatesHave s P (d.checkpointState t target state).2.view ∧
      ∀ found, (d.checkpointState t target state).1 = .ok found → P found := by
  rcases d.checkpointState_cases t target state with
    ⟨failure, d', hEnd, hView⟩ | ⟨reached, hEnd, hFound⟩ | ⟨reached, d', hEnd, hView, hReached⟩ <;>
    rw [hEnd]
  · -- The rules fail, or the checkpoint is too far away.
    rw [hView]
    exact ⟨h, fun found hOk => absurd hOk (by simp)⟩
  · -- The state was there before.
    refine ⟨h, fun found hOk => ?_⟩
    rw [← Except.ok.inj hOk]
    exact h.checkpointState hFound
  · -- The state is made, and stored.
    have hNew := hKeeps.reaches hState hReached
    rw [hView]
    refine ⟨h.withCheckpointState hNew, fun found hOk => ?_⟩
    rwa [← Except.ok.inj hOk]

variable [HashFunction]

theorem importBlock (h : StatesHave s P d.view) (hKeeps : t.Keeps P) (b : Block) :
    StatesHave s P (d.importBlock t b).2.view := by
  rcases d.importBlock_cases t b with
    ⟨hSame, -⟩ | ⟨root, parentState, state, hAdmitted, hApplied, hDraft, -⟩
  · rw [hSame]
    exact h
  · obtain ⟨-, -, hParent, -⟩ := admitBlock_eq_fresh.mp hAdmitted
    have hState := hKeeps.applyBlock (h.state hParent) hApplied
    have hInserted : StatesHave s P (d.countApplyBlock.insertBlock root b state).view := by
      rw [Draft.insertBlock_view, Draft.countApplyBlock_view]
      exact h.withBlock hState
    -- The checkpoints that move afterwards are no states.
    have hChecked :=
      (d.countApplyBlock.insertBlock root b state).updateCheckpoints_rejustified state
    rw [hDraft]
    exact hInserted.of_sameTree hChecked.view.sameTree (by rw [hChecked.view])

theorem attest [SignatureScheme] (h : StatesHave s P d.view) (hKeeps : t.Keeps P)
    (check : SignatureCheck) (a : Attestation) : StatesHave s P (d.attest t check a).2.view := by
  unfold Draft.attest
  split
  · exact h
  · rename_i targetState hVote
    obtain ⟨-, -, -, hTarget, -⟩ := admitVote_eq_ok.mp hVote
    have hCached := (h.checkpointState_draft hKeeps (h.state hTarget) a.data.target).1
    split
    · rename_i hEnd
      rwa [hEnd] at hCached
    · rename_i hEnd
      rw [hEnd] at hCached
      split
      · exact hCached
      · -- Votes are no states.
        rw [Draft.mergeVotes_view]
        exact hCached.of_sameTree rfl rfl

end StatesHave

/-- **All states.** No operation brings a state without a property that the rules keep, whatever its
arguments. -/
theorem stable_statesHave [HashFunction] [SignatureScheme] {t : StateTransition}
    {P : BeaconState → Prop} (s : Store) (hKeeps : t.Keeps P) :
    Draft.Stable t (StatesHave s P) where
  change d c h := by
    cases c with
    | tick time => exact h.tick time
    | block b => exact h.importBlock hKeeps b
    | attestation check a => exact h.attest hKeeps check a
    | discardVotes => exact h.of_sameTree d.discardVotes_sameChain.sameTree rfl
  commit d h := by
    rw [Draft.commit_view]
    exact h.of_sameTree rfl rfl

/-! ## From one state on -/

theorem singleton_checkpointState? {p : Preset} {config : Config} {limits : StoreLimits}
    {time : UInt64} {root : Root} {block : Block} {state : BeaconState} {c : Checkpoint} :
    (Store.singleton p config limits time root block state).view.checkpointState? c =
      if ⟨p.epochAt state.slot, root⟩ = c then some state else none := by
  show ((∅ : Table Checkpoint BeaconState).insert ⟨p.epochAt state.slot, root⟩ state)[c]? = _
  rw [Table.getElem?_insert]
  rfl

variable [HashFunction] {t : StateTransition} {P : BeaconState → Prop} {s : Store} {v : StoreView}
  {root : Root} {block : Block} {origin : BeaconState}

/-- At genesis there is one state, and it is this one that has to have the property. -/
theorem statesHave_of_facts (hFacts : s.Facts root block origin) (hOrigin : P origin) :
    StatesHave s P s.view := by
  obtain ⟨time, hStore⟩ := hFacts.store_eq
  have hView : s.view =
      (Store.singleton s.preset s.config s.limits time root block origin).view :=
    congrArg Store.view hStore
  exact {
    preset := rfl
    config := rfl
    state := by
      intro r state hSome
      rw [hView, singleton_state?, Option.ite_none_right_eq_some] at hSome
      rwa [← Option.some.inj hSome.2]
    checkpointState := by
      intro c state hSome
      rw [hView, singleton_checkpointState?, Option.ite_none_right_eq_some] at hSome
      rwa [← Option.some.inj hSome.2] }

/-- All states that can be read after genesis have what the first one has and the rules keep. -/
theorem statesHave_of_shows [SignatureScheme] (hKeeps : t.Keeps P)
    (hFacts : s.Facts root block origin) (hOrigin : P origin) (hv : s.Shows t v) :
    StatesHave s P v :=
  (stable_statesHave s hKeeps).shows (statesHave_of_facts hFacts hOrigin) hv

end StoreView

end ForkChoice
