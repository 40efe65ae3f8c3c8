import ForkChoice.Proofs.Store.Faults
import ForkChoice.Proofs.Store.Frame
import ForkChoice.Proofs.Store.States

/-!
# ForkChoice — states at checkpoints

A vote is checked at the state of its target, which is the state after the target block, moved on to
the first slot of the epoch. This state is stored, also if the vote is refused afterwards, and
anyone may choose the target. A state that is stored is then used without the checks that came
before it was made, among them the bound on slots without a block.

Nothing can be gained by that. The state after a block does not change, and neither do the bounds,
so whatever has been made once would be made again: this is the invariant. A draft whose stored
states are taken away therefore gives the same answer to every attestation, errors included, and
records the same votes.

* `StoreView.recompute` — the state at a checkpoint if none is stored;
* `StoreView.Recomputable` — the states that are stored would be made again;
* `Draft.withoutCheckpointStates`, `Draft.core` — a draft without its stored states;
* `stable_recomputed` — the invariant;
* `StoreView.Transparent`, `transparent_of_shows` — what follows after genesis.
-/

namespace ForkChoice

open StoreView

variable {t : StateTransition} {v v' : StoreView} {d d' : Draft} {root : Root}
  {target : Checkpoint} {block : Block} {state after made : BeaconState}

namespace StoreView

/-! ## States that would be made again -/

/-- The state at a checkpoint from the state after its block, if none is stored. -/
def recompute (v : StoreView) (t : StateTransition) (target : Checkpoint)
    (targetState : BeaconState) : Outcome StoreError BeaconState :=
  let targetSlot := v.preset.startSlot target.epoch
  if targetSlot ≤ targetState.slot then .ok targetState
  else do
    let last ← Word.add targetState.slot v.limits.maxEmptySlots
    if last < targetSlot then
      Outcome.fail (.tooManyEmptySlots targetState.slot v.limits.maxEmptySlots targetSlot)
    else (t.processSlots targetState targetSlot).mapError .transition

/-- What is made is the state after the block, moved on to the epoch if it is not there yet. -/
theorem reaches_of_recompute (h : v.recompute t target after = .ok made) :
    t.Reaches after (v.preset.startSlot target.epoch) made := by
  unfold recompute at h
  dsimp only at h
  split at h
  · rename_i hThere
    cases h
    exact Or.inl ⟨hThere, rfl⟩
  · rename_i hEarlier
    simp only [bind_eq_ok, Outcome.guard_eq_ok, Outcome.mapError_eq_ok] at h
    obtain ⟨last, -, -, hReached⟩ := h
    exact Or.inr ⟨UInt64.not_le.mp hEarlier, hReached⟩

/-- Nothing but the rules and the bound matters. -/
theorem recompute_congr (hPreset : v'.preset = v.preset) (hLimits : v'.limits = v.limits) :
    v'.recompute t target after = v.recompute t target after := by
  unfold recompute
  rw [hPreset, hLimits]

/-- The block of each checkpoint that has a state is known, and the state would be made again. -/
def Recomputable (t : StateTransition) (v : StoreView) : Prop :=
  ∀ c made, v.checkpointState? c = some made →
    ∃ after, v.state? c.root = some after ∧ v.recompute t c after = .ok made

namespace Recomputable

theorem of_sameTree (h : v.Recomputable t) (hSame : SameTree v v')
    (hStates : v'.checkpointState? = v.checkpointState?) : v'.Recomputable t := by
  intro c made hMade
  rw [hStates] at hMade
  obtain ⟨after, hAfter, hAgain⟩ := h c made hMade
  refine ⟨after, by rw [hSame.state?, hAfter], ?_⟩
  rw [recompute_congr hSame.preset hSame.limits, hAgain]

/-- A new block has no state yet that could be replaced. -/
theorem withBlock (h : v.Recomputable t) (hNew : v.state? root = none) :
    (v.withBlock root block state).Recomputable t := by
  intro c made hMade
  obtain ⟨after, hAfter, hAgain⟩ := h c made hMade
  have hOther : c.root ≠ root := by
    intro hSame
    rw [hSame, hNew] at hAfter
    exact absurd hAfter (by simp)
  exact ⟨after, by rw [withBlock_state?_of_ne hOther, hAfter], hAgain⟩

/-- A state that is stored when it is made would be made again. -/
theorem withCheckpointState (h : v.Recomputable t) (hAfter : v.state? target.root = some after)
    (hMade : v.recompute t target after = .ok made) :
    (v.withCheckpointState target made).Recomputable t := by
  intro c found hFound
  change (if target = c then some made else v.checkpointState? c) = some found at hFound
  split at hFound
  · rename_i hSame
    subst hSame
    rw [← Option.some.inj hFound]
    exact ⟨after, hAfter, hMade⟩
  · exact h c found hFound

end Recomputable

end StoreView

/-! ## Looking a state up -/

namespace Draft

theorem checkpointState_of_miss (hMiss : d.view.checkpointState? target = none) :
    (d.checkpointState t target after).1 = d.view.recompute t target after := by
  unfold checkpointState recompute
  rw [hMiss]
  dsimp only
  split
  · rfl
  · -- The sum, the bound and the rules are looked at in the same order on both sides.
    cases Word.add after.slot d.view.limits.maxEmptySlots with
    | error reason => rfl
    | ok last =>
      show _ = if _ then _ else _
      dsimp only
      split
      · rfl
      · split
        · rename_i hFails
          rw [hFails]
          rfl
        · rename_i hReached
          rw [hReached]
          rfl

/-- **Found or made.** Whether the state at a checkpoint is stored or not makes no difference to
what is answered. -/
theorem checkpointState_fst (h : d.view.Recomputable t)
    (hAfter : d.view.state? target.root = some after) :
    (d.checkpointState t target after).1 = d.view.recompute t target after := by
  cases hStored : d.view.checkpointState? target with
  | none => exact checkpointState_of_miss hStored
  | some made =>
    obtain ⟨_, hSame, hAgain⟩ := h target made hStored
    cases hAfter.symm.trans hSame
    rw [checkpointState, hStored, hAgain]

/-- Looking up a state stores it if at all as the state that would be made. -/
theorem checkpointState_recomputable (h : d.view.Recomputable t)
    (hAfter : d.view.state? target.root = some after) :
    (d.checkpointState t target after).2.view.Recomputable t := by
  have hAnswer := checkpointState_fst h hAfter
  rcases d.checkpointState_cases t target after with
    ⟨failure, d', hEnd, hView⟩ | ⟨found, hEnd, -⟩ | ⟨made, d', hEnd, hView, -⟩ <;>
    rw [hEnd] at hAnswer ⊢
  · rwa [hView]
  · exact h
  · rw [hView]
    exact h.withCheckpointState hAfter hAnswer.symm

/-! ## Drafts without stored states -/

/-- The draft in which no states at checkpoints are stored. -/
def withoutCheckpointStates (d : Draft) : Draft :=
  { d with
    base := { d.base with checkpointStates := ∅ }
    overlay := { d.overlay with checkpointStates := ∅ } }

/-- A draft apart from the states at checkpoints, and from the count of calls that a stored state
saves. -/
def core (d : Draft) : Draft :=
  { d.withoutCheckpointStates with calls := {} }

@[simp] theorem withoutCheckpointStates_view :
    d.withoutCheckpointStates.view = { d.view with checkpointState? := fun _ => none } :=
  rfl

/-- Where no states are stored, there is none that would not be made again. -/
theorem recomputable_withoutCheckpointStates : d.withoutCheckpointStates.view.Recomputable t :=
  fun _ _ hMade => absurd hMade (by simp)

@[simp] theorem core_view :
    d.core.view = { d.view with checkpointState? := fun _ => none } :=
  rfl

@[simp] theorem core_withoutCheckpointStates : d.withoutCheckpointStates.core = d.core :=
  rfl

/-- Drafts with the same core show the same but for the states at checkpoints. -/
theorem view_of_core (h : d.core = d'.core) :
    d'.view = { d.view with checkpointState? := d'.view.checkpointState? } := by
  have hView := congrArg Draft.view h
  rw [core_view, core_view, StoreView.mk.injEq] at hView
  -- Apart from the states at checkpoints, all fields are equal one by one.
  rw [StoreView.mk.injEq]
  tauto

theorem core_checkpointState : (d.checkpointState t target after).2.core = d.core := by
  have hCached := d.checkpointState_cached t target after
  rw [Cached] at hCached
  rw [hCached]
  rfl

theorem core_mergeVote (message : LatestMessage) (index : ValidatorIndex) :
    (d.mergeVote message index).core = d.core.mergeVote message index := by
  have hVote : d.core.view.latestMessage? index = d.view.latestMessage? index := rfl
  rw [mergeVote, mergeVote, hVote]
  split <;> rfl

/-- Votes are recorded in the core. -/
theorem core_mergeVotes (indices : List ValidatorIndex) (message : LatestMessage) :
    (d.mergeVotes indices message).core = d.core.mergeVotes indices message := by
  unfold mergeVotes
  induction indices generalizing d with
  | nil => rfl
  | cons index rest ih =>
    rw [List.foldl_cons, List.foldl_cons, ih, core_mergeVote]

end Draft

/-! ## Attestations -/

namespace StoreView

/-- What is voted for is checked without any state at a checkpoint. -/
theorem admitVote_of_sameTree (hTree : SameTree v v') (hNow : v'.currentSlot = v.currentSlot)
    (data : AttestationData) : v'.admitVote data = v.admitVote data := by
  unfold admitVote previousEpoch currentEpoch
  rw [hTree.preset, hTree.state?, hTree.block?, hNow]
  simp only [hTree.ancestor_eq]

end StoreView

section

variable [HashFunction]

/-- **Attestations.** Two drafts that are the same but for states that would be made again answer
an attestation alike, and are the same afterwards but for such states. -/
theorem Draft.attest_of_core [SignatureScheme] (hCore : d.core = d'.core) (h : d.view.Recomputable t)
    (h' : d'.view.Recomputable t) (check : SignatureCheck) (a : Attestation) :
    (d'.attest t check a).1 = (d.attest t check a).1 ∧
      (d'.attest t check a).2.core = (d.attest t check a).2.core := by
  have hView := Draft.view_of_core hCore
  have hTree : SameTree d.view d'.view := by
    rw [hView]
    rfl
  have hNow : d'.view.currentSlot = d.view.currentSlot := by
    rw [hView]
    rfl
  unfold Draft.attest
  rw [admitVote_of_sameTree hTree hNow]
  cases hVote : d.view.admitVote a.data with
  | error failure => exact ⟨rfl, hCore.symm⟩
  | ok after =>
    obtain ⟨-, -, -, hTarget, -⟩ := admitVote_eq_ok.mp hVote
    -- The state at the target is the same, found or made.
    have hFound := Draft.checkpointState_fst h hTarget
    have hFound' := Draft.checkpointState_fst h' (hTree.state? ▸ hTarget)
    rw [recompute_congr hTree.preset hTree.limits, ← hFound] at hFound'
    have hLeft : (d.checkpointState t a.data.target after).2.core =
        (d'.checkpointState t a.data.target after).2.core := by
      rw [Draft.core_checkpointState, Draft.core_checkpointState, hCore]
    dsimp only
    generalize d.checkpointState t a.data.target after = x at hFound' hLeft ⊢
    generalize d'.checkpointState t a.data.target after = x' at hFound' hLeft ⊢
    obtain ⟨found, e⟩ := x
    obtain ⟨_, e'⟩ := x'
    cases hFound'
    cases found with
    | error failure => exact ⟨rfl, hLeft.symm⟩
    | ok state =>
      -- So are the participants, and their votes.
      have hParticipants :
          e'.view.admitParticipants check state a = e.view.admitParticipants check state a := by
        rw [Draft.view_of_core hLeft]
        rfl
      dsimp only
      rw [hParticipants]
      split
      · exact ⟨rfl, hLeft.symm⟩
      · exact ⟨rfl, by rw [Draft.core_mergeVotes, Draft.core_mergeVotes, hLeft]⟩

/-! ## The invariant -/

namespace StoreView

/-- The view has grown from the store `s` at genesis, and its states at checkpoints would be made
again. -/
structure Recomputed (s : Store) (v : StoreView) : Prop extends GrownFrom s v where
  recomputable : v.Recomputable (slotTransition s.preset)

variable {s : Store}

theorem Recomputed.importBlock (h : Recomputed s d.view) (b : Block) :
    Recomputed s (d.importBlock (slotTransition s.preset) b).2.view where
  toGrownFrom := h.toGrownFrom.importBlock b
  recomputable := by
    rcases h.importBlock_cases b with
      ⟨hSame, -⟩ | ⟨root, parentState, state, hAdmitted, -, hView, -⟩
    · rw [hSame]
      exact h.recomputable
    · obtain ⟨-, hFresh, -⟩ := admitBlock_eq_fresh.mp hAdmitted
      rw [hView]
      exact h.recomputable.withBlock (h.grown.state?_eq_none hFresh)

theorem Recomputed.attest [SignatureScheme] (h : Recomputed s d.view) (check : SignatureCheck)
    (a : Attestation) : Recomputed s (d.attest (slotTransition s.preset) check a).2.view where
  toGrownFrom := h.toGrownFrom.of_sameChain (d.attest_sameChain _ check a)
  recomputable := by
    unfold Draft.attest
    split
    · exact h.recomputable
    · rename_i after hVote
      obtain ⟨-, -, -, hTarget, -⟩ := admitVote_eq_ok.mp hVote
      have hStored := Draft.checkpointState_recomputable h.recomputable hTarget
      split
      · rename_i hEnd
        rwa [hEnd] at hStored
      · rename_i hEnd
        rw [hEnd] at hStored
        split
        · exact hStored
        · -- Votes are no states.
          rw [Draft.mergeVotes_view]
          exact hStored.of_sameTree rfl rfl

/-- **The invariant.** No operation stores a state that would not be made again, whatever its
arguments. -/
theorem stable_recomputed [SignatureScheme] (s : Store) :
    Draft.Stable (slotTransition s.preset) (Recomputed s) where
  change d c h := by
    cases c with
    | tick time =>
      exact ⟨h.toGrownFrom.tick time,
        h.recomputable.of_sameTree (d.tick_sameTree time) (d.tick_checkpointState? time)⟩
    | block b => exact h.importBlock b
    | attestation check a => exact h.attest check a
    | discardVotes =>
      exact ⟨h.toGrownFrom.of_sameChain d.discardVotes_sameChain,
        h.recomputable.of_sameTree d.discardVotes_sameChain.sameTree rfl⟩
  commit d h := by
    refine ⟨h.toGrownFrom.of_sameChain d.commit_sameChain, ?_⟩
    rw [Draft.commit_view]
    exact h.recomputable.of_sameTree rfl rfl

/-- At genesis the state of the anchor is stored, for the first epoch. -/
theorem recomputed_of_genesis (hs : s.IsGenesis) : Recomputed s s.view where
  toGrownFrom := grownFrom_self hs
  recomputable := by
    obtain ⟨root, block, origin, hFacts⟩ := hs.facts
    obtain ⟨time, hStore⟩ := hFacts.store_eq
    have hView : s.view =
        (Store.singleton s.preset s.config s.limits time root block origin).view :=
      congrArg Store.view hStore
    intro c made hMade
    rw [hView, singleton_checkpointState?, Option.ite_none_right_eq_some] at hMade
    obtain ⟨rfl, hOrigin⟩ := hMade
    cases hOrigin
    have hState : s.view.state? root = some origin := by
      rw [hView]
      exact singleton_state?.trans (if_pos rfl)
    have hThere : s.preset.startSlot (s.preset.epochAt origin.slot) ≤ origin.slot := by
      rw [hFacts.stateSlot]
      cases s.preset <;> decide
    exact ⟨origin, hState, if_pos hThere⟩

/-! ## From genesis on -/

variable [SignatureScheme]

/-- It makes no difference that states at checkpoints are stored. -/
structure Transparent (t : StateTransition) (v : StoreView) : Prop where
  /-- A stored state is the state after the block of the checkpoint, which is known, or what the
  rules make of it at the beginning of the epoch. -/
  stored : ∀ {c : Checkpoint} {made : BeaconState}, v.checkpointState? c = some made →
    ∃ block after, v.block? c.root = some block ∧ v.state? c.root = some after ∧
      t.Reaches after (v.preset.startSlot c.epoch) made
  /-- Every attestation is accepted or refused as it would be without stored states. -/
  answer : ∀ {d : Draft}, d.view = v → ∀ check a,
    (d.attest t check a).1 = (d.withoutCheckpointStates.attest t check a).1
  /-- The same votes are recorded. -/
  votes : ∀ {d : Draft}, d.view = v → ∀ check a index,
    (d.attest t check a).2.view.latestMessage? index =
      (d.withoutCheckpointStates.attest t check a).2.view.latestMessage? index
  /-- Nothing else differs either, but for these states and the count of calls that they save. -/
  rest : ∀ {d : Draft}, d.view = v → ∀ check a,
    (d.attest t check a).2.core = (d.withoutCheckpointStates.attest t check a).2.core

/-- Where stored states would be made again, it makes no difference that they are. -/
theorem Recomputed.transparent (h : Recomputed s v) : v.Transparent (slotTransition s.preset) := by
  have hAlike : ∀ {d : Draft}, d.view = v → ∀ check a,
      (d.attest (slotTransition s.preset) check a).1 =
          (d.withoutCheckpointStates.attest (slotTransition s.preset) check a).1 ∧
        (d.attest (slotTransition s.preset) check a).2.core =
          (d.withoutCheckpointStates.attest (slotTransition s.preset) check a).2.core := by
    rintro d rfl check a
    exact Draft.attest_of_core Draft.core_withoutCheckpointStates
      Draft.recomputable_withoutCheckpointStates h.recomputable check a
  exact {
    stored := by
      intro c made hMade
      obtain ⟨after, hAfter, hAgain⟩ := h.recomputable c made hMade
      obtain ⟨block, hBlock⟩ := h.grown.known hAfter
      exact ⟨block, after, hBlock, hAfter, reaches_of_recompute hAgain⟩
    answer := fun hView check a => (hAlike hView check a).1
    votes := fun hView check a index => by
      rw [Draft.view_of_core (hAlike hView check a).2]
    rest := fun hView check a => (hAlike hView check a).2 }

/-- **States at checkpoints.** In every store that comes from genesis and in every draft of it, each
state at a checkpoint is the state after a known block, moved on to the epoch if it is not there
yet, and every attestation has the answer and records the votes that it would without such states. -/
theorem transparent_of_shows {s : Store} (hs : s.IsGenesis)
    (hv : s.Shows (slotTransition s.preset) v) : v.Transparent (slotTransition s.preset) :=
  ((stable_recomputed s).shows (recomputed_of_genesis hs) hv).transparent

end StoreView

end

/-- A vote of the second epoch comes one slot too early. It is refused, but the state at its target
stays, and is what the vote is checked at in the next slot. -/
theorem transparent_of_earlyVote :
    letI : HashFunction := Engine.linearHash
    letI : SignatureScheme := Bls.scheme
    ∃ (n : Engine.ChainedNetwork) (d : Draft),
      Engine.chainedNetwork = some n ∧ n.store.IsGenesis ∧
        n.store.Shows (slotTransition n.store.preset) d.view ∧
          (d.view.checkpointState? n.laterVote.data.target).isSome = true ∧
            ((n.afterFirst n.store 48).attest (slotTransition n.store.preset) .skip
              n.laterVote).1.isOk = false ∧
            (d.attest (slotTransition n.store.preset) .skip n.laterVote).1.isOk = true ∧
              d.view.Transparent (slotTransition n.store.preset) := by
  let : HashFunction := Engine.linearHash
  let : SignatureScheme := Bls.scheme
  let changes (n : Engine.ChainedNetwork) : List Change :=
    [.tick 48, .block n.first, .attestation .skip n.laterVote, .tick 54]
  let draft (n : Engine.ChainedNetwork) : Draft :=
    (Draft.ofStore n.store).changeAll (slotTransition n.store.preset) (changes n)
  have hRuns : (Engine.chainedNetwork.any fun n =>
      ((draft n).view.checkpointState? n.laterVote.data.target).isSome &&
        !((n.afterFirst n.store 48).attest (slotTransition n.store.preset) .skip
          n.laterVote).1.isOk &&
          ((draft n).attest (slotTransition n.store.preset) .skip n.laterVote).1.isOk) = true := by
    decide +kernel
  obtain ⟨n, hNetwork, hs, hRun⟩ := Engine.exists_chainedNetwork hRuns
  simp only [Bool.and_eq_true, Bool.not_eq_true'] at hRun
  obtain ⟨⟨hStored, hEarly⟩, hOk⟩ := hRun
  have hShows : n.store.Shows (slotTransition n.store.preset) (draft n).view :=
    ⟨[], Or.inr ⟨changes n, rfl⟩⟩
  exact ⟨n, draft n, hNetwork, hs, hShows, hStored, hEarly, hOk, transparent_of_shows hs hShows⟩

end ForkChoice
