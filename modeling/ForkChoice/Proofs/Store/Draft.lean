import ForkChoice.Proofs.Outcome
import ForkChoice.Proofs.Store.Ancestry
import ForkChoice.Proofs.Table
import ForkChoice.Store.Draft

/-!
# ForkChoice — what a draft shows

Operations are written with what can be read from a draft, so their effect is told by what can be
read afterwards, without a word on how base and overlay are combined. Only an import touches the
tree of blocks; all other operations, the commit among them, leave it as it is.

* `StoreView.SameTree` — two views show the same blocks, states and links;
* `StoreView.SameChain` — they show the same but for votes and the states at checkpoints,
  `StoreView.Rejustified` — but for the three checkpoints;
* `StoreView.withBlock`, `withVote`, `withCheckpointState` — the view with one more of each;
* `admitBlock_eq_fresh` — everything that is checked of a block before it is applied;
* `Draft.importBlock_cases` — an import that changes nothing, and one that adds a block;
* `Draft.tick_cases`, `Draft.attest_cases` — the other operations;
* `Draft.commit_view`, `Draft.ofStore_view` — the end and the beginning of a draft.
-/

namespace ForkChoice

/-! ## The tree in a view -/

namespace StoreView

/-- Both views show the same tree of blocks, under the same rules. They may differ in time, in
checkpoints and in votes. -/
def SameTree (v v' : StoreView) : Prop :=
  v' = { v with
    time := v'.time
    justified := v'.justified
    bestJustified := v'.bestJustified
    finalized := v'.finalized
    checkpointState? := v'.checkpointState?
    latestMessage? := v'.latestMessage? }

namespace SameTree

variable {v v' v'' : StoreView}

theorem refl (v : StoreView) : SameTree v v :=
  rfl

theorem trans (h : SameTree v v') (h' : SameTree v' v'') : SameTree v v'' := by
  unfold SameTree at h'
  rw [h] at h'
  exact h'

theorem preset (h : SameTree v v') : v'.preset = v.preset := by
  rw [h]

theorem limits (h : SameTree v v') : v'.limits = v.limits := by
  rw [h]

theorem anchorRoot (h : SameTree v v') : v'.anchorRoot = v.anchorRoot := by
  rw [h]

theorem importCount (h : SameTree v v') : v'.importCount = v.importCount := by
  rw [h]

theorem block? (h : SameTree v v') : v'.block? = v.block? := by
  rw [h]

theorem state? (h : SameTree v v') : v'.state? = v.state? := by
  rw [h]

theorem children (h : SameTree v v') : v'.children = v.children := by
  rw [h]

theorem view_extends (h : SameTree v v') : Extends v v' := by
  intro r block hBlock
  rw [h.block?]
  exact hBlock

end SameTree

/-- Both views show the same but for votes and the states at checkpoints. -/
def SameChain (v v' : StoreView) : Prop :=
  v' = { v with
    checkpointState? := v'.checkpointState?
    latestMessage? := v'.latestMessage? }

namespace SameChain

variable {v v' v'' : StoreView}

theorem refl (v : StoreView) : SameChain v v :=
  rfl

theorem trans (h : SameChain v v') (h' : SameChain v' v'') : SameChain v v'' := by
  unfold SameChain at h'
  rw [h] at h'
  exact h'

theorem sameTree (h : SameChain v v') : SameTree v v' := by
  rw [h]
  rfl

end SameChain

/-- Both views show the same but for the three checkpoints. -/
def Rejustified (v v' : StoreView) : Prop :=
  v' = { v with
    justified := v'.justified
    bestJustified := v'.bestJustified
    finalized := v'.finalized }

namespace Rejustified

variable {v v' : StoreView}

theorem sameTree (h : Rejustified v v') : SameTree v v' := by
  rw [h]
  rfl

theorem time (h : Rejustified v v') : v'.time = v.time := by
  rw [h]

theorem latestMessage? (h : Rejustified v v') : v'.latestMessage? = v.latestMessage? := by
  rw [h]

end Rejustified

/-- The view with one more block, which is the last child of its parent. -/
def withBlock (v : StoreView) (root : Root) (block : Block) (state : BeaconState) : StoreView :=
  { v with
    importCount := v.importCount + 1
    block? := fun r => if root = r then some block else v.block? r
    state? := fun r => if root = r then some state else v.state? r
    children := fun p => if block.parentRoot = p then v.children p ++ [root] else v.children p }

/-- The view with one more vote, if it goes before the present one. -/
def withVote (v : StoreView) (message : LatestMessage) (index : ValidatorIndex) : StoreView :=
  { v with latestMessage? := fun index' =>
      if index = index' ∧ LatestMessages.replaces message (v.latestMessage? index) then some message
      else v.latestMessage? index' }

/-- The view with one more state at a checkpoint. -/
def withCheckpointState (v : StoreView) (checkpoint : Checkpoint) (state : BeaconState) :
    StoreView :=
  { v with checkpointState? := fun c =>
      if checkpoint = c then some state else v.checkpointState? c }

section

variable {v : StoreView} {r root : Root} {block : Block} {state : BeaconState}

/-- A known block after another one was added is either of the two. -/
theorem withBlock_cases {b : Block} (h : (v.withBlock root block state).block? r = some b) :
    (r = root ∧ b = block) ∨ (r ≠ root ∧ v.block? r = some b) := by
  change (if root = r then some block else v.block? r) = some b at h
  split at h
  · rename_i hr
    exact Or.inl ⟨hr.symm, (Option.some.inj h).symm⟩
  · rename_i hr
    exact Or.inr ⟨Ne.symm hr, h⟩

theorem withBlock_block?_self : (v.withBlock root block state).block? root = some block :=
  if_pos rfl

theorem withBlock_state?_self : (v.withBlock root block state).state? root = some state :=
  if_pos rfl

theorem withBlock_block?_of_ne (h : r ≠ root) :
    (v.withBlock root block state).block? r = v.block? r :=
  if_neg (Ne.symm h)

theorem withBlock_state?_of_ne (h : r ≠ root) :
    (v.withBlock root block state).state? r = v.state? r :=
  if_neg (Ne.symm h)

theorem extends_withBlock (hFresh : v.block? root = none) :
    Extends v (v.withBlock root block state) := by
  intro r b h
  have hNe : r ≠ root := by
    rintro rfl
    rw [hFresh] at h
    exact absurd h (by simp)
  rw [withBlock_block?_of_ne hNe, h]

end

/-- **Admission.** A block is applied if it is not known, its parent is, its slot is neither in
the future nor final nor too far from its parent, and its parent descends from the finalized
block. -/
theorem admitBlock_eq_fresh [HashFunction] {v : StoreView} {b : Block} {root : Root}
    {parentState : BeaconState} :
    v.admitBlock b = .ok (.fresh root parentState) ↔
      b.treeRoot = .ok root ∧ v.block? root = none ∧ v.state? b.parentRoot = some parentState ∧
        b.slot ≤ v.currentSlot ∧ v.finalizedSlot < b.slot ∧
        v.ancestor b.parentRoot v.finalizedSlot = .ok (some v.finalized.root) ∧
        ∃ last, Word.add parentState.slot v.limits.maxEmptySlots = .ok last ∧ b.slot ≤ last := by
  simp only [admitBlock, bind_eq_ok, Checked.liftM_eq, Checked.toOutcome_eq_ok]
  constructor
  · rintro ⟨root', hRoot, h⟩
    -- Whether the block is known is asked first, and then whether its parent is.
    by_cases hKnown : v.containsBlock root'
    · simp [hKnown] at h
    · rw [if_neg hKnown] at h
      cases hParent : v.state? b.parentRoot with
      | none => simp [hParent] at h
      | some s =>
        simp only [hParent, Outcome.guard_eq_ok, bind_eq_ok, Checked.toOutcome_eq_ok] at h
        obtain ⟨hFuture, hFinal, ancestor, hAncestor, hDescends, last, hLast, hGap, hDone⟩ := h
        cases hDone
        refine ⟨hRoot, by simpa [containsBlock] using hKnown, rfl, UInt64.not_lt.mp hFuture,
          UInt64.not_le.mp hFinal, ?_, last, hLast, UInt64.not_lt.mp hGap⟩
        rw [hAncestor, Classical.not_not.mp hDescends]
  · rintro ⟨hRoot, hFresh, hParent, hPast, hFinal, hAncestor, last, hLast, hGap⟩
    refine ⟨root, hRoot, ?_⟩
    rw [if_neg (by simp [containsBlock, hFresh])]
    simp only [hParent, Outcome.guard_eq_ok, bind_eq_ok, Checked.toOutcome_eq_ok]
    exact ⟨UInt64.not_lt.mpr hPast, UInt64.not_le.mpr hFinal, _, hAncestor, by simp, last, hLast,
      UInt64.not_lt.mpr hGap, rfl⟩

end StoreView

/-! ## Single changes -/

theorem childrenIn_append (links links' : List Link) (p : Root) :
    childrenIn (links ++ links') p = childrenIn links p ++ childrenIn links' p := by
  rw [childrenIn, List.filterMap_append]
  rfl

namespace Draft

open StoreView

variable (d : Draft)

@[simp] theorem setTime_view (time : UInt64) :
    (d.setTime time).view = { d.view with time := time } :=
  rfl

@[simp] theorem setJustified_view (c : Checkpoint) :
    (d.setJustified c).view = { d.view with justified := c } :=
  rfl

@[simp] theorem setBestJustified_view (c : Checkpoint) :
    (d.setBestJustified c).view = { d.view with bestJustified := c } :=
  rfl

@[simp] theorem setFinalized_view (c : Checkpoint) :
    (d.setFinalized c).view = { d.view with finalized := c } :=
  rfl

@[simp] theorem countApplyBlock_view : d.countApplyBlock.view = d.view :=
  rfl

@[simp] theorem countProcessSlots_view : d.countProcessSlots.view = d.view :=
  rfl

@[simp] theorem insertBlock_view (root : Root) (block : Block) (state : BeaconState) :
    (d.insertBlock root block state).view = d.view.withBlock root block state := by
  simp only [view, insertBlock, withBlock, List.length_append, List.length_singleton,
    Nat.add_assoc, childrenIn_append, Table.getElem?_insert]
  -- What differs between the two sides is the order in which base and overlay are asked.
  congr 1
  · funext r
    split <;> rfl
  · funext r
    split <;> rfl
  · funext p
    by_cases h : block.parentRoot = p <;> simp [childrenIn, h]

theorem mergeVote_view (message : LatestMessage) (index : ValidatorIndex) :
    (d.mergeVote message index).view = d.view.withVote message index := by
  unfold mergeVote StoreView.withVote
  split
  · rename_i hReplaces
    -- The vote is in the overlay, which is asked first in any case.
    have hVotes : (fun index' =>
        if d.overlay.discardsVotes then (d.overlay.latestMessages.insert index message)[index']?
        else (d.overlay.latestMessages.insert index message)[index']? <|>
          d.base.latestMessages.get? index') =
        fun index' => if index = index' then some message else d.view.latestMessage? index' := by
      funext index'
      rw [Table.getElem?_insert]
      by_cases hSame : index = index'
      · rw [if_pos hSame, if_pos hSame]
        exact ite_self _
      · rw [if_neg hSame, if_neg hSame]
        rfl
    simp only [hReplaces, and_true]
    exact congrArg (fun votes => { d.view with latestMessage? := votes }) hVotes
  · rename_i hStays
    simp only [hStays, Bool.false_eq_true, and_false, if_false]

theorem discardVotes_view :
    d.discardVotes.view = { d.view with latestMessage? := fun _ => none } :=
  rfl

theorem insertCheckpointState_view (checkpoint : Checkpoint) (state : BeaconState) :
    (d.insertCheckpointState checkpoint state).view =
      d.view.withCheckpointState checkpoint state := by
  simp only [view, insertCheckpointState, StoreView.withCheckpointState, Table.getElem?_insert]
  congr 1
  funext c
  split <;> rfl

/-- Recording votes changes nothing but votes. -/
theorem mergeVotes_view (indices : List ValidatorIndex) (message : LatestMessage) :
    (d.mergeVotes indices message).view =
      { d.view with latestMessage? := (d.mergeVotes indices message).view.latestMessage? } := by
  unfold mergeVotes
  induction indices generalizing d with
  | nil => rfl
  | cons index rest ih =>
    rw [List.foldl_cons, ih (d.mergeVote message index), mergeVote_view]
    rfl

theorem mergeVotes_sameChain (indices : List ValidatorIndex) (message : LatestMessage) :
    SameChain d.view (d.mergeVotes indices message).view := by
  rw [mergeVotes_view]
  rfl

theorem discardVotes_sameChain : SameChain d.view d.discardVotes.view :=
  rfl

/-- **A commit shows what the draft showed**, but for the votes, which are laid over those of the
base one by one. -/
theorem commit_view :
    d.commit.view = { d.view with latestMessage? := d.commit.latestMessages.get? } := by
  simp only [Store.view, view, commit, StoreView.mk.injEq, true_and]
  exact ⟨List.length_append, funext (Table.getElem?_union _ _), funext (Table.getElem?_union _ _),
    funext (Table.getElem?_union _ _), funext (childrenIn_append _ _)⟩

theorem commit_sameChain : SameChain d.view d.commit.view := by
  rw [commit_view]
  rfl

/-- A draft without changes shows the store. -/
theorem ofStore_view (s : Store) : (ofStore s).view = s.view := by
  simp only [Store.view, view, ofStore, StoreView.mk.injEq, true_and]
  exact ⟨rfl, rfl, rfl, rfl, rfl, rfl, rfl, rfl, rfl, funext fun p => List.append_nil _⟩

/-! ## Operations -/

/-- Time does not go back, and a better justified checkpoint takes effect only when an epoch
begins. -/
theorem tick_cases (time : UInt64) :
    (time ≤ d.view.time ∧ d.tick time = d) ∨
      (d.view.time < time ∧ d.tick time = d.setTime time) ∨
        (d.view.time < time ∧ d.view.justified.epoch < d.view.bestJustified.epoch ∧
          d.tick time = (d.setTime time).setJustified d.view.bestJustified) := by
  unfold tick
  by_cases hTime : time ≤ d.view.time
  · left
    rw [if_pos hTime]
    exact ⟨hTime, rfl⟩
  · right
    rw [if_neg hTime]
    have hLater := UInt64.not_le.mp hTime
    dsimp only
    -- Without a new slot, without a new epoch or without a better checkpoint, time alone moves.
    split
    · exact Or.inl ⟨hLater, rfl⟩
    · split
      · rename_i hBetter
        exact Or.inr ⟨hLater, hBetter, rfl⟩
      · exact Or.inl ⟨hLater, rfl⟩

theorem tick_sameTree (time : UInt64) : SameTree d.view (d.tick time).view := by
  rcases d.tick_cases time with ⟨-, h⟩ | ⟨-, h⟩ | ⟨-, -, h⟩ <;> rw [h] <;> rfl

theorem tick_checkpointState? (time : UInt64) :
    (d.tick time).view.checkpointState? = d.view.checkpointState? := by
  rcases d.tick_cases time with ⟨-, h⟩ | ⟨-, h⟩ | ⟨-, -, h⟩ <;> rw [h] <;> rfl

theorem time_le_tick (time : UInt64) : d.view.time ≤ (d.tick time).view.time := by
  rcases d.tick_cases time with ⟨-, h⟩ | ⟨hLater, h⟩ | ⟨hLater, -, h⟩ <;> rw [h]
  · exact UInt64.le_refl _
  · exact UInt64.le_of_lt hLater
  · exact UInt64.le_of_lt hLater

/-- Both drafts are the same but for the three checkpoints. -/
def Rejustified (d d' : Draft) : Prop :=
  d' = { d with overlay := { d.overlay with
    justified := d'.overlay.justified
    bestJustified := d'.overlay.bestJustified
    finalized := d'.overlay.finalized } }

namespace Rejustified

variable {d d' d'' : Draft}

theorem refl (d : Draft) : Rejustified d d :=
  rfl

theorem trans (h : Rejustified d d') (h' : Rejustified d' d'') : Rejustified d d'' := by
  unfold Rejustified at h'
  rw [h] at h'
  exact h'

theorem view (h : Rejustified d d') : StoreView.Rejustified d.view d'.view := by
  rw [h]
  rfl

end Rejustified

theorem updateJustified_rejustified (candidate : Checkpoint) :
    Rejustified d (d.updateJustified candidate).2 := by
  unfold updateJustified
  split
  · exact Rejustified.refl _
  · dsimp only
    split
    · split <;> rfl
    · dsimp only
      split <;> split <;> rfl

theorem updateFinalized_rejustified (candidate stateJustified : Checkpoint) :
    Rejustified d (d.updateFinalized candidate stateJustified).2 := by
  unfold updateFinalized
  split
  · exact Rejustified.refl _
  · dsimp only
    split
    · rfl
    · split
      · rfl
      · split
        · rfl
        · dsimp only
          split <;> rfl

theorem updateCheckpoints_rejustified (state : BeaconState) :
    Rejustified d (d.updateCheckpoints state).2 := by
  have hJustified := d.updateJustified_rejustified state.currentJustified
  unfold updateCheckpoints
  split
  · rename_i h
    rwa [h] at hJustified
  · rename_i d' h
    rw [h] at hJustified
    exact hJustified.trans (d'.updateFinalized_rejustified _ _)

theorem updateCheckpoints_sameTree (state : BeaconState) :
    SameTree d.view (d.updateCheckpoints state).2.view :=
  (d.updateCheckpoints_rejustified state).view.sameTree

/-- A state without later checkpoints changes nothing. -/
theorem updateCheckpoints_eq {state : BeaconState}
    (hJustified : state.currentJustified.epoch ≤ d.view.justified.epoch)
    (hFinalized : state.finalized.epoch ≤ d.view.finalized.epoch) :
    d.updateCheckpoints state = (.ok (), d) := by
  rw [updateCheckpoints, updateJustified, if_pos hJustified]
  dsimp only
  rw [updateFinalized, if_pos hFinalized]

/-- **Import.** Either nothing that can be read changes and the block is not imported, or the
block was admitted, its rules applied, and the checkpoints of its state are looked at. -/
theorem importBlock_cases [HashFunction] (t : StateTransition) (b : Block) :
    ((d.importBlock t b).2.view = d.view ∧ ∀ root, (d.importBlock t b).1 ≠ .ok (.imported root)) ∨
      ∃ root parentState state, d.view.admitBlock b = .ok (.fresh root parentState) ∧
        t.applyBlock parentState b = .ok state ∧
        (d.importBlock t b).2 =
          ((d.countApplyBlock.insertBlock root b state).updateCheckpoints state).2 ∧
        ∀ root', (d.importBlock t b).1 = .ok (.imported root') → root' = root := by
  unfold importBlock
  -- The block is refused, or it is known.
  split
  · exact Or.inl ⟨rfl, fun root h => absurd h (by simp)⟩
  · exact Or.inl ⟨rfl, fun root h => absurd h (by simp)⟩
  · rename_i root parentState hFresh
    dsimp only
    split
    · exact Or.inl ⟨rfl, fun root h => absurd h (by simp)⟩
    · -- From here on the block stays in the draft, also if its checkpoints cannot be looked at.
      rename_i state hApplied
      right
      refine ⟨root, parentState, state, hFresh, hApplied, ?_⟩
      split
      · rename_i h
        exact ⟨by rw [h], fun root' h => absurd h (by simp)⟩
      · rename_i h
        refine ⟨by rw [h], fun root' h' => ?_⟩
        cases h'
        rfl

/-- Both drafts are the same but for states at checkpoints and the count of calls. -/
def Cached (d d' : Draft) : Prop :=
  d' = { d with
    overlay := { d.overlay with checkpointStates := d'.overlay.checkpointStates }
    calls := d'.calls }

theorem Cached.sameChain {d d' : Draft} (h : Cached d d') : SameChain d.view d'.view := by
  rw [h]
  rfl

theorem checkpointState_cached (t : StateTransition) (target : Checkpoint)
    (targetState : BeaconState) : Cached d (d.checkpointState t target targetState).2 := by
  unfold checkpointState
  split
  · rfl
  · dsimp only
    split
    · rfl
    · split
      · rfl
      · split
        · rfl
        · split <;> rfl

/-- **Attestations.** An attestation is refused, or the votes of its participants are recorded. A
state at the target is stored even if the attestation is refused afterwards. -/
theorem attest_cases [HashFunction] [SignatureScheme] (t : StateTransition)
    (check : SignatureCheck) (a : Attestation) : ∃ d', Cached d d' ∧
      ((∃ failure, d.attest t check a = (.error failure, d')) ∨
        ∃ indices, d.attest t check a = (.ok indices, d'.mergeVotes indices a.data.message)) := by
  unfold attest
  split
  · exact ⟨d, rfl, Or.inl ⟨_, rfl⟩⟩
  · rename_i targetState _
    have hCached := d.checkpointState_cached t a.data.target targetState
    split
    · rename_i h
      rw [h] at hCached
      exact ⟨_, hCached, Or.inl ⟨_, rfl⟩⟩
    · rename_i h
      rw [h] at hCached
      split
      · exact ⟨_, hCached, Or.inl ⟨_, rfl⟩⟩
      · exact ⟨_, hCached, Or.inr ⟨_, rfl⟩⟩

theorem attest_sameChain [HashFunction] [SignatureScheme] (t : StateTransition)
    (check : SignatureCheck) (a : Attestation) :
    SameChain d.view (d.attest t check a).2.view := by
  obtain ⟨d', hCached, ⟨failure, h⟩ | ⟨indices, h⟩⟩ := d.attest_cases t check a <;> rw [h]
  · exact hCached.sameChain
  · exact hCached.sameChain.trans (mergeVotes_sameChain _ _ _)

end Draft

end ForkChoice
