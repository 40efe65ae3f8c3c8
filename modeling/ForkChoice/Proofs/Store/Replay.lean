import ForkChoice.Proofs.Store.Publication

/-!
# ForkChoice — histories replayed in one draft

What an operation on a draft returns, and what the draft shows afterwards, depends only on what it
has shown before: no operation asks whether something is in the overlay or in the store below.
Since a commit changes nothing that can be read, a history of drafts shows what one draft shows
that takes all operations of the committed ones, and those of the others leave no trace. So it
does not matter how operations are divided into drafts.

* `Draft.SameAnswer` — results and views agree; `importBlock_sameAnswer`, `attest_sameAnswer` —
  they do for drafts that show the same;
* `change_view_congr` — every operation keeps drafts alike;
* `committedChanges` — the operations that count, `Store.after_view` — their replay.
-/

namespace ForkChoice

namespace Draft

/-! ## Drafts that show the same -/

/-- Two operations return the same result, and the drafts that they leave show the same. -/
def SameAnswer {α : Type} (x y : α × Draft) : Prop :=
  x.1 = y.1 ∧ x.2.view = y.2.view

/-- What is done next with two answers that are the same can be looked at for one result. -/
@[elab_as_elim]
theorem SameAnswer.elim {α : Type} {x y : α × Draft} {motive : α × Draft → α × Draft → Prop}
    (h : SameAnswer x y)
    (next : ∀ result (e e' : Draft), e.view = e'.view → motive (result, e) (result, e')) :
    motive x y := by
  obtain ⟨result, e⟩ := x
  obtain ⟨result', e'⟩ := y
  obtain ⟨hResult, hView⟩ := h
  cases hResult
  exact next result e e' hView

section

variable {d d' : Draft} {t : StateTransition}

theorem ite_view_congr {p : Prop} [Decidable p] {e e' : Draft} (h : d.view = d'.view)
    (he : e.view = e'.view) : (if p then d else e).view = (if p then d' else e').view := by
  split
  · exact h
  · exact he

theorem tick_view_congr (h : d.view = d'.view) (time : UInt64) :
    (d.tick time).view = (d'.tick time).view := by
  have hTime : (d.setTime time).view = (d'.setTime time).view := by
    rw [setTime_view, setTime_view, h]
  unfold tick
  dsimp only
  rw [h, hTime]
  refine ite_view_congr h (ite_view_congr hTime (ite_view_congr ?_ hTime))
  rw [setJustified_view, setJustified_view, hTime]

theorem updateJustified_sameAnswer (h : d.view = d'.view) (candidate : Checkpoint) :
    SameAnswer (d.updateJustified candidate) (d'.updateJustified candidate) := by
  unfold updateJustified
  rw [h]
  split
  · exact ⟨rfl, h⟩
  · -- Whether the best checkpoint moves or not, both drafts go on alike.
    have hBest (p : Prop) [Decidable p] : (if p then d.setBestJustified candidate else d).view =
        (if p then d'.setBestJustified candidate else d').view := by
      refine ite_view_congr ?_ h
      rw [setBestJustified_view, setBestJustified_view, h]
    dsimp only
    rw [hBest]
    split
    · exact ⟨rfl, hBest _⟩
    · refine ⟨rfl, ite_view_congr ?_ (hBest _)⟩
      rw [setJustified_view, setJustified_view, hBest]

theorem updateFinalized_sameAnswer (h : d.view = d'.view) (candidate stateJustified : Checkpoint) :
    SameAnswer (d.updateFinalized candidate stateJustified)
      (d'.updateFinalized candidate stateJustified) := by
  have hFinal : (d.setFinalized candidate).view = (d'.setFinalized candidate).view := by
    rw [setFinalized_view, setFinalized_view, h]
  have hJustified : ((d.setFinalized candidate).setJustified stateJustified).view =
      ((d'.setFinalized candidate).setJustified stateJustified).view := by
    rw [setJustified_view, setJustified_view, hFinal]
  unfold updateFinalized
  dsimp only
  rw [h, hFinal]
  split
  · exact ⟨rfl, h⟩
  · split
    · exact ⟨rfl, hFinal⟩
    · split
      · exact ⟨rfl, hJustified⟩
      · split
        · exact ⟨rfl, hFinal⟩
        · exact ⟨rfl, ite_view_congr hFinal hJustified⟩

theorem updateCheckpoints_sameAnswer (h : d.view = d'.view) (state : BeaconState) :
    SameAnswer (d.updateCheckpoints state) (d'.updateCheckpoints state) := by
  unfold updateCheckpoints
  refine (updateJustified_sameAnswer h state.currentJustified).elim ?_
  intro result e e' hView
  cases result with
  | error failure => exact ⟨rfl, hView⟩
  | ok => exact updateFinalized_sameAnswer hView _ _

theorem importBlock_sameAnswer [HashFunction] (h : d.view = d'.view) (b : Block) :
    SameAnswer (d.importBlock t b) (d'.importBlock t b) := by
  unfold importBlock
  rw [h]
  -- The block is refused, or known, or its rules are applied.
  split
  · exact ⟨rfl, h⟩
  · exact ⟨rfl, h⟩
  · rename_i root parentState _
    dsimp only
    split
    · exact ⟨rfl, h⟩
    · rename_i state _
      have hInserted : (d.countApplyBlock.insertBlock root b state).view =
          (d'.countApplyBlock.insertBlock root b state).view := by
        rw [insertBlock_view, insertBlock_view, countApplyBlock_view, countApplyBlock_view, h]
      refine (updateCheckpoints_sameAnswer hInserted state).elim ?_
      intro result e e' hView
      cases result with
      | error failure => exact ⟨rfl, hView⟩
      | ok => exact ⟨rfl, hView⟩

theorem checkpointState_sameAnswer (h : d.view = d'.view) (target : Checkpoint)
    (targetState : BeaconState) :
    SameAnswer (d.checkpointState t target targetState)
      (d'.checkpointState t target targetState) := by
  have hStored (state : BeaconState) : (d.insertCheckpointState target state).view =
      (d'.insertCheckpointState target state).view := by
    rw [insertCheckpointState_view, insertCheckpointState_view, h]
  unfold checkpointState
  dsimp only
  rw [h]
  split
  · exact ⟨rfl, h⟩
  · split
    · exact ⟨rfl, hStored _⟩
    · split
      · exact ⟨rfl, h⟩
      · split
        · exact ⟨rfl, h⟩
        · -- The draft has counted one more call, which does not show.
          split
          · exact ⟨rfl, h⟩
          · exact ⟨rfl, hStored _⟩

theorem mergeVotes_view_congr (h : d.view = d'.view) (indices : List ValidatorIndex)
    (message : LatestMessage) :
    (d.mergeVotes indices message).view = (d'.mergeVotes indices message).view := by
  unfold mergeVotes
  induction indices generalizing d d' with
  | nil => exact h
  | cons index rest ih => exact ih (by rw [mergeVote_view, mergeVote_view, h])

variable [HashFunction] [SignatureScheme]

theorem attest_sameAnswer (h : d.view = d'.view) (check : SignatureCheck) (a : Attestation) :
    SameAnswer (d.attest t check a) (d'.attest t check a) := by
  unfold attest
  rw [h]
  split
  · exact ⟨rfl, h⟩
  · rename_i targetState _
    refine (checkpointState_sameAnswer h a.data.target targetState).elim ?_
    intro result e e' hView
    cases result with
    | error failure => exact ⟨rfl, hView⟩
    | ok state =>
      dsimp only
      rw [hView]
      split
      · exact ⟨rfl, hView⟩
      · exact ⟨rfl, mergeVotes_view_congr hView _ _⟩

/-- **Operations.** Drafts that show the same do so after the same operation. -/
theorem change_view_congr (h : d.view = d'.view) (c : Change) :
    (d.change t c).view = (d'.change t c).view := by
  cases c with
  | tick time => exact tick_view_congr h time
  | block b => exact (importBlock_sameAnswer h b).2
  | attestation check a => exact (attest_sameAnswer h check a).2
  | discardVotes =>
    show d.discardVotes.view = d'.discardVotes.view
    rw [discardVotes_view, discardVotes_view, h]

theorem changeAll_view_congr (h : d.view = d'.view) (changes : List Change) :
    (d.changeAll t changes).view = (d'.changeAll t changes).view := by
  unfold changeAll
  induction changes generalizing d d' with
  | nil => exact h
  | cons c rest ih => exact ih (change_view_congr h c)

end

end Draft

/-! ## Histories -/

theorem Draft.changeAll_append [HashFunction] [SignatureScheme] (t : StateTransition) (d : Draft)
    (changes changes' : List Change) :
    d.changeAll t (changes ++ changes') = (d.changeAll t changes).changeAll t changes' :=
  List.foldl_append

/-- The operations of those drafts that have been committed, in order. -/
def committedChanges (history : List Transaction) : List Change :=
  (history.filter (·.commits)).flatMap (·.changes)

theorem committedChanges_concat (history : List Transaction) (x : Transaction) :
    committedChanges (history ++ [x]) =
      committedChanges history ++ if x.commits then x.changes else [] := by
  unfold committedChanges
  rw [List.filter_append, List.flatMap_append]
  cases h : x.commits <;> simp [h]

namespace Store

variable [HashFunction] [SignatureScheme] {t : StateTransition}

/-- **Replay.** After a history the store shows what one draft shows that takes all operations
that have been committed. -/
theorem after_view (s : Store) (history : List Transaction) :
    (s.after t history).view =
      ((Draft.ofStore s).changeAll t (committedChanges history)).view := by
  induction history using List.reverseRecOn with
  | nil => exact (Draft.ofStore_view s).symm
  | append_singleton history x ih =>
    rw [after_concat, committedChanges_concat]
    unfold transact
    split
    · -- The draft begins with what the store shows, which is what the replay shows so far.
      rw [Draft.commit_view_changeAll, Draft.changeAll_append]
      exact Draft.changeAll_view_congr ((Draft.ofStore_view _).trans ih) x.changes
    · rw [List.append_nil]
      exact ih

end Store

end ForkChoice
