import Mathlib.Data.List.Chain
import ForkChoice.Bls.Keys
import ForkChoice.Proofs.Engine.Run
import ForkChoice.Proofs.Store.Frame
import ForkChoice.Proofs.Store.Genesis

/-!
# ForkChoice — the head is current

Between messages the head that the tracker holds is the one that would be found anew, and its
announcements tell the truth. This depends on no rule by which states move on, and on no property
of the store that the engine begins with.

An engine that publishes a draft does not always look for the head. It need not where the draft
has changed votes alone, because the head is found from the votes of the tracker.

* `Engine.Announced` — what is known of the announcements at any time;
* `Engine.HeadCurrent` — the head that is held is the one that would be found;
* `invariant_head` — both are an invariant;
* `Engine.ReportsHead`, `reportsHead_of_run` — what follows for the runs without failures.
-/

namespace ForkChoice

namespace Engine

variable {e e' : Engine}

/-- The announcements so far: the last one is of the head, none is repeated at once, and each one
is of a block in the store. -/
structure Announced (e : Engine) : Prop where
  last : e.tracker.published.getLast?.map HeadEvent.root = e.tracker.head
  changes : e.tracker.published.IsChain fun event event' => event.root ≠ event'.root
  blocks : ∀ event ∈ e.tracker.published, ∃ block, e.store.view.block? event.root = some block ∧
    event.stateRoot = block.stateRoot ∧ event.slot = block.slot

/-- The head that is held is the one that would be found. -/
def HeadCurrent (e : Engine) : Prop :=
  ∃ root, e.tracker.head = some root ∧ e.store.view.head e.tracker.votes = .ok root

/-- What the tracker of an engine tells about the head between messages. -/
structure ReportsHead (e : Engine) : Prop extends Announced e where
  current : ∃ root, e.tracker.head = some root ∧ e.store.view.head e.tracker.votes = .ok root
  nonempty : e.tracker.published ≠ []

theorem Announced.reportsHead (h : e.Announced) (hCurrent : e.HeadCurrent) : e.ReportsHead where
  toAnnounced := h
  current := hCurrent
  nonempty := by
    obtain ⟨root, hHead, -⟩ := hCurrent
    intro hNil
    have hLast := h.last
    -- Without announcements there would be no head.
    rw [hNil, hHead] at hLast
    exact absurd hLast (by simp)

/-! ## The moves -/

/-- Announcements stay true when blocks are added to the store. -/
theorem Announced.of_extends (h : e.Announced) (hMore : e.store.view.Extends e'.store.view)
    (hHead : e'.tracker.head = e.tracker.head)
    (hPublished : e'.tracker.published = e.tracker.published) : e'.Announced where
  last := by
    rw [hHead, hPublished]
    exact h.last
  changes := by
    rw [hPublished]
    exact h.changes
  blocks := by
    intro event hEvent
    rw [hPublished] at hEvent
    obtain ⟨block, hBlock, hEq⟩ := h.blocks event hEvent
    exact ⟨block, hMore _ _ hBlock, hEq⟩

/-- A head that differs from the last one can be announced. -/
theorem Announced.announce (h : e.Announced) {root : Root} {block : Block}
    (hBlock : e.store.view.block? root = some block) (hNew : e.tracker.head ≠ some root) :
    Announced { e with tracker := { e.tracker with
      head := some root
      published := e.tracker.published ++ [⟨root, block.stateRoot, block.slot⟩] } } where
  last := by
    show Option.map _ (e.tracker.published ++ [_]).getLast? = _
    rw [List.getLast?_append, List.getLast?_singleton]
    rfl
  changes := by
    -- The last announcement was of the head before, which is another one.
    refine List.IsChain.append h.changes (List.isChain_singleton _) ?_
    intro event hLast event' hFirst
    cases hFirst
    intro hSame
    apply hNew
    rw [← h.last, Option.mem_def.mp hLast]
    exact congrArg some hSame
  blocks := by
    intro event hEvent
    rcases List.mem_append.mp hEvent with hOld | hFirst
    · exact h.blocks event hOld
    · rw [List.mem_singleton.mp hFirst]
      exact ⟨block, hBlock, rfl, rfl⟩

/-- The head is found anew, and announced if it has changed. -/
theorem Announced.updateHead (h : e.Announced) : e.updateHead.Holds Announced HeadCurrent := by
  unfold Engine.updateHead HeadTracker.updateHead
  cases hHead : e.store.view.head e.tracker.votes with
  | error failure => exact ⟨h, fun hOk => absurd hOk (by simp [Run.ofTracked])⟩
  | ok root =>
    dsimp only
    split
    · rename_i hSame
      exact ⟨h, fun _ => ⟨root, hSame, hHead⟩⟩
    · rename_i hNew
      split
      · exact ⟨h, fun hOk => absurd hOk (by simp [Run.ofTracked])⟩
      · rename_i block hBlock
        exact ⟨h.announce hBlock hNew, fun _ => ⟨root, rfl, hHead⟩⟩

theorem recordAll_eq (h : HeadTracker) (votes : List Vote) :
    (h.recordAll votes).head = h.head ∧ (h.recordAll votes).published = h.published := by
  unfold HeadTracker.recordAll
  induction votes generalizing h with
  | nil => exact ⟨rfl, rfl⟩
  | cons vote rest ih => exact ih _

section

variable [HashFunction] [SignatureScheme] {t : StateTransition}

/-- A draft of the store that is published loses no block. -/
theorem extends_publish (e : Engine) (changes : List Change) :
    e.store.view.Extends
      (e.publish ((Draft.ofStore e.store).changeAll t changes)).store.view := by
  have hStable := StoreView.stable_extends t e.store.view
  exact hStable.commit _ (hStable.draft changes (StoreView.Extends.refl _))

theorem HeadCurrent.publishVotes (h : e.HeadCurrent) {changes : List Change}
    (hVotes : ∀ c ∈ changes, c.OnlyVotes) :
    (e.publish ((Draft.ofStore e.store).changeAll t changes)).HeadCurrent := by
  obtain ⟨root, hRoot, hHead⟩ := h
  refine ⟨root, hRoot, ?_⟩
  have hDraft := changeAll_onlyVotes (t := t) (d := Draft.ofStore e.store) hVotes
  have hCommit := ((Draft.ofStore e.store).changeAll t changes).commit_sameChain
  rw [Draft.ofStore_view] at hDraft
  exact ((hDraft.trans hCommit).head_eq e.tracker.votes).trans hHead

/-- The announcements are true at any time, and the head is current between messages. -/
theorem invariant_head (t : StateTransition) : Invariant t Announced HeadCurrent where
  silent e e' hStore hTracker := by
    refine ⟨fun h => ?_, ?_⟩
    · refine h.of_extends ?_ (by rw [hTracker]) (by rw [hTracker])
      rw [hStore]
      exact StoreView.Extends.refl _
    · rintro ⟨root, hRoot, hHead⟩
      exact ⟨root, by rw [hTracker]; exact hRoot, by rw [hStore, hTracker]; exact hHead⟩
  publish changes h := h.of_extends (extends_publish _ changes) rfl rfl
  publishVotes hVotes _ hS := hS.publishVotes hVotes
  recordVotes {e} votes h := by
    obtain ⟨hHead, hPublished⟩ := recordAll_eq e.tracker votes
    exact h.of_extends (StoreView.Extends.refl _) hHead hPublished
  forgetVotes _ h := h.of_extends (StoreView.Extends.refl _) rfl rfl
  updateHead h := h.updateHead

/-! ## Runs without failures -/

/-- **The head.** In a run without failures, at its beginning and after each message, the head
that is held is the one that would be found from the store and the collected votes, and the
announcements so far lead up to it. -/
theorem reportsHead_of_run (t : StateTransition) (s : Store) (deliveries : List Delivery)
    (hOk : (runFrom t s deliveries).failure = none) (n : Nat) :
    (runFrom t s (deliveries.take n)).engine.ReportsHead := by
  have hStart : Announced { store := s } :=
    ⟨rfl, List.isChain_nil, fun _ hEvent => absurd hEvent List.not_mem_nil⟩
  obtain ⟨hAnnounced, hCurrent⟩ := (invariant_head t).runFrom hStart (deliveries.take n)
  -- A run that had failed before would have failed in the end.
  have hPrefix : (runFrom t s (deliveries.take n)).failure = none := by
    cases hFailure : (runFrom t s (deliveries.take n)).failure with
    | none => rfl
    | some failure =>
      rw [← List.take_append_drop n deliveries, runFrom, deliver_append] at hOk
      rw [← runFrom, deliver_of_failed t hFailure, hFailure] at hOk
      exact absurd hOk (by simp)
  exact hAnnounced.reportsHead (hCurrent hPrefix)

end

/-- Two blocks beside each other arrive, and then votes for the one that is not the head and for the
one that was, with a block on this one in between. -/
def ChainedNetwork.contested (n : ChainedNetwork) (other : Block) (rival : Root) : List Delivery :=
  [.tick 18, .block n.first, .block other,
    .burst [{ n.vote with attestation := n.voteFor 2 rival, arrival := 1 }], .block n.second,
    .burst [n.vote]]

/-- The head of a small network goes from one branch to the other and back. -/
theorem reportsHead_of_contested :
    letI : HashFunction := linearHash
    letI : SignatureScheme := Bls.scheme
    ∃ (n : ChainedNetwork) (other : Block) (first second rival : Root),
      chainedNetwork = some n ∧ n.rival? = some other ∧
        let t := slotTransition n.store.preset
        let deliveries := n.contested other rival
        (runFrom t n.store deliveries).failure = none ∧
          (runFrom t n.store deliveries).engine.tracker.published.map HeadEvent.root =
            [n.store.anchorRoot, first, rival, second] ∧
          ∀ k, (runFrom t n.store (deliveries.take k)).engine.ReportsHead := by
  let : HashFunction := linearHash
  let : SignatureScheme := Bls.scheme
  have hRuns : checkBranches (fun n other first second rival =>
      let run := runFrom (slotTransition n.store.preset) n.store (n.contested other rival)
      run.failure.isNone && decide (run.engine.tracker.published.map HeadEvent.root =
        [n.store.anchorRoot, first, rival, second])) = true := by
    decide +kernel
  obtain ⟨n, other, first, second, rival, hNetwork, -, hRival, hRun⟩ := exists_branches hRuns
  simp only [Bool.and_eq_true, Option.isNone_iff_eq_none, decide_eq_true_eq] at hRun
  obtain ⟨hOk, hPublished⟩ := hRun
  exact ⟨n, other, first, second, rival, hNetwork, hRival, hOk, hPublished,
    reportsHead_of_run _ n.store (n.contested other rival) hOk⟩

end Engine

end ForkChoice
