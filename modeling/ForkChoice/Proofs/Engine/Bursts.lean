import ForkChoice.Proofs.Engine.Head
import ForkChoice.Proofs.Engine.Polls
import ForkChoice.Proofs.Store.Replay

/-!
# ForkChoice — where a burst ends cannot be seen

Attestations that are there already when one is received are handled with it, in one draft of the
store and with one search for the head. How many there are is a matter of timing. If they are cut
into several bursts, each of these is a draft of its own, the votes of one are collected before the
next one begins, and the head is looked for in between. None of this can be seen in the end, as
long as the attestations come in the order of arrival.

The argument compares one long burst, while it is being applied, with the engine after several
short ones: what the draft of the long burst shows is what the store shows after the short ones,
and the votes of the long burst so far are those that have been collected meanwhile. An answer to
an attestation depends on what a draft shows, so the two stay together. The head of the long burst
is then found from the same blocks and votes as the last head after the short ones.

* `BesideBurst` — two bursts that are applied side by side;
* `Engine.KeepsUp` — an engine after short bursts, beside a long one;
* `Engine.Alike` — what can be seen of two engines is the same;
* `Inbox.Serves` — deliveries that are taken out of an inbox, whatever the timing;
* `burstBoundaries_unseen` — both parts together.
-/

namespace ForkChoice

/-! ## What an inbox hands over -/

/-- Deliveries that are taken out of an inbox one after another, each at a moment when some
further messages can be received without waiting. -/
inductive Inbox.Serves : Inbox → List Delivery → Inbox → Prop
  | nil (i : Inbox) : Serves i [] i
  | cons {i i' i'' : Inbox} {ready : Nat} {x : Delivery} {xs : List Delivery}
    (hNext : i.next? ready = some (x, i')) (hRest : Serves i' xs i'') : Serves i (x :: xs) i''

namespace Inbox.Serves

variable {i i' : Inbox} {xs : List Delivery}

/-- Nothing is lost, and nothing is handed over twice or out of order. -/
theorem messages_eq (h : Serves i xs i') :
    i.messages = xs.flatMap Delivery.messages ++ i'.messages := by
  induction h with
  | nil => rfl
  | cons hNext _ ih =>
    rw [(Inbox.next?_eq_some hNext).1, ih, List.flatMap_cons, List.append_assoc]

end Inbox.Serves

namespace Delivery

/-- What is no attestation is handed over alone. -/
theorem messages_of_mem {x : Delivery} {m : Message} (hm : m ∈ x.messages)
    (hOther : ∀ a, m ≠ .attestation a) : x.messages = [m] := by
  cases x with
  | burst attestations =>
    obtain ⟨a, -, rfl⟩ := List.mem_map.mp hm
    exact absurd rfl (hOther a)
  | tick time | block b | justified checkpoint =>
    rw [List.mem_singleton.mp hm]
    rfl

/-- **No message but an attestation is part of a burst.** It is handed over in one place, after
all that comes before it and before all that comes after it. -/
theorem exists_of_flatMap {xs : List Delivery} {before after : List Message} {m : Message}
    (h : xs.flatMap messages = before ++ m :: after) (hOther : ∀ a, m ≠ .attestation a) :
    ∃ xs₁ x xs₂, xs = xs₁ ++ x :: xs₂ ∧ xs₁.flatMap messages = before ∧ x.messages = [m] ∧
      xs₂.flatMap messages = after := by
  induction xs generalizing before with
  | nil => exact absurd h (by simp)
  | cons x rest ih =>
    rw [List.flatMap_cons, List.append_eq_append_iff] at h
    rcases h with ⟨skipped, rfl, hRest⟩ | ⟨taken, hTaken, hRest⟩
    · -- The first delivery ends before the message.
      obtain ⟨xs₁, y, xs₂, rfl, rfl, hy, rfl⟩ := ih hRest
      exact ⟨x :: xs₁, y, xs₂, rfl, rfl, hy, rfl⟩
    · cases taken with
      | nil =>
        rw [List.append_nil] at hTaken
        have hRest : rest.flatMap messages = [] ++ m :: after := hRest.symm
        obtain ⟨xs₁, y, xs₂, rfl, hNone, hy, rfl⟩ := ih hRest
        refine ⟨x :: xs₁, y, xs₂, rfl, ?_, hy, rfl⟩
        rw [List.flatMap_cons, hNone, List.append_nil, hTaken]
      | cons first others =>
        obtain ⟨rfl, hAfter⟩ := List.cons.inj hRest
        -- The message is in the first delivery, so it is all of it.
        have hAlone : x.messages = [m] := by
          refine messages_of_mem ?_ hOther
          rw [hTaken]
          exact List.mem_append_right _ List.mem_cons_self
        rw [hAlone] at hTaken
        have hEmpty : before = [] ∧ others = [] := by
          cases before with
          | nil => exact ⟨rfl, (List.cons.inj hTaken).2.symm⟩
          | cons b bs =>
            have hLength := congrArg List.length hTaken
            simp only [List.length_cons, List.length_nil, List.length_append] at hLength
            omega
        obtain ⟨rfl, rfl⟩ := hEmpty
        exact ⟨[], x, rest, rfl, rfl, hAlone, hAfter.symm⟩

end Delivery

/-! ## Two bursts side by side -/

/-- Two bursts that are applied side by side: the first one has the votes `earlier` besides, and
what can be read in the drafts is the same. -/
structure BesideBurst (earlier : List Vote) (b c : BurstProgress) : Prop where
  view : b.draft.view = c.draft.view
  votes : b.votes = earlier ++ c.votes
  failure : b.failure = c.failure
  waiting : b.engine.waiting = c.engine.waiting
  journal : b.engine.journal = c.engine.journal
  notices : b.engine.notices = c.engine.notices

namespace Engine

theorem delayOrRefuse_congr {e e' : Engine} (hWaiting : e.waiting = e'.waiting)
    (hJournal : e.journal = e'.journal) (hNotices : e.notices = e'.notices)
    (a : ReceivedAttestation) (reason : StoreError) :
    (e.delayOrRefuse a reason).waiting = (e'.delayOrRefuse a reason).waiting ∧
      (e.delayOrRefuse a reason).journal = (e'.delayOrRefuse a reason).journal ∧
        (e.delayOrRefuse a reason).notices = (e'.delayOrRefuse a reason).notices := by
  unfold delayOrRefuse record
  split <;> simp [hWaiting, hJournal, hNotices]

theorem byArrival_of_sorted {attestations : List ReceivedAttestation}
    (h : attestations.Pairwise fun a a' => a.arrival ≤ a'.arrival) :
    byArrival attestations = attestations := by
  refine List.mergeSort_of_pairwise (h.imp ?_)
  intro a a' hLe
  exact decide_eq_true hLe

/-- What can be seen of two engines is the same: the store, the collected votes, the head, what
waits and what has become of blocks and attestations. The heads that have been announced on the
way are not part of it. -/
structure Alike (e e' : Engine) : Prop where
  view : e.store.view = e'.store.view
  votes : e.tracker.votes = e'.tracker.votes
  justified : e.tracker.justified = e'.tracker.justified
  head : e.tracker.head = e'.tracker.head
  waiting : e.waiting = e'.waiting
  journal : e.journal = e'.journal
  notices : e.notices = e'.notices

end Engine

section

variable [HashFunction] [SignatureScheme] {t : StateTransition} {earlier : List Vote}
  {b c : BurstProgress}

/-- **One attestation** gets the same answer in both bursts. -/
theorem BesideBurst.attest (h : BesideBurst earlier b c) (a : ReceivedAttestation) :
    BesideBurst earlier (Engine.attest t b a) (Engine.attest t c a) := by
  obtain ⟨hResult, hView⟩ := Draft.attest_sameAnswer (t := t) h.view .skip a.attestation
  unfold Engine.attest
  rw [h.failure]
  cases hFailure : c.failure with
  | some reason => exact h
  | none =>
    dsimp only
    cases hb : b.draft.attest t .skip a.attestation with
    | mk result d =>
      cases hc : c.draft.attest t .skip a.attestation with
      | mk result' d' =>
        rw [hb, hc] at hResult hView
        cases (hResult : result = result')
        cases result with
        | ok indices =>
          refine ⟨hView, ?_, rfl, h.waiting, ?_, h.notices⟩
          · show b.votes ++ _ = earlier ++ (c.votes ++ _)
            rw [h.votes, List.append_assoc]
          · exact congrArg (Fate.attestationApplied a :: ·) h.journal
        | error failure =>
          cases failure with
          | fault reason => exact ⟨hView, h.votes, rfl, h.waiting, h.journal, h.notices⟩
          | error reason =>
            obtain ⟨hWaiting, hJournal, hNotices⟩ :=
              Engine.delayOrRefuse_congr h.waiting h.journal h.notices a reason
            exact ⟨hView, h.votes, rfl, hWaiting, hJournal, hNotices⟩

theorem BesideBurst.attestAll (h : BesideBurst earlier b c)
    (attestations : List ReceivedAttestation) :
    BesideBurst earlier (attestations.foldl (Engine.attest t) b)
      (attestations.foldl (Engine.attest t) c) := by
  induction attestations generalizing b c with
  | nil => exact h
  | cons a rest ih => exact ih (h.attest a)

namespace Engine

/-! ## The end of a burst -/

/-- What a burst leaves behind that has come to its end. -/
structure BurstEnds (b : BurstProgress) (e : Engine) : Prop where
  store : e.store = b.draft.commit
  votes : e.tracker.votes = b.engine.tracker.votes.mergeVotes b.votes
  justified : e.tracker.justified = b.engine.tracker.justified
  /-- The head is looked for only when there are votes. -/
  head : b.votes = [] → e.tracker.head = b.engine.tracker.head
  waiting : e.waiting = b.engine.waiting
  journal : e.journal = b.engine.journal
  notices : e.notices = b.engine.notices

omit [HashFunction] [SignatureScheme] in
/-- Apart from the head, it does not matter whether the head is found. -/
theorem burstEnds_finishBurst (hRunning : b.failure = none) :
    BurstEnds b (finishBurst b).engine := by
  unfold finishBurst
  rw [hRunning]
  dsimp only
  split
  · rename_i hNone
    rw [List.isEmpty_iff] at hNone
    exact ⟨rfl, by rw [hNone]; rfl, rfl, fun _ => rfl, rfl, rfl, rfl⟩
  · rename_i hSome
    obtain ⟨hVotes, hJustified⟩ := updateHead_tracker b.draft.commit.view
      (b.engine.tracker.recordAll b.votes)
    rw [updateHead_engine]
    exact {
      store := rfl
      votes := hVotes.trans (recordAll_votes _ _)
      justified := hJustified.trans (recordAll_justified _ _)
      head := fun hNone => absurd (List.isEmpty_iff.mpr hNone) hSome
      waiting := rfl
      journal := rfl
      notices := rfl }

omit [HashFunction] [SignatureScheme] in
/-- The search for the head does not fail if it finds a known block. -/
theorem updateHead_of_head {e : Engine} {root : Root} {block : Block}
    (hHead : e.store.view.head e.tracker.votes = .ok root)
    (hBlock : e.store.view.block? root = some block) :
    e.updateHead.failure = none ∧ e.updateHead.engine.tracker.head = some root := by
  unfold updateHead HeadTracker.updateHead
  rw [hHead]
  dsimp only
  split
  · rename_i hSame
    exact ⟨rfl, hSame⟩
  · rw [hBlock]
    exact ⟨rfl, rfl⟩

omit [HashFunction] [SignatureScheme] in
/-- The head that is held was announced, so its block is known. -/
theorem Announced.head_known {e : Engine} (h : e.Announced) {root : Root}
    (hHead : e.tracker.head = some root) : ∃ block, e.store.view.block? root = some block := by
  have hLast := h.last
  rw [hHead, Option.map_eq_some_iff] at hLast
  obtain ⟨event, hEvent, rfl⟩ := hLast
  obtain ⟨block, hBlock, -⟩ := h.blocks event (List.mem_of_getLast? hEvent)
  exact ⟨block, hBlock⟩

/-! ## One long burst beside several short ones -/

/-- A long burst that has begun at `e`, and the engine `e'` that has handled the same attestations
in short bursts. -/
structure KeepsUp (e : Engine) (b : BurstProgress) (e' : Engine) : Prop where
  running : b.failure = none
  newer : b.draft.Newer
  tracker : b.engine.tracker = e.tracker
  view : b.draft.view = e'.store.view
  votes : e.tracker.votes.mergeVotes b.votes = e'.tracker.votes
  justified : e.tracker.justified = e'.tracker.justified
  /-- The head is looked for only when there are votes. -/
  head : b.votes = [] → e.tracker.head = e'.tracker.head
  waiting : b.engine.waiting = e'.waiting
  journal : b.engine.journal = e'.journal
  notices : b.engine.notices = e'.notices

namespace KeepsUp

variable {e e' : Engine}

omit [HashFunction] [SignatureScheme] in
/-- The long burst begins where the short ones do. -/
theorem start (e : Engine) : KeepsUp e { engine := e, draft := Draft.ofStore e.store } e where
  running := rfl
  newer := Draft.newer_ofStore e.store
  tracker := rfl
  view := Draft.ofStore_view e.store
  votes := rfl
  justified := rfl
  head _ := rfl
  waiting := rfl
  journal := rfl
  notices := rfl

theorem attestAll_tracker (attestations : List ReceivedAttestation) (b : BurstProgress) :
    (attestations.foldl (attest t) b).engine.tracker = b.engine.tracker := by
  induction attestations generalizing b with
  | nil => rfl
  | cons a rest ih =>
    rw [List.foldl_cons, ih]
    unfold attest
    split
    · rfl
    · split
      · rfl
      · exact (delayOrRefuse_silent b.engine a _).2
      · rfl

/-- **One more short burst.** The long one goes on with the same attestations. -/
theorem burst (h : KeepsUp e b e') {attestations : List ReceivedAttestation}
    (hSorted : attestations.Pairwise fun a a' => a.arrival ≤ a'.arrival)
    (hOk : (e'.processAttestations t attestations).failure = none) :
    KeepsUp e (attestations.foldl (attest t) b) (e'.processAttestations t attestations).engine := by
  unfold processAttestations at hOk ⊢
  split at hOk
  · rename_i hNone
    rw [if_pos hNone, List.isEmpty_iff.mp hNone]
    exact h
  · rename_i hSome
    rw [if_neg hSome]
    rw [byArrival_of_sorted hSorted] at hOk ⊢
    -- The short burst has a draft of its own, which shows what the long one shows.
    let c : BurstProgress := { engine := e', draft := Draft.ofStore e'.store }
    have hBeside : BesideBurst b.votes b c := {
      view := h.view.trans (Draft.ofStore_view e'.store).symm
      votes := (List.append_nil _).symm
      failure := h.running
      waiting := h.waiting
      journal := h.journal
      notices := h.notices }
    have hAll := hBeside.attestAll (t := t) attestations
    have hLong : (attestations.foldl (attest t) b).draft.Newer := attestAll_newer h.newer
    have hShort : (attestations.foldl (attest t) c).draft.Newer :=
      attestAll_newer (Draft.newer_ofStore e'.store)
    have hTracker := attestAll_tracker (t := t) attestations b
    have hTracker' : (attestations.foldl (attest t) c).engine.tracker = e'.tracker :=
      attestAll_tracker attestations c
    change (finishBurst (attestations.foldl (attest t) c)).failure = none at hOk
    show KeepsUp e _ (finishBurst (attestations.foldl (attest t) c)).engine
    generalize attestations.foldl (attest t) c = c' at *
    generalize attestations.foldl (attest t) b = b' at *
    obtain ⟨hRunning, -⟩ := polls_finishBurst (t := t) hOk
    have hEnd := burstEnds_finishBurst hRunning
    generalize (finishBurst c').engine = e'' at hEnd
    exact {
      running := hAll.failure.trans hRunning
      newer := hLong
      tracker := hTracker.trans h.tracker
      view := by rw [hEnd.store, hShort.commit_view, hAll.view]
      votes := by
        -- The votes of the short burst are the last ones of the long burst.
        rw [hEnd.votes, hAll.votes, hTracker', ← h.votes]
        exact List.foldl_append
      justified := by rw [hEnd.justified, hTracker', h.justified]
      head := by
        intro hNone
        rw [hAll.votes, List.append_eq_nil_iff] at hNone
        rw [hEnd.head hNone.2, hTracker', h.head hNone.1]
      waiting := by rw [hEnd.waiting, hAll.waiting]
      journal := by rw [hEnd.journal, hAll.journal]
      notices := by rw [hEnd.notices, hAll.notices] }

/-- **Short bursts.** The long one goes on with the attestations of all of them. -/
theorem bursts {run : Run} (h : KeepsUp e b run.engine) {bursts : List (List ReceivedAttestation)}
    (hSorted : bursts.flatten.Pairwise fun a a' => a.arrival ≤ a'.arrival)
    (hOk : (deliver t run (bursts.map .burst)).failure = none) :
    KeepsUp e (bursts.flatten.foldl (attest t) b) (deliver t run (bursts.map .burst)).engine := by
  induction bursts generalizing b run with
  | nil => exact h
  | cons first rest ih =>
    rw [List.flatten_cons, List.pairwise_append] at hSorted
    obtain ⟨hFirst, hRest, -⟩ := hSorted
    have hRunning := deliver_ok t hOk
    have hNext : deliver t run ((first :: rest).map .burst) =
        deliver t (run.engine.processAttestations t first) (rest.map .burst) := by
      rw [List.map_cons, deliver, List.foldl_cons, Run.andThen_of_ok hRunning]
      rfl
    rw [hNext] at hOk ⊢
    have hHandled := deliver_ok t hOk
    rw [List.flatten_cons, List.foldl_append]
    exact ih (h.burst hFirst hHandled) hRest hOk

omit [HashFunction] [SignatureScheme] in
/-- **The end of the long burst.** It has the same blocks and votes to find the head from as the
last short burst had, so it finds the same head. -/
theorem finish (h : KeepsUp e b e') (hHead : e'.ReportsHead) :
    (finishBurst b).failure = none ∧ Alike (finishBurst b).engine e' := by
  have hEnd := burstEnds_finishBurst h.running
  have hView : b.draft.commit.view = e'.store.view := h.newer.commit_view.trans h.view
  have hVotes : (finishBurst b).engine.tracker.votes = e'.tracker.votes := by
    rw [hEnd.votes, h.tracker, h.votes]
  have hFound : (finishBurst b).failure = none ∧
      (finishBurst b).engine.tracker.head = e'.tracker.head := by
    by_cases hNone : b.votes = []
    · refine ⟨?_, by rw [hEnd.head hNone, h.tracker, h.head hNone]⟩
      rw [finishBurst, h.running, hNone]
      rfl
    · obtain ⟨root, hRoot, hCurrent⟩ := hHead.current
      obtain ⟨block, hBlock⟩ := hHead.toAnnounced.head_known hRoot
      let e₀ := (b.engine.publish b.draft).recordVotes b.votes
      have hBurst : finishBurst b = e₀.updateHead := by
        rw [finishBurst, h.running]
        exact if_neg (fun hEmpty => hNone (List.isEmpty_iff.mp hEmpty))
      have hSearch : e₀.store.view.head e₀.tracker.votes = .ok root := by
        show b.draft.commit.view.head (b.engine.tracker.recordAll b.votes).votes = _
        rw [hView, recordAll_votes, h.tracker, h.votes, hCurrent]
      have hKnown : e₀.store.view.block? root = some block := by
        show b.draft.commit.view.block? root = _
        rw [hView, hBlock]
      rw [hBurst, hRoot]
      exact updateHead_of_head hSearch hKnown
  exact ⟨hFound.1, {
    view := by rw [hEnd.store, hView]
    votes := hVotes
    justified := by rw [hEnd.justified, h.tracker, h.justified]
    head := hFound.2
    waiting := by rw [hEnd.waiting, h.waiting]
    journal := by rw [hEnd.journal, h.journal]
    notices := by rw [hEnd.notices, h.notices] }⟩

/-- The long burst can be handled as a message. -/
theorem handledAtOnce {attestations : List ReceivedAttestation}
    (h : KeepsUp e (attestations.foldl (attest t) { engine := e, draft := Draft.ofStore e.store })
      e')
    (hSorted : attestations.Pairwise fun a a' => a.arrival ≤ a'.arrival)
    (hHead : e'.ReportsHead) :
    (e.handle t (.burst attestations)).failure = none ∧
      Alike (e.handle t (.burst attestations)).engine e' := by
  have hLong := h.finish hHead
  show (e.processAttestations t attestations).failure = none ∧
    Alike (e.processAttestations t attestations).engine e'
  unfold processAttestations
  rw [byArrival_of_sorted hSorted]
  split
  · rename_i hNone
    rw [List.isEmpty_iff] at hNone
    rw [hNone] at hLong
    -- Without attestations there is no draft, and a draft in which nothing is done shows what the
    -- store shows.
    have hView : (Draft.ofStore e.store).commit.view = e.store.view :=
      (Draft.newer_ofStore e.store).commit_view.trans (Draft.ofStore_view e.store)
    obtain ⟨-, hAlike⟩ := hLong
    exact ⟨rfl, { hAlike with view := hView.symm.trans hAlike.view }⟩
  · exact hLong

end KeepsUp

/-! ## Runs without failures -/

/-- **Boundaries of bursts.** In a run without failures that goes on with bursts, the attestations
of which come in the order of arrival, one burst in place of all of them does not fail either, and
leaves what the bursts leave.

How an inbox is cut into deliveries depends on what is there at each moment. Whatever the timing,
there is a next delivery as long as there are messages, all messages are handed over in their
order, and one that is no attestation is handed over alone and once: after the burst that it has
ended, and before all that comes after it. -/
theorem burstBoundaries_unseen (t : StateTransition) (s : Store) (deliveries : List Delivery) :
    (∀ bursts : List (List ReceivedAttestation),
      (bursts.flatten.Pairwise fun a a' => a.arrival ≤ a'.arrival) →
      (runFrom t s (deliveries ++ bursts.map .burst)).failure = none →
        (runFrom t s (deliveries ++ [.burst bursts.flatten])).failure = none ∧
          Alike (runFrom t s (deliveries ++ [.burst bursts.flatten])).engine
            (runFrom t s (deliveries ++ bursts.map .burst)).engine) ∧
    (∀ (i : Inbox) (ready : Nat), i.messages ≠ [] → (i.next? ready).isSome = true) ∧
    ∀ (i : Inbox) (xs : List Delivery) (i' : Inbox), i.Serves xs i' →
      i.messages = xs.flatMap Delivery.messages ++ i'.messages ∧
        ∀ (before after : List Message) (m : Message), (∀ a, m ≠ .attestation a) →
          xs.flatMap Delivery.messages = before ++ m :: after →
            ∃ xs₁ x xs₂, xs = xs₁ ++ x :: xs₂ ∧ xs₁.flatMap Delivery.messages = before ∧
              x.messages = [m] ∧ xs₂.flatMap Delivery.messages = after := by
  refine ⟨?_, ?_, ?_⟩
  · intro bursts hSorted hOk
    have hReports := reportsHead_of_run t s _ hOk (deliveries ++ bursts.map Delivery.burst).length
    rw [List.take_length] at hReports
    have hSplit : runFrom t s (deliveries ++ bursts.map .burst) =
        deliver t (runFrom t s deliveries) (bursts.map .burst) :=
      deliver_append t (start s) deliveries _
    rw [hSplit] at hOk hReports ⊢
    have hBefore := deliver_ok t hOk
    rw [runFrom_concat, Run.andThen_of_ok hBefore]
    have hKeepsUp := (KeepsUp.start (runFrom t s deliveries).engine).bursts hSorted hOk
    exact hKeepsUp.handledAtOnce hSorted hReports
  · intro i ready hSome
    cases hNext : i.next? ready with
    | none => exact absurd (Inbox.next?_eq_none hNext) hSome
    | some next => rfl
  · intro i xs i' hServes
    refine ⟨hServes.messages_eq, ?_⟩
    intro before after m hOther hMessages
    exact Delivery.exists_of_flatMap hMessages hOther

end Engine

end

namespace Engine

/-- Three votes that are in time for the second slot, the last one of them for an unknown block. -/
def ChainedNetwork.lateVotes (n : ChainedNetwork) : List (List ReceivedAttestation) :=
  let root := n.vote.data.blockRoot
  [[n.vote], [{ n.vote with attestation := n.voteFor 2 root, arrival := 1 }],
    [{ n.vote with attestation := n.voteFor 2 0, arrival := 2 }]]

/-- An inbox in which a tick follows two votes, with one vote after it. -/
def ChainedNetwork.inbox (n : ChainedNetwork) : Inbox :=
  { queue := [.attestation n.vote, .attestation n.vote, .tick 18, .attestation n.vote] }

/-- Three bursts in a small network, and an inbox from which three deliveries are taken: a burst
that is not as long as it could be, another one, and the tick that has ended it. -/
theorem burstBoundaries_of_lateVotes :
    letI : HashFunction := linearHash
    letI : SignatureScheme := Bls.scheme
    ∃ n : ChainedNetwork, chainedNetwork = some n ∧
      let t := slotTransition n.store.preset
      let deliveries := [.tick 18, .block n.first]
      let short := runFrom t n.store (deliveries ++ n.lateVotes.map .burst)
      let long := runFrom t n.store (deliveries ++ [.burst n.lateVotes.flatten])
      let xs := [.burst [n.vote], .burst [n.vote], .tick 18]
      (n.lateVotes.flatten.Pairwise fun a a' => a.arrival ≤ a'.arrival) ∧
        short.failure = none ∧ short.engine.tracker.votes.size = 2 ∧
          short.engine.waiting.attestationCount = 1 ∧ long.failure = none ∧
            long.engine.Alike short.engine ∧ n.inbox.Serves xs { queue := [.attestation n.vote] } ∧
              (n.inbox.next? 0).isSome = true ∧
                ∃ xs₁ x xs₂, xs = xs₁ ++ x :: xs₂ ∧
                  xs₁.flatMap Delivery.messages = [.attestation n.vote, .attestation n.vote] ∧
                    x.messages = [.tick 18] ∧ xs₂.flatMap Delivery.messages = [] := by
  let : HashFunction := linearHash
  let : SignatureScheme := Bls.scheme
  have hRuns : (chainedNetwork.any fun n =>
      let run := runFrom (slotTransition n.store.preset) n.store
        ([.tick 18, .block n.first] ++ n.lateVotes.map Delivery.burst)
      decide (n.lateVotes.flatten.Pairwise fun a a' => a.arrival ≤ a'.arrival) &&
        run.failure.isNone && decide (run.engine.tracker.votes.size = 2) &&
          decide (run.engine.waiting.attestationCount = 1)) = true := by
    decide +kernel
  obtain ⟨n, hNetwork, -, hRun⟩ := exists_chainedNetwork hRuns
  simp only [Bool.and_eq_true, Option.isNone_iff_eq_none, decide_eq_true_eq] at hRun
  obtain ⟨⟨⟨hSorted, hOk⟩, hVotes⟩, hWaits⟩ := hRun
  have hServes : n.inbox.Serves [.burst [n.vote], .burst [n.vote], .tick 18]
      { queue := [.attestation n.vote] } :=
    .cons (show Inbox.next? 0 _ = _ from rfl) (.cons (show Inbox.next? 2 _ = _ from rfl)
      (.cons (show Inbox.next? 0 _ = _ from rfl) (.nil _)))
  obtain ⟨hBursts, hNext, hInbox⟩ :=
    burstBoundaries_unseen (slotTransition n.store.preset) n.store [.tick 18, .block n.first]
  obtain ⟨hLong, hAlike⟩ := hBursts n.lateVotes hSorted hOk
  obtain ⟨-, hAlone⟩ := hInbox _ _ _ hServes
  exact ⟨n, hNetwork, hSorted, hOk, hVotes, hWaits, hLong, hAlike, hServes,
    hNext _ 0 (List.cons_ne_nil _ _), hAlone _ [] (.tick 18) (fun a h => nomatch h) rfl⟩

end Engine

end ForkChoice
