import Mathlib.Data.List.DropRight
import ForkChoice.Proofs.Store.Replay
import ForkChoice.Proofs.Store.Tree

/-!
# ForkChoice — the latest vote of a validator

A vote takes the place of another one only if its epoch is greater. This rule is applied twice,
when a vote comes into a draft and when the draft is committed, and a draft that forgets all votes
has to forget those of the store below it too. From outside none of this can be seen: the vote of
a validator is the first one of the greatest epoch among its votes since all votes were last
forgotten, counted over all drafts that have been committed and in the order in which attestations
were accepted.

The log of a draft says what was done about votes, with no regard to epochs. It is enough to look
at one draft, because every history is the replay of one (`Store.after_view`), and there the log
grows at its end as the votes change.

* `VoteEvent`, `Draft.voteLog`, `Store.voteLog` — what is done about votes;
* `countedVotes` — the votes of a validator since all were last forgotten;
* `FirstOfGreatest` — which of them counts, `FirstOfGreatest.concat` — one more vote;
* `Draft.changeAll_countsVotes` — the votes that a draft shows;
* `Store.latestVotes_of_history` — the votes of a store after any history.
-/

namespace ForkChoice

/-! ## What is done about votes -/

/-- Something that is done about votes. -/
inductive VoteEvent where
  /-- An attestation of these participants is accepted. -/
  | recorded (indices : List ValidatorIndex) (message : LatestMessage)
  /-- All votes are forgotten. -/
  | forgotten

namespace VoteEvent

/-- Whether votes are added. -/
def isRecorded : VoteEvent → Bool
  | recorded .. => true
  | forgotten => false

/-- The vote of a validator, if it is among the participants. -/
def voteOf? (index : ValidatorIndex) : VoteEvent → Option LatestMessage
  | recorded indices message => if index ∈ indices then some message else none
  | forgotten => none

end VoteEvent

/-- The votes of a validator since all were last forgotten, in the order of their acceptance. -/
def countedVotes (index : ValidatorIndex) (log : List VoteEvent) : List LatestMessage :=
  (log.rtakeWhile VoteEvent.isRecorded).filterMap (VoteEvent.voteOf? index)

section

variable [HashFunction] [SignatureScheme]

/-- What an operation on a draft does about votes. -/
def Draft.voteEvents (t : StateTransition) (d : Draft) : Change → List VoteEvent
  | .attestation check a =>
    match (d.attest t check a).1 with
    | .ok indices => [.recorded indices a.data.message]
    | .error _ => []
  | .discardVotes => [.forgotten]
  | .tick _ | .block _ => []

/-- What operations in order do about votes. -/
def Draft.voteLog (t : StateTransition) (d : Draft) : List Change → List VoteEvent
  | [] => []
  | c :: changes => d.voteEvents t c ++ (d.change t c).voteLog t changes

/-- What the committed drafts of a history do about votes. -/
def Store.voteLog (t : StateTransition) (s : Store) : List Transaction → List VoteEvent
  | [] => []
  | x :: history =>
    (if x.commits then (Draft.ofStore s).voteLog t x.changes else []) ++
      (s.transact t x).voteLog t history

end

section

variable {index : ValidatorIndex} {log : List VoteEvent}

theorem countedVotes_recorded (indices : List ValidatorIndex) (message : LatestMessage) :
    countedVotes index (log ++ [.recorded indices message]) =
      countedVotes index log ++ if index ∈ indices then [message] else [] := by
  have hKept : VoteEvent.isRecorded (.recorded indices message) = true := rfl
  rw [countedVotes, List.rtakeWhile_concat_pos _ _ _ hKept, List.filterMap_append]
  by_cases h : index ∈ indices <;> simp [countedVotes, VoteEvent.voteOf?, h]

theorem countedVotes_forgotten : countedVotes index (log ++ [.forgotten]) = [] := by
  have hEnd : ¬VoteEvent.isRecorded .forgotten = true := Bool.false_ne_true
  rw [countedVotes, List.rtakeWhile_concat_neg _ _ _ hEnd]
  rfl

end

/-! ## The vote that counts -/

/-- The first one of the greatest epoch among votes in order, if there is any. -/
inductive FirstOfGreatest : List LatestMessage → Option LatestMessage → Prop
  | none : FirstOfGreatest [] none
  | some {before after : List LatestMessage} {message : LatestMessage}
    (hBefore : ∀ earlier ∈ before, earlier.epoch < message.epoch)
    (hAfter : ∀ later ∈ after, later.epoch ≤ message.epoch) :
    FirstOfGreatest (before ++ message :: after) (some message)

namespace FirstOfGreatest

variable {votes : List LatestMessage} {current : Option LatestMessage}

/-- No vote has a greater epoch than the one that counts. -/
theorem epoch_le {message : LatestMessage} (h : FirstOfGreatest votes (.some message)) :
    ∀ vote ∈ votes, vote.epoch ≤ message.epoch := by
  cases h with
  | some hBefore hAfter =>
    intro vote hMem
    rcases List.mem_append.mp hMem with hMem | hMem
    · exact UInt64.le_of_lt (hBefore vote hMem)
    · rcases List.mem_cons.mp hMem with rfl | hMem
      · exact UInt64.le_refl _
      · exact hAfter vote hMem

/-- **One more vote** counts if it goes before the one that has counted so far. -/
theorem concat (h : FirstOfGreatest votes current) (message : LatestMessage) :
    FirstOfGreatest (votes ++ [message])
      (if LatestMessages.replaces message current then .some message else current) := by
  cases h with
  | none => exact @some [] [] message (by simp) (by simp)
  | @some before after counted hBefore hAfter =>
    have hCounted := FirstOfGreatest.some hBefore hAfter
    by_cases hGreater : counted.epoch < message.epoch
    · -- All votes so far have a smaller epoch.
      have hReplaces : LatestMessages.replaces message (.some counted) = true :=
        decide_eq_true hGreater
      rw [if_pos hReplaces]
      refine some (fun vote hMem => ?_) (by simp)
      exact UInt64.lt_of_le_of_lt (hCounted.epoch_le vote hMem) hGreater
    · have hStays : ¬LatestMessages.replaces message (.some counted) = true := by
        simpa [LatestMessages.replaces] using hGreater
      rw [if_neg hStays, List.append_assoc, List.cons_append]
      refine some hBefore fun vote hMem => ?_
      rcases List.mem_append.mp hMem with hMem | hMem
      · exact hAfter vote hMem
      · rw [List.mem_singleton.mp hMem]
        exact UInt64.not_lt.mp hGreater

end FirstOfGreatest

/-- Of each validator the view shows the vote that counts. -/
def StoreView.CountsVotes (v : StoreView) (log : List VoteEvent) : Prop :=
  ∀ index, FirstOfGreatest (countedVotes index log) (v.latestMessage? index)

/-! ## Votes in a draft -/

namespace Draft

section

variable (d : Draft)

/-- Of several votes for one message, that of each participant is recorded once. -/
theorem latestMessage?_mergeVotes (indices : List ValidatorIndex) (message : LatestMessage)
    (index : ValidatorIndex) :
    (d.mergeVotes indices message).view.latestMessage? index =
      if index ∈ indices ∧ LatestMessages.replaces message (d.view.latestMessage? index) then
        some message
      else d.view.latestMessage? index := by
  unfold mergeVotes
  induction indices generalizing d with
  | nil => simp
  | cons first rest ih =>
    rw [List.foldl_cons, ih (d.mergeVote message first), mergeVote_view]
    show (if index ∈ rest ∧ LatestMessages.replaces message
      (if first = index ∧ LatestMessages.replaces message (d.view.latestMessage? first) then _
        else _) then _ else ite _ _ _) = _
    by_cases hFirst : first = index
    · subst hFirst
      -- Once it is recorded, the message does not go before itself.
      have hSelf : LatestMessages.replaces message (some message) = false :=
        decide_eq_false (UInt64.lt_irrefl _)
      by_cases hReplaces : LatestMessages.replaces message (d.view.latestMessage? first) <;>
        simp [hReplaces, hSelf]
    · simp [hFirst, Ne.symm hFirst]

theorem tick_latestMessage? (time : UInt64) :
    (d.tick time).view.latestMessage? = d.view.latestMessage? := by
  rcases d.tick_cases time with ⟨-, h⟩ | ⟨-, h⟩ | ⟨-, -, h⟩ <;> rw [h] <;> rfl

theorem importBlock_latestMessage? [HashFunction] (t : StateTransition) (b : Block) :
    (d.importBlock t b).2.view.latestMessage? = d.view.latestMessage? := by
  rcases d.importBlock_cases t b with ⟨hSame, -⟩ | ⟨root, parentState, state, -, -, hDraft, -⟩
  · rw [hSame]
  · rw [hDraft, (updateCheckpoints_rejustified _ state).view.latestMessage?, insertBlock_view,
      countApplyBlock_view]
    rfl

end

section

variable [HashFunction] [SignatureScheme] {t : StateTransition} {d d' : Draft}
  {log : List VoteEvent}

/-- **Operations.** What an operation does about votes and what it changes in the votes that are
shown go together. -/
theorem change_countsVotes (h : d.view.CountsVotes log) (c : Change) :
    (d.change t c).view.CountsVotes (log ++ d.voteEvents t c) := by
  intro index
  cases c with
  | tick time =>
    rw [change, tick_latestMessage?, voteEvents, List.append_nil]
    exact h index
  | block b =>
    rw [change, importBlock_latestMessage?, voteEvents, List.append_nil]
    exact h index
  | attestation check a =>
    obtain ⟨cached, hCached, ⟨failure, hEnd⟩ | ⟨indices, hEnd⟩⟩ := d.attest_cases t check a <;>
      rw [change, voteEvents, hEnd]
    · rw [hCached.latestMessage?, List.append_nil]
      exact h index
    · rw [latestMessage?_mergeVotes, hCached.latestMessage?, countedVotes_recorded]
      by_cases hMember : index ∈ indices
      · simp only [hMember, true_and, if_true]
        exact (h index).concat a.data.message
      · simp only [hMember, false_and, if_false, List.append_nil]
        exact h index
  | discardVotes =>
    rw [voteEvents, countedVotes_forgotten]
    exact .none

/-- **Drafts.** In the course of a draft the votes that are shown are those that count. -/
theorem changeAll_countsVotes (h : d.view.CountsVotes log) (changes : List Change) :
    (d.changeAll t changes).view.CountsVotes (log ++ d.voteLog t changes) := by
  unfold changeAll
  induction changes generalizing d log with
  | nil =>
    rw [voteLog, List.append_nil]
    exact h
  | cons c rest ih =>
    rw [voteLog, ← List.append_assoc]
    exact ih (change_countsVotes h c)

/-! ## The log of a replay -/

theorem voteEvents_congr (h : d.view = d'.view) (c : Change) :
    d.voteEvents t c = d'.voteEvents t c := by
  cases c with
  | attestation check a => rw [voteEvents, voteEvents, (attest_sameAnswer h check a).1]
  | tick | block | discardVotes => rfl

theorem voteLog_congr (h : d.view = d'.view) (changes : List Change) :
    d.voteLog t changes = d'.voteLog t changes := by
  induction changes generalizing d d' with
  | nil => rfl
  | cons c rest ih => rw [voteLog, voteLog, voteEvents_congr h, ih (change_view_congr h c)]

theorem voteLog_append (changes changes' : List Change) :
    d.voteLog t (changes ++ changes') =
      d.voteLog t changes ++ (d.changeAll t changes).voteLog t changes' := by
  induction changes generalizing d with
  | nil => rfl
  | cons c rest ih =>
    rw [List.cons_append, voteLog, voteLog, ih, List.append_assoc]
    rfl

end

end Draft

/-! ## Votes after a history -/

namespace Store

variable [HashFunction] [SignatureScheme] {t : StateTransition} {s : Store}

theorem voteLog_concat (history : List Transaction) (x : Transaction) :
    s.voteLog t (history ++ [x]) = s.voteLog t history ++
      if x.commits then (Draft.ofStore (s.after t history)).voteLog t x.changes else [] := by
  induction history generalizing s with
  | nil =>
    rw [List.nil_append, voteLog, voteLog, voteLog, List.append_nil, List.nil_append]
    rfl
  | cons first rest ih =>
    rw [List.cons_append, voteLog, voteLog, ih, List.append_assoc]
    rfl

/-- The log of a history is that of its replay in one draft. -/
theorem voteLog_eq (history : List Transaction) :
    s.voteLog t history = (Draft.ofStore s).voteLog t (committedChanges history) := by
  induction history using List.reverseRecOn with
  | nil => rfl
  | append_singleton history x ih =>
    rw [voteLog_concat, committedChanges_concat, Draft.voteLog_append, ih]
    congr 1
    split
    · exact Draft.voteLog_congr ((Draft.ofStore_view _).trans (after_view s history)) x.changes
    · rfl

/-- **Latest votes.** After any drafts under any rules, the vote that a store keeps of a validator
is the first one of the greatest epoch among its votes in the committed drafts since all votes
were last forgotten, and it does not matter how the operations are divided into drafts. -/
theorem latestVotes_of_history (hs : s.IsAnchored) (t : StateTransition)
    (history : List Transaction) :
    (s.after t history).view.CountsVotes (s.voteLog t history) ∧
      ∀ history', committedChanges history' = committedChanges history →
        s.voteLog t history' = s.voteLog t history ∧
          (s.after t history').view = (s.after t history).view := by
  constructor
  · -- A store that begins has no votes, and none have been recorded.
    have hBegin : (Draft.ofStore s).view.CountsVotes [] := by
      intro index
      rw [Draft.ofStore_view, hs.latestMessage?_eq]
      exact .none
    rw [after_view, voteLog_eq]
    exact Draft.changeAll_countsVotes hBegin _
  · intro history' hSame
    rw [voteLog_eq, voteLog_eq, after_view, after_view, hSame]
    exact ⟨rfl, rfl⟩

end Store

/-- Both blocks arrive and are voted for. One vote is given up, one is forgotten, and the last one
is the second vote of a validator in this epoch. -/
def Engine.ChainedNetwork.votes (n : ChainedNetwork) (first second : Root) : List Transaction :=
  [⟨[.tick 18, .block n.first, .block n.second, .attestation .skip (n.voteFor 1 first)], true⟩,
    ⟨[.attestation .skip (n.voteFor 2 second)], false⟩,
    ⟨[.attestation .skip (n.voteFor 1 first), .discardVotes,
      .attestation .skip (n.voteFor 2 first)], true⟩,
    ⟨[.attestation .skip (n.voteFor 2 second)], true⟩]

/-- A validator votes twice in an epoch, and the first of these votes counts. -/
theorem Store.latestVotes_of_twoVotes :
    letI : HashFunction := Engine.linearHash
    letI : SignatureScheme := Bls.scheme
    ∃ (n : Engine.ChainedNetwork) (index : ValidatorIndex) (first second : Root),
      Engine.chainedNetwork = some n ∧ n.store.IsAnchored ∧ first ≠ second ∧
        let t := slotTransition n.store.preset
        countedVotes index (n.store.voteLog t (n.votes first second)) =
            [⟨0, first⟩, ⟨0, second⟩] ∧
          (n.store.after t (n.votes first second)).view.latestMessage? index = some ⟨0, first⟩ ∧
          (n.store.after t (n.votes first second)).view.CountsVotes
            (n.store.voteLog t (n.votes first second)) := by
  let : HashFunction := Engine.linearHash
  let : SignatureScheme := Bls.scheme
  have hRuns : (Engine.chainedNetwork.any fun n =>
      (n.second.treeRoot).toOption.any fun second =>
        let first := n.vote.attestation.data.blockRoot
        let t := slotTransition n.store.preset
        let log := n.store.voteLog t (n.votes first second)
        let v := (n.store.after t (n.votes first second)).view
        first ≠ second && (List.range 8).any fun i =>
          decide (countedVotes (UInt64.ofNat i) log = [⟨0, first⟩, ⟨0, second⟩]) &&
            decide (v.latestMessage? (UInt64.ofNat i) = some ⟨0, first⟩)) = true := by
    decide +kernel
  obtain ⟨n, hNetwork, hGenesis, hRun⟩ := Engine.exists_chainedNetwork hRuns
  obtain ⟨second, -, hRun⟩ := (Option.any_eq_true ..).mp hRun
  simp only [Bool.and_eq_true, List.any_eq_true, decide_eq_true_eq] at hRun
  obtain ⟨hNe, i, -, hCounted, hLatest⟩ := hRun
  have hs := hGenesis.isAnchored
  exact ⟨n, UInt64.ofNat i, _, second, hNetwork, hs, hNe, hCounted, hLatest,
    (latestVotes_of_history hs _ _).1⟩

end ForkChoice
