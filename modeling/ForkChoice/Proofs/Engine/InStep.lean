import ForkChoice.Proofs.Engine.Polls

/-!
# ForkChoice — collected votes and stored votes stay in step

The engine collects votes for the head, and the store keeps votes of its own. The votes in blocks
are collected only, so the two may differ, but not freely: a validator that has a vote in the store
has one among the collected votes, and of no smaller epoch. Without votes in blocks there is no
difference at all.

The argument is on the ballots of a run (`Engine.Polls`). A ballot adds the same votes in both
places, or it adds collected votes only, or it empties both.

* `LatestMessages.Covers` — votes that are as late as others;
* `Covers.ballots` — ballots keep it up;
* `collect_eq_store` — ballots without votes in blocks;
* `Engine.InStep`, `inStep_of_run` — what follows for the runs without failures.
-/

namespace ForkChoice

open StoreView

/-! ## Votes that cover others -/

namespace LatestMessages

/-- Whoever has a vote in `stored` has one in `m`, and of no smaller epoch. -/
def Covers (m stored : LatestMessages) : Prop :=
  ∀ index message, stored.get? index = some message →
    ∃ vote, m.get? index = some vote ∧ message.epoch ≤ vote.epoch

namespace Covers

variable {m stored : LatestMessages}

theorem refl (m : LatestMessages) : Covers m m :=
  fun _ message h => ⟨message, h, UInt64.le_refl _⟩

/-- One more vote on the left takes the place of earlier ones only. -/
theorem merge_left (h : Covers m stored) (index : ValidatorIndex) (message : LatestMessage) :
    Covers (m.merge index message) stored := by
  intro index' message' hStored
  obtain ⟨vote, hVote, hLe⟩ := h index' message' hStored
  rw [get?_merge]
  split
  · rename_i hTaken
    obtain ⟨rfl, hReplaces⟩ := hTaken
    rw [hVote, replaces, decide_eq_true_eq] at hReplaces
    exact ⟨message, rfl, UInt64.le_trans hLe (UInt64.le_of_lt hReplaces)⟩
  · exact ⟨vote, hVote, hLe⟩

/-- After one more vote the validator has it, or one that is as late. -/
theorem exists_get?_merge (m : LatestMessages) (index : ValidatorIndex)
    (message : LatestMessage) :
    ∃ vote, (m.merge index message).get? index = some vote ∧ message.epoch ≤ vote.epoch := by
  rw [get?_merge]
  split
  · exact ⟨message, rfl, UInt64.le_refl _⟩
  · rename_i hKept
    rw [not_and] at hKept
    cases hVote : m.get? index with
    | none => exact absurd (by rw [hVote]; rfl) (hKept rfl)
    | some vote =>
      have hNot := hKept rfl
      rw [hVote, replaces, decide_eq_true_eq, UInt64.not_lt] at hNot
      exact ⟨vote, rfl, hNot⟩

theorem merge (h : Covers m stored) (index : ValidatorIndex) (message : LatestMessage) :
    Covers (m.merge index message) (stored.merge index message) := by
  intro index' message' hStored
  rw [get?_merge] at hStored
  split at hStored
  · -- The vote itself is in the store, and there is one as late on the left.
    rename_i hTaken
    obtain ⟨rfl, -⟩ := hTaken
    cases hStored
    exact exists_get?_merge m index message
  · exact h.merge_left index message index' message' hStored

theorem mergeAll_left (h : Covers m stored) (indices : List ValidatorIndex)
    (message : LatestMessage) : Covers (m.mergeAll indices message) stored := by
  unfold LatestMessages.mergeAll
  induction indices generalizing m with
  | nil => exact h
  | cons index rest ih => exact ih (h.merge_left index message)

theorem mergeAll (h : Covers m stored) (indices : List ValidatorIndex)
    (message : LatestMessage) :
    Covers (m.mergeAll indices message) (stored.mergeAll indices message) := by
  unfold LatestMessages.mergeAll
  induction indices generalizing m stored with
  | nil => exact h
  | cons index rest ih => exact ih (h.merge index message)

theorem mergeVotes_left (h : Covers m stored) (votes : List Vote) :
    Covers (m.mergeVotes votes) stored := by
  unfold LatestMessages.mergeVotes
  induction votes generalizing m with
  | nil => exact h
  | cons vote rest ih => exact ih (h.mergeAll_left vote.1 vote.2)

/-- **Ballots** keep the collected votes as late as those in the store. -/
theorem ballots (h : Covers m stored) (ballots : List Ballot) :
    Covers (ballots.foldl Ballot.collect m) (ballots.foldl Ballot.store stored) := by
  induction ballots generalizing m stored with
  | nil => exact h
  | cons ballot rest ih =>
    refine ih ?_
    cases ballot with
    | attestation a indices => exact h.mergeAll indices a.data.message
    | block b votes => exact h.mergeVotes_left votes
    | forgotten => exact refl .empty

end Covers

/-- Where no block has brought votes, both places get the same. -/
theorem collect_eq_store {ballots : List Ballot}
    (hBlocks : ∀ b votes, Ballot.block b votes ∈ ballots → votes = []) (m : LatestMessages) :
    ballots.foldl Ballot.collect m = ballots.foldl Ballot.store m := by
  induction ballots generalizing m with
  | nil => rfl
  | cons ballot rest ih =>
    have hFirst : ballot.collect m = ballot.store m := by
      cases ballot with
      | attestation a indices => rfl
      | block b votes =>
        rw [hBlocks b votes List.mem_cons_self]
        rfl
      | forgotten => rfl
    rw [List.foldl_cons, List.foldl_cons, hFirst]
    exact ih (fun b votes hMem => hBlocks b votes (List.mem_cons_of_mem _ hMem)) _

end LatestMessages

namespace Engine

/-! ## Between messages -/

/-- No block that has been imported has attestations in it. -/
def NoBlockVotes (e : Engine) : Prop :=
  ∀ b, .blockImported b ∈ e.journal → b.body.attestations = []

/-- The collected votes and those in the store are in step. -/
structure InStep (e : Engine) : Prop where
  stored : ∃ m : LatestMessages, e.store.view.latestMessage? = m.get?
  /-- Whoever has a vote in the store has a collected one, and of no smaller epoch. -/
  covers : ∀ index message, e.store.view.latestMessage? index = some message →
    ∃ vote, e.tracker.votes.get? index = some vote ∧ message.epoch ≤ vote.epoch
  agree : e.NoBlockVotes → e.tracker.votes.get? = e.store.view.latestMessage?

section

variable [HashFunction] [SignatureScheme] {t : StateTransition} {s : Store} {e : Engine}
  {ballots : List Ballot}

theorem Polls.noBlockVotes {e' : Engine} (h : Polls t e ballots e') (hBlocks : e'.NoBlockVotes) :
    ∀ b votes, .block b votes ∈ ballots → votes = [] := by
  intro b votes hMem
  obtain ⟨hImported, p, state, hVotes⟩ := h.inBlocks b votes hMem
  rw [hBlocks b hImported, blockVotes] at hVotes
  exact (Except.ok.inj hVotes).symm

theorem Polls.inStep (hs : s.IsAnchored) (h : Polls t { store := s } ballots e) : e.InStep := by
  -- A store that begins has no votes.
  have hStored : e.store.view.latestMessage? = (ballots.foldl Ballot.store .empty).get? :=
    h.stored .empty hs.latestMessage?_eq
  have hCollected : e.tracker.votes = ballots.foldl Ballot.collect .empty := h.collected
  refine ⟨⟨_, hStored⟩, ?_, ?_⟩
  · -- Both places are empty in the beginning.
    have hCovers := (LatestMessages.Covers.refl .empty).ballots ballots
    rw [hStored, hCollected]
    exact hCovers
  · intro hBlocks
    rw [hStored, hCollected, LatestMessages.collect_eq_store (h.noBlockVotes hBlocks)]

/-- **In step.** In a run without failures, after each message, the collected votes and those in
the store are in step. What each message has done about votes is the same in both places, but for
the votes in blocks; in particular both are emptied by those messages by which a later checkpoint
is justified, and at the same point among the other ballots. -/
theorem inStep_of_run (t : StateTransition) (hs : s.IsAnchored) (deliveries : List Delivery)
    (hOk : (runFrom t s deliveries).failure = none) :
    (∀ n, (runFrom t s (deliveries.take n)).engine.InStep) ∧
      ∀ n < deliveries.length, ∃ ballots,
        Polls t (runFrom t s (deliveries.take n)).engine ballots
          (runFrom t s (deliveries.take (n + 1))).engine := by
  constructor
  · intro n
    obtain ⟨ballots, hPolls⟩ := polls_runFrom (failure_take t hOk n)
    exact hPolls.inStep hs
  · intro n hn
    have hAfter := failure_take t hOk (n + 1)
    rw [List.take_succ_eq_append_getElem hn, runFrom_concat] at hAfter ⊢
    obtain ⟨hBefore, hLast⟩ := Run.andThen_ok hAfter
    rw [Run.andThen_of_ok hBefore]
    exact polls_handle hLast

end

/-- A vote is counted, and forgotten when a checkpoint of the next epoch is justified. -/
def ChainedNetwork.forgetful (n : ChainedNetwork) : List Delivery :=
  [.tick 12, .block n.first, .burst [n.vote], .justified ⟨1, n.vote.data.blockRoot⟩]

/-- In a small network a vote is in the store after three messages, and after the fourth one no
vote is left in either place. -/
theorem inStep_of_forgetful :
    letI : HashFunction := linearHash
    letI : SignatureScheme := Bls.scheme
    ∃ n : ChainedNetwork, chainedNetwork = some n ∧ n.store.IsAnchored ∧
      let t := slotTransition n.store.preset
      let before := (runFrom t n.store (n.forgetful.take 3)).engine
      let after := (runFrom t n.store (n.forgetful.take 4)).engine
      (runFrom t n.store n.forgetful).failure = none ∧
        (∃ index, before.store.view.latestMessage? index = some n.vote.data.message) ∧
          after.tracker.votes.isEmpty ∧ before.InStep ∧ after.InStep ∧
            ∃ ballots, Polls t before ballots after := by
  let : HashFunction := linearHash
  let : SignatureScheme := Bls.scheme
  have hRuns : (chainedNetwork.any fun n =>
      let t := slotTransition n.store.preset
      let v := (runFrom t n.store (n.forgetful.take 3)).engine.store.view
      (runFrom t n.store n.forgetful).failure.isNone &&
        ((List.range 8).any fun i =>
          decide (v.latestMessage? (UInt64.ofNat i) = some n.vote.data.message)) &&
        (runFrom t n.store (n.forgetful.take 4)).engine.tracker.votes.isEmpty) = true := by
    decide +kernel
  obtain ⟨n, hNetwork, hGenesis, hRun⟩ := exists_chainedNetwork hRuns
  simp only [Bool.and_eq_true, Option.isNone_iff_eq_none, List.any_eq_true,
    decide_eq_true_eq] at hRun
  obtain ⟨⟨hOk, i, -, hVote⟩, hEmpty⟩ := hRun
  have hs := hGenesis.isAnchored
  obtain ⟨hInStep, hPolls⟩ := inStep_of_run _ hs n.forgetful hOk
  have hFourth : 3 < n.forgetful.length := Nat.lt_succ_self 3
  exact ⟨n, hNetwork, hs, hOk, ⟨_, hVote⟩, hEmpty, hInStep 3, hInStep 4, hPolls 3 hFourth⟩

end Engine

end ForkChoice
