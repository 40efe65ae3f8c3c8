import ForkChoice.Proofs.Engine.Conservation
import ForkChoice.Proofs.Store.LatestVotes

/-!
# ForkChoice — what a message does about votes

Votes are kept twice: collected, for the head, and in the store. A handler changes both at
different moments. A burst is a draft of the store that is published before its votes are
collected, a checkpoint that is justified empties the collected votes before it empties the store,
and all this can happen in the middle of blocks that let each other go on.

What a handler does about votes is nevertheless one list of ballots, from which both change. Each
step of a handler has such a list, and the lists of consecutive steps are appended.

* `Engine.Polls` — one list of ballots explains what has become of both, and `forgotten` is in it
  exactly if a later checkpoint is justified;
* `Polls.trans` — one step after another;
* `polls_processAttestations` — a burst, in the order of arrival;
* `polls_handle`, `polls_runFrom` — a message, and a run.
-/

namespace ForkChoice

open StoreView

/-- The ballot of an attestation with the indices that the store has accepted for it. -/
def Ballot.ofApplied (x : ReceivedAttestation × List ValidatorIndex) : Ballot :=
  .attestation x.1 x.2

theorem forgotten_not_mem_ofApplied
    (applied : List (ReceivedAttestation × List ValidatorIndex)) :
    Ballot.forgotten ∉ applied.map Ballot.ofApplied := by
  intro hMem
  obtain ⟨x, -, hx⟩ := List.mem_map.mp hMem
  cases hx

namespace Engine

variable [HashFunction] [SignatureScheme]

/-- From `e` on to `e'`, the ballots tell all that has been done about votes. -/
structure Polls (t : StateTransition) (e : Engine) (ballots : List Ballot) (e' : Engine) :
    Prop where
  collected : e'.tracker.votes = ballots.foldl Ballot.collect e.tracker.votes
  stored : ∀ m : LatestMessages, e.store.view.latestMessage? = m.get? →
    e'.store.view.latestMessage? = (ballots.foldl Ballot.store m).get?
  /-- Votes are forgotten because of a later checkpoint, and for no other reason. -/
  justified :
    (.forgotten ∈ ballots ∧ e.tracker.justified.epoch < e'.tracker.justified.epoch) ∨
      (.forgotten ∉ ballots ∧ e'.tracker.justified = e.tracker.justified)
  /-- The attestations are those that have been applied meanwhile, in this order. -/
  applied : e'.journal.filterMap Fate.applied? =
    (ballots.filterMap Ballot.attestation?).reverse ++ e.journal.filterMap Fate.applied?
  journal : e.journal <:+ e'.journal
  accepted : ∀ a indices, .attestation a indices ∈ ballots →
    ∃ d d' : Draft, d.attest t .skip a.attestation = (.ok indices, d')
  inBlocks : ∀ b votes, .block b votes ∈ ballots → .blockImported b ∈ e'.journal ∧
    ∃ p state, blockVotes p state b.body.attestations = .ok votes

namespace Polls

variable {t : StateTransition} {e e' e'' : Engine} {ballots ballots' : List Ballot}

/-- A step that leaves the votes alone. -/
theorem silent (hVotes : e'.tracker.votes = e.tracker.votes)
    (hJustified : e'.tracker.justified = e.tracker.justified)
    (hStored : e'.store.view.latestMessage? = e.store.view.latestMessage?)
    (hApplied : e'.journal.filterMap Fate.applied? = e.journal.filterMap Fate.applied?)
    (hJournal : e.journal <:+ e'.journal) : Polls t e [] e' where
  collected := hVotes
  stored _ hm := hStored.trans hm
  justified := Or.inr ⟨List.not_mem_nil, hJustified⟩
  applied := hApplied
  journal := hJournal
  accepted _ _ h := absurd h List.not_mem_nil
  inBlocks _ _ h := absurd h List.not_mem_nil

theorem refl (t : StateTransition) (e : Engine) : Polls t e [] e :=
  silent rfl rfl rfl rfl (List.suffix_refl _)

/-- A step that changes neither the store nor what the tracker knows of votes, and has nothing
applied. -/
theorem of_same (hStore : e'.store = e.store) (hVotes : e'.tracker.votes = e.tracker.votes)
    (hJustified : e'.tracker.justified = e.tracker.justified)
    (hJournal : e'.journal = e.journal) : Polls t e [] e' := by
  refine silent hVotes hJustified (by rw [hStore]) (by rw [hJournal]) ?_
  rw [hJournal]

/-- **One after another.** -/
theorem trans (h : Polls t e ballots e') (h' : Polls t e' ballots' e'') :
    Polls t e (ballots ++ ballots') e'' where
  collected := by
    rw [List.foldl_append, ← h.collected]
    exact h'.collected
  stored m hm := by
    rw [List.foldl_append]
    exact h'.stored _ (h.stored m hm)
  justified := by
    simp only [List.mem_append]
    -- The epoch of the checkpoint only grows, so one step in which votes are forgotten is enough.
    rcases h.justified with ⟨hOld, hLater⟩ | ⟨hNot, hSame⟩ <;>
      rcases h'.justified with ⟨hNew, hLater'⟩ | ⟨hNot', hSame'⟩
    · exact Or.inl ⟨Or.inl hOld, UInt64.lt_trans hLater hLater'⟩
    · exact Or.inl ⟨Or.inl hOld, hSame' ▸ hLater⟩
    · exact Or.inl ⟨Or.inr hNew, hSame ▸ hLater'⟩
    · exact Or.inr ⟨not_or.mpr ⟨hNot, hNot'⟩, hSame'.trans hSame⟩
  applied := by
    rw [h'.applied, h.applied, List.filterMap_append, List.reverse_append, List.append_assoc]
  journal := h.journal.trans h'.journal
  accepted a indices hMem := by
    rcases List.mem_append.mp hMem with hOld | hNew
    · exact h.accepted a indices hOld
    · exact h'.accepted a indices hNew
  inBlocks b votes hMem := by
    rcases List.mem_append.mp hMem with hOld | hNew
    · obtain ⟨hImported, hVotes⟩ := h.inBlocks b votes hOld
      exact ⟨h'.journal.subset hImported, hVotes⟩
    · exact h'.inBlocks b votes hNew

/-- A step at the end, or at the beginning, that leaves the votes alone. -/
theorem concat_silent (h : Polls t e ballots e') (h' : Polls t e' [] e'') :
    Polls t e ballots e'' := by
  have hBoth := h.trans h'
  rwa [List.append_nil] at hBoth

theorem cons_silent (h : Polls t e [] e') (h' : Polls t e' ballots e'') :
    Polls t e ballots e'' :=
  h.trans h'

/-- What waits does not matter, nor what has been told. -/
theorem of_waiting {waiting : Waiting} (h : Polls t { e with waiting := waiting } ballots e') :
    Polls t e ballots e' := by
  have hTaken : Polls t e [] { e with waiting := waiting } := .of_same rfl rfl rfl rfl
  exact hTaken.cons_silent h

theorem of_notify {notice : Notice} (h : Polls t (e.notify notice) ballots e') :
    Polls t e ballots e' := by
  have hTold : Polls t e [] (e.notify notice) := .of_same rfl rfl rfl rfl
  exact hTold.cons_silent h

end Polls

variable {t : StateTransition} {e : Engine}

/-! ## The head -/

theorem polls_updateHead (t : StateTransition) (e : Engine) :
    Polls t e [] e.updateHead.engine := by
  obtain ⟨hVotes, hJustified⟩ := updateHead_tracker e.store.view e.tracker
  rw [updateHead_engine]
  exact .of_same rfl hVotes hJustified rfl

/-- **A justified checkpoint** makes the votes forgotten in both places, or in none. -/
theorem polls_adoptJustified {checkpoint : Checkpoint}
    (hOk : (e.adoptJustified checkpoint).failure = none) :
    ∃ ballots, Polls t e ballots (e.adoptJustified checkpoint).engine := by
  by_cases h : checkpoint.epoch ≤ e.tracker.justified.epoch
  · rw [adoptJustified_of_le h]
    exact ⟨[], .refl t e⟩
  · refine ⟨[.forgotten], ?_⟩
    rw [adoptJustified_of_not_le h] at hOk ⊢
    rw [Run.andThen_of_ok (Run.andThen_ok hOk).1]
    have hFound := polls_updateHead t (e.forgetVotes checkpoint)
    generalize (e.forgetVotes checkpoint).updateHead.engine = e' at hFound
    have hLater : e.tracker.justified.epoch < checkpoint.epoch := UInt64.not_le.mp h
    -- The search for the head is over before the store is asked to forget its votes, too.
    have hSame : e'.tracker.justified = checkpoint := by
      rcases hFound.justified with ⟨hMem, -⟩ | ⟨-, hSame⟩
      · exact absurd hMem List.not_mem_nil
      · exact hSame
    have hNew : e'.tracker.justified ≠ e.tracker.justified := by
      rw [hSame]
      rintro rfl
      exact UInt64.lt_irrefl _ hLater
    rw [followTracker, if_neg hNew]
    exact {
      collected := hFound.collected
      stored := by
        intro m _
        show (Draft.ofStore e'.store).discardVotes.commit.view.latestMessage? = _
        rw [Draft.Newer.discardVotes.commit_view]
        rfl
      justified := by
        refine Or.inl ⟨List.mem_singleton_self _, ?_⟩
        show _ < e'.tracker.justified.epoch
        rwa [hSame]
      applied := hFound.applied
      journal := hFound.journal
      accepted := by simp
      inBlocks := by simp }

theorem polls_refreshHead (hOk : e.refreshHead.failure = none) :
    ∃ ballots, Polls t e ballots e.refreshHead.engine := by
  have hAdopted := (Run.andThen_ok hOk).1
  obtain ⟨ballots, hBallots⟩ := polls_adoptJustified (t := t) hAdopted
  rw [refreshHead, Run.andThen_of_ok hAdopted]
  exact ⟨ballots, hBallots.concat_silent (polls_updateHead t _)⟩

/-! ## Attestations -/

omit [HashFunction] [SignatureScheme] in
theorem recordAll_justified (h : HeadTracker) (votes : List Vote) :
    (h.recordAll votes).justified = h.justified := by
  unfold HeadTracker.recordAll
  induction votes generalizing h with
  | nil => rfl
  | cons vote rest ih => exact ih _

/-- The engine of a burst as if the burst ended here: what its draft shows is published, and the
votes so far are collected. -/
def BurstProgress.soFar (b : BurstProgress) : Engine :=
  (b.engine.publish b.draft).recordVotes b.votes

omit [HashFunction] [SignatureScheme] in
theorem delayOrRefuse_journal (a : ReceivedAttestation) (reason : StoreError) :
    (e.delayOrRefuse a reason).journal.filterMap Fate.applied? =
        e.journal.filterMap Fate.applied? ∧
      e.journal <:+ (e.delayOrRefuse a reason).journal := by
  unfold delayOrRefuse
  split
  · exact ⟨rfl, List.suffix_refl _⟩
  · exact ⟨rfl, List.suffix_refl _⟩
  · exact ⟨rfl, List.suffix_refl _⟩
  · exact ⟨rfl, List.suffix_cons _ _⟩

/-- **One attestation** of a burst has one ballot or none. -/
theorem polls_attest {b : BurstProgress} {a : ReceivedAttestation} (hb : b.draft.Newer)
    (hOk : (attest t b a).failure = none) :
    ∃ applied : List (ReceivedAttestation × List ValidatorIndex),
      (applied.map Prod.fst).Sublist [a] ∧
        Polls t (BurstProgress.soFar b) (applied.map Ballot.ofApplied)
          (BurstProgress.soFar (attest t b a)) := by
  have hRunning := attest_ok hOk
  have hNewer := hb.attest (t := t) .skip a.attestation
  cases hAttest : b.draft.attest t .skip a.attestation with
  | mk result d =>
    rw [hAttest] at hNewer
    -- What is published is what the drafts show.
    have hBefore : (BurstProgress.soFar b).store.view = b.draft.view := hb.commit_view
    have hAfter : d.commit.view = d.view := hNewer.commit_view
    cases result with
    | ok indices =>
      refine ⟨[(a, indices)], List.Sublist.refl _, ?_⟩
      rw [attest, hRunning, hAttest]
      exact {
        collected := by
          show (b.engine.tracker.recordAll _).votes = _
          rw [recordAll_votes, LatestMessages.mergeVotes, List.foldl_append]
          show LatestMessages.mergeAll (b.engine.tracker.votes.mergeVotes b.votes) _ _ = _
          rw [← recordAll_votes]
          rfl
        stored := by
          intro m hm
          rw [hBefore] at hm
          show d.commit.view.latestMessage? = _
          rw [hAfter]
          exact Draft.attest_votes hAttest hm
        justified := by
          refine Or.inr ⟨forgotten_not_mem_ofApplied _, ?_⟩
          show (b.engine.tracker.recordAll (b.votes ++ _)).justified =
            (b.engine.tracker.recordAll b.votes).justified
          rw [recordAll_justified, recordAll_justified]
        applied := rfl
        journal := List.suffix_cons _ _
        accepted := by
          intro a' indices' hMem
          cases List.mem_singleton.mp hMem
          exact ⟨_, d, hAttest⟩
        inBlocks := by
          intro b' votes hMem
          cases List.mem_singleton.mp hMem }
    | error failure =>
      refine ⟨[], List.nil_sublist _, ?_⟩
      cases failure with
      | fault reason => simp [attest, hRunning, hAttest] at hOk
      | error reason =>
        have hStored : d.view.latestMessage? = b.draft.view.latestMessage? :=
          Draft.attest_error_votes hAttest
        obtain ⟨hApplied, hJournal⟩ := delayOrRefuse_journal (e := b.engine) a reason
        have hTracker := (delayOrRefuse_silent b.engine a reason).2
        rw [attest, hRunning, hAttest]
        -- A draft that has refused an attestation may still have stored a state at a checkpoint,
        -- so it is not the draft from before.
        refine .silent ?_ ?_ ?_ hApplied hJournal
        · show ((b.engine.delayOrRefuse a reason).tracker.recordAll b.votes).votes = _
          rw [hTracker]
          rfl
        · show ((b.engine.delayOrRefuse a reason).tracker.recordAll b.votes).justified = _
          rw [hTracker]
          rfl
        · show d.commit.view.latestMessage? = _
          rw [hAfter, hBefore, hStored]

theorem polls_attestAll {attestations : List ReceivedAttestation} {b : BurstProgress}
    (hb : b.draft.Newer) (hOk : (attestations.foldl (attest t) b).failure = none) :
    ∃ applied : List (ReceivedAttestation × List ValidatorIndex),
      (applied.map Prod.fst).Sublist attestations ∧
        Polls t (BurstProgress.soFar b) (applied.map Ballot.ofApplied)
          (BurstProgress.soFar (attestations.foldl (attest t) b)) := by
  induction attestations generalizing b with
  | nil => exact ⟨[], List.Sublist.refl _, .refl t _⟩
  | cons a rest ih =>
    have hFirst : (attest t b a).failure = none := attestAll_ok hOk
    obtain ⟨first, hSublist, hPolls⟩ := polls_attest hb hFirst
    obtain ⟨others, hSublist', hPolls'⟩ := ih (attest_newer hb a) hOk
    refine ⟨first ++ others, ?_, ?_⟩
    · rw [List.map_append]
      exact hSublist.append hSublist'
    · rw [List.map_append]
      exact hPolls.trans hPolls'

theorem polls_finishBurst {b : BurstProgress} (hOk : (finishBurst b).failure = none) :
    b.failure = none ∧ Polls t (BurstProgress.soFar b) [] (finishBurst b).engine := by
  unfold finishBurst at hOk ⊢
  split at hOk
  · exact absurd hOk (by simp)
  · rename_i hRunning
    refine ⟨hRunning, ?_⟩
    dsimp only
    split
    · rename_i hNone
      -- Nothing is collected from a burst without votes.
      have hSame : BurstProgress.soFar b = b.engine.publish b.draft := by
        rw [BurstProgress.soFar, List.isEmpty_iff.mp hNone]
        rfl
      rw [hSame]
      exact .refl t _
    · exact polls_updateHead t (BurstProgress.soFar b)

/-- **A burst** has one ballot for each attestation that it has applied, in the order of
arrival. -/
theorem polls_processAttestations {attestations : List ReceivedAttestation}
    (hOk : (e.processAttestations t attestations).failure = none) :
    ∃ applied : List (ReceivedAttestation × List ValidatorIndex),
      (applied.map Prod.fst).Sublist (byArrival attestations) ∧
        Polls t e (applied.map Ballot.ofApplied)
          (e.processAttestations t attestations).engine := by
  unfold processAttestations at hOk ⊢
  split at hOk
  · rename_i hNone
    rw [if_pos hNone]
    exact ⟨[], List.nil_sublist _, .refl t e⟩
  · rename_i hSome
    rw [if_neg hSome]
    let start : BurstProgress := { engine := e, draft := Draft.ofStore e.store }
    have hNewer : start.draft.Newer := Draft.newer_ofStore e.store
    -- A draft in which nothing has been done yet shows the store.
    have hStart : Polls t e [] (BurstProgress.soFar start) := by
      refine .silent rfl rfl ?_ rfl (List.suffix_refl _)
      show (Draft.ofStore e.store).commit.view.latestMessage? = _
      rw [(Draft.newer_ofStore e.store).commit_view, Draft.ofStore_view]
    change (finishBurst ((byArrival attestations).foldl (attest t) start)).failure = none at hOk
    show ∃ applied, _ ∧
      Polls t e _ (finishBurst ((byArrival attestations).foldl (attest t) start)).engine
    obtain ⟨hRunning, hEnd⟩ := polls_finishBurst hOk
    obtain ⟨applied, hSublist, hPolls⟩ := polls_attestAll hNewer hRunning
    exact ⟨applied, hSublist, (hStart.cons_silent hPolls).concat_silent hEnd⟩

theorem polls_releaseAttestations {root : Root}
    (hOk : (e.releaseAttestations t root).failure = none) :
    ∃ ballots, Polls t e ballots (e.releaseAttestations t root).engine := by
  obtain ⟨applied, -, hPolls⟩ := polls_processAttestations hOk
  exact ⟨_, hPolls.of_waiting⟩

theorem polls_releaseUntilTick (hOk : (e.releaseUntilTick t).failure = none) :
    ∃ ballots, Polls t e ballots (e.releaseUntilTick t).engine := by
  obtain ⟨applied, -, hPolls⟩ := polls_processAttestations hOk
  exact ⟨_, hPolls.of_waiting⟩

/-! ## Blocks -/

theorem polls_onBlock {block : Block} {state : BeaconState} {votes : List Vote}
    (hImported : .blockImported block ∈ e.journal)
    (hVotes : blockVotes e.store.preset state block.body.attestations = .ok votes) :
    ∃ ballots, Polls t e ballots
      { e with tracker := (e.tracker.onBlock e.store.view block votes).2 } := by
  unfold HeadTracker.onBlock
  split
  · refine ⟨[.block block votes], ?_⟩
    exact {
      collected := recordAll_votes e.tracker votes
      stored := fun _ hm => hm
      justified := Or.inr ⟨by simp, recordAll_justified e.tracker votes⟩
      applied := rfl
      journal := List.suffix_refl _
      accepted := by simp
      inBlocks := by
        intro b' votes' hMem
        cases List.mem_singleton.mp hMem
        exact ⟨hImported, _, state, hVotes⟩ }
  · exact ⟨[], .refl t e⟩

theorem polls_afterImport {root : Root} {block : Block}
    (hImported : .blockImported block ∈ e.journal)
    (hOk : (e.afterImport root block).failure = none) :
    ∃ ballots, Polls t e ballots (e.afterImport root block).engine := by
  unfold afterImport at hOk ⊢
  split at hOk
  · exact absurd hOk (by simp)
  · split at hOk
    · exact absurd hOk (by simp)
    · rename_i votes hVotes
      obtain ⟨inBlock, hBlock⟩ := polls_onBlock (t := t) hImported hVotes
      obtain ⟨ballots, hHead⟩ := polls_refreshHead (t := t) hOk
      exact ⟨inBlock ++ ballots, hBlock.trans hHead⟩

/-- A block that has just been imported may empty the collected votes before the attestations that
have waited for it are applied. -/
theorem polls_settleImport {root : Root} {block : Block}
    (hImported : .blockImported block ∈ e.journal)
    (hOk : (e.settleImport t root block).run.failure = none) :
    ∃ ballots, Polls t e ballots (e.settleImport t root block).run.engine := by
  obtain ⟨e', hAfter, hSettled⟩ := settleImport_ok hOk
  obtain ⟨ballots, hBlock⟩ := polls_afterImport (t := t) hImported (by rw [hAfter])
  rw [hAfter] at hBlock
  rw [hSettled] at hOk ⊢
  obtain ⟨released, hReleased⟩ := polls_releaseAttestations hOk
  exact ⟨ballots ++ released, hBlock.trans hReleased.of_waiting.of_notify⟩

omit [HashFunction] [SignatureScheme] in
theorem delayOrRefuseBlock_journal (b : PendingBlock) (reason : StoreError) :
    (e.delayOrRefuseBlock b reason).journal.filterMap Fate.applied? =
        e.journal.filterMap Fate.applied? ∧
      e.journal <:+ (e.delayOrRefuseBlock b reason).journal := by
  unfold delayOrRefuseBlock
  split
  · exact ⟨rfl, List.suffix_refl _⟩
  · split
    · exact ⟨rfl, List.suffix_cons _ _⟩
    · exact ⟨rfl, List.suffix_refl _⟩
  · exact ⟨rfl, List.suffix_cons _ _⟩

theorem polls_importBlock {b : PendingBlock} (hOk : (e.importBlock t b).run.failure = none) :
    ∃ ballots, Polls t e ballots (e.importBlock t b).run.engine := by
  have hView := Draft.ofStore_view e.store
  have hNewer := (Draft.newer_ofStore e.store).importBlock (t := t) b.block
  unfold importBlock at hOk ⊢
  cases hImport : (Draft.ofStore e.store).importBlock t b.block with
  | mk result d =>
    rw [hImport] at hOk hNewer
    cases result with
    | ok result =>
      cases result with
      | imported root =>
        obtain ⟨ballots, hSettled⟩ := polls_settleImport List.mem_cons_self hOk
        -- The block itself changes no vote in the store.
        have hStored : d.commit.view.latestMessage? = e.store.view.latestMessage? := by
          have hKept := (Draft.ofStore e.store).importBlock_latestMessage? t b.block
          rw [hImport, hView] at hKept
          rw [hNewer.commit_view]
          exact hKept
        have hPublished : Polls t e [] ((e.publish d).record (.blockImported b.block)) :=
          .silent rfl rfl hStored rfl (List.suffix_cons _ _)
        exact ⟨ballots, hPublished.cons_silent hSettled⟩
      | alreadyKnown root => exact ⟨[], .silent rfl rfl rfl rfl (List.suffix_cons _ _)⟩
    | error failure =>
      cases failure with
      | fault reason => exact absurd hOk (by simp)
      | error reason =>
        obtain ⟨hStore, hTracker⟩ := delayOrRefuseBlock_silent (e.abandon d) b reason
        obtain ⟨hApplied, hJournal⟩ := delayOrRefuseBlock_journal (e := e.abandon d) b reason
        refine ⟨[], .silent ?_ ?_ ?_ hApplied hJournal⟩
        · exact congrArg HeadTracker.votes hTracker
        · exact congrArg HeadTracker.justified hTracker
        · exact congrArg (fun s : Store => s.view.latestMessage?) hStore

theorem polls_blocksFrom {fuel : Nat} {queue : List PendingBlock}
    (hOk : (blocksFrom t fuel queue e).failure = none) :
    ∃ ballots, Polls t e ballots (blocksFrom t fuel queue e).engine := by
  induction fuel generalizing queue e with
  | zero =>
    cases queue with
    | nil => exact ⟨[], .refl t e⟩
    | cons b queue => exact absurd hOk (by simp [blocksFrom])
  | succ fuel ih =>
    cases queue with
    | nil => exact ⟨[], .refl t e⟩
    | cons b queue =>
      rw [blocksFrom] at hOk ⊢
      obtain ⟨hFirst, hRest⟩ := Run.andThen_ok hOk
      rw [Run.andThen_of_ok hFirst]
      obtain ⟨first, hBlock⟩ := polls_importBlock hFirst
      obtain ⟨others, hOthers⟩ := ih hRest
      exact ⟨first ++ others, hBlock.trans hOthers⟩

theorem polls_releaseBlocks {slot : Slot} (hOk : (e.releaseBlocks t slot).failure = none) :
    ∃ ballots, Polls t e ballots (e.releaseBlocks t slot).engine := by
  obtain ⟨ballots, hPolls⟩ := polls_blocksFrom hOk
  exact ⟨ballots, hPolls.of_waiting⟩

/-! ## Messages -/

theorem polls_handleTick {time : UInt64} (hOk : (e.handleTick t time).failure = none) :
    ∃ ballots, Polls t e ballots (e.handleTick t time).engine := by
  let e' := e.publish ((Draft.ofStore e.store).tick time)
  let previous := e.store.view.currentSlot
  let current := e'.store.view.currentSlot
  have hTick : e.handleTick t time =
      ((e'.refreshHead.andThen fun e => ⟨e.announceSlot previous current, none⟩).andThen
        (releaseBlocks t current)).andThen (releaseUntilTick t) := rfl
  rw [hTick] at hOk ⊢
  obtain ⟨hBlocks, hAttestations⟩ := Run.andThen_ok hOk
  obtain ⟨hAnnounced, hReleased⟩ := Run.andThen_ok hBlocks
  have hRefreshed := (Run.andThen_ok hAnnounced).1
  rw [Run.andThen_of_ok hBlocks]
  rw [Run.andThen_of_ok hAnnounced] at hAttestations ⊢
  rw [Run.andThen_of_ok hRefreshed] at hAttestations hReleased ⊢
  -- A tick may promote a checkpoint, but votes stay as they are until the head is refreshed.
  have hStored : e'.store.view.latestMessage? = e.store.view.latestMessage? := by
    show ((Draft.ofStore e.store).tick time).commit.view.latestMessage? = _
    rw [((Draft.newer_ofStore e.store).tick time).commit_view, Draft.tick_latestMessage?,
      Draft.ofStore_view]
  have hMoved : Polls t e [] e' := .silent rfl rfl hStored rfl (List.suffix_refl _)
  obtain ⟨atHead, hHead⟩ := polls_refreshHead (t := t) hRefreshed
  have hTold : Polls t e'.refreshHead.engine []
      (e'.refreshHead.engine.announceSlot previous current) := by
    unfold announceSlot
    split
    · exact .of_same rfl rfl rfl rfl
    · exact .refl t _
  obtain ⟨inBlocks, hQueue⟩ := polls_releaseBlocks hReleased
  obtain ⟨late, hLate⟩ := polls_releaseUntilTick hAttestations
  exact ⟨_, (((hMoved.cons_silent hHead).concat_silent hTold).trans hQueue).trans hLate⟩

/-- **Messages.** What a message does about votes is one list of ballots, unless its handler
fails. -/
theorem polls_handle {x : Delivery} (hOk : (e.handle t x).failure = none) :
    ∃ ballots, Polls t e ballots (e.handle t x).engine := by
  cases x with
  | tick time => exact polls_handleTick hOk
  | block b => exact polls_blocksFrom hOk
  | burst attestations =>
    obtain ⟨applied, -, hPolls⟩ := polls_processAttestations hOk
    exact ⟨_, hPolls⟩
  | justified checkpoint => exact polls_adoptJustified hOk

/-- **Runs.** -/
theorem polls_runFrom {s : Store} {deliveries : List Delivery}
    (hOk : (runFrom t s deliveries).failure = none) :
    ∃ ballots, Polls t { store := s } ballots (runFrom t s deliveries).engine := by
  -- The last message comes last in the ballots, so the induction is from the end of the run.
  induction deliveries using List.reverseRecOn with
  | nil => exact polls_refreshHead hOk
  | append_singleton deliveries x ih =>
    rw [runFrom_concat] at hOk ⊢
    obtain ⟨hBefore, hLast⟩ := Run.andThen_ok hOk
    rw [Run.andThen_of_ok hBefore]
    obtain ⟨first, hFirst⟩ := ih hBefore
    obtain ⟨last, hMessage⟩ := polls_handle hLast
    exact ⟨first ++ last, hFirst.trans hMessage⟩

end Engine

end ForkChoice
