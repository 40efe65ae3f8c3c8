import ForkChoice.Proofs.Engine.Wakeup

/-!
# ForkChoice — nothing is lost and nothing is done twice

Every block and every attestation that has been delivered is in one place: written down in the
journal with what became of it, or in one queue, or in hand while a message is handled. A move
takes it from one place to another. Between messages nothing is in hand, so the queues hold
exactly what has neither been applied nor refused.

The votes of the attestations that have been applied are recorded once each. All that has happened
to the collected votes, and to those in the store, is a list of ballots in which each attestation
occurs as often as it has been applied.

* `Desk.placedBlocks`, `Desk.placedAttestations` — all places;
* `accounts_move` — a move loses nothing and copies nothing;
* `Ballot`, `Desk.Counted` — how votes are recorded, `counted_move` — once each;
* `Engine.WorkedOff`, `StoreView.Descent`, `Engine.LoopsEnd` — the loops of the handlers without
  their bounds;
* `Engine.Conserves`, `conserves_of_run` — what follows for the runs without failures.
-/

namespace ForkChoice

open StoreView

/-! ## Places -/

namespace Fate

/-- The block that has been imported. -/
def imported? : Fate → Option Block
  | .blockImported b => some b
  | _ => none

/-- The block that has been found to be known. -/
def known? : Fate → Option Block
  | .blockKnown b => some b
  | _ => none

/-- The block that has been refused. -/
def refused? : Fate → Option Block
  | .blockRefused b _ => some b
  | _ => none

/-- The attestation that has been applied. -/
def applied? : Fate → Option ReceivedAttestation
  | .attestationApplied a => some a
  | _ => none

/-- The attestation that has been refused. -/
def rejected? : Fate → Option ReceivedAttestation
  | .attestationRefused a _ => some a
  | _ => none

end Fate

/-- The blocks that are delivered. -/
def Delivery.blocks : Delivery → List Block
  | .block b => [b]
  | _ => []

/-- The attestations that are delivered. -/
def Delivery.attestations : Delivery → List ReceivedAttestation
  | .burst attestations => attestations
  | _ => []

namespace Desk

/-- The blocks in all places. -/
def placedBlocks (k : Desk) : List Block :=
  k.journal.filterMap Fate.imported? ++ k.journal.filterMap Fate.known? ++
    k.journal.filterMap Fate.refused? ++ k.waiting.blocks ++ k.blocks.map PendingBlock.block

/-- The attestations in all places. -/
def placedAttestations (k : Desk) : List ReceivedAttestation :=
  k.journal.filterMap Fate.applied? ++ k.journal.filterMap Fate.rejected? ++
    k.waiting.attestations ++ k.attestations

/-- All that has been delivered is in one place, and what has been refused is so for good. -/
structure Accounts (deliveries : List Delivery) (k : Desk) : Prop where
  blocks : (deliveries.flatMap Delivery.blocks).Perm k.placedBlocks
  attestations : (deliveries.flatMap Delivery.attestations).Perm k.placedAttestations
  rejected : ∀ a reason, .attestationRefused a reason ∈ k.journal → reason.isDelayable = false

end Desk

section

variable {k k' : Desk}

theorem map_block_retry (blocks : List PendingBlock) :
    (blocks.map PendingBlock.retry).map PendingBlock.block = blocks.map PendingBlock.block := by
  rw [List.map_map]
  rfl

/-- What has just arrived is in hand. -/
theorem accounts_arrival {deliveries : List Delivery} {x : Delivery} (hBlocks : k.blocks = [])
    (hAttestations : k.attestations = []) (h : Arrival k x k') (hk : k.Accounts deliveries) :
    k'.Accounts (deliveries ++ [x]) := by
  have hOldBlocks := hk.blocks
  have hOldVotes := hk.attestations
  simp only [Desk.placedBlocks, Desk.placedAttestations, hBlocks, hAttestations, List.map_nil,
    List.append_nil] at hOldBlocks hOldVotes
  constructor
  · rw [List.flatMap_append, List.flatMap_singleton]
    refine (hOldBlocks.append_right _).trans ?_
    cases h with
    | @tick time d hd =>
      -- What is due has only been taken in hand.
      have hDue := k.waiting.blocks_takeUntilSlot (d.tick time).view.currentSlot
      simp only [Desk.placedBlocks, Delivery.blocks, map_block_retry, List.append_nil,
        List.append_assoc]
      exact (((hDue.symm.trans List.perm_append_comm).append_left _).append_left _).append_left _
    | block b => exact List.Perm.refl _
    | burst attestations =>
      simp only [Desk.placedBlocks, Delivery.blocks, hBlocks, List.map_nil]
      exact List.Perm.refl _
    | justified =>
      simp only [Desk.placedBlocks, Delivery.blocks, hBlocks, List.map_nil]
      exact List.Perm.refl _
  · rw [List.flatMap_append, List.flatMap_singleton]
    refine (hOldVotes.append_right _).trans ?_
    cases h with
    | tick | block | justified =>
      simp only [Desk.placedAttestations, Delivery.attestations, hAttestations]
      exact List.Perm.refl _
    | burst attestations => exact List.Perm.refl _
  · cases h <;> exact hk.rejected

variable [HashFunction] [SignatureScheme] {t : StateTransition}

/-- A move takes a block from one place to another. -/
theorem placedBlocks_move (h : Move t k k') : k'.placedBlocks.Perm k.placedBlocks := by
  -- Each block is counted in all places: what leaves one of them is found in another one.
  rw [List.perm_iff_count]
  intro b
  cases h with
  | forget
  | collect
  | takeUntilTick
  | arrange
  | applied
  | rejected
  | untilTick
  | untilBlock => rfl
  | @imported b' rest d d' root hHand hd hImport =>
    have hTaken := (k.waiting.blocks_takeUntilParent root).count_eq b
    simp only [Desk.placedBlocks, hHand, List.filterMap_cons, Fate.imported?, Fate.known?,
      Fate.refused?, List.map_append, List.map_cons, map_block_retry, List.count_append,
      List.count_cons, Waiting.blocks_takeUntilBlock] at hTaken ⊢
    omega
  | @known b' rest root block hHand =>
    simp only [Desk.placedBlocks, hHand, List.filterMap_cons, Fate.imported?, Fate.known?,
      Fate.refused?, List.map_cons, List.count_append, List.count_cons]
    omega
  | @refused b' rest d reason hHand
  | @dropped b' rest reason hHand =>
    simp only [Desk.placedBlocks, hHand, List.filterMap_cons, Fate.imported?, Fate.known?,
      Fate.refused?, List.map_cons, List.count_append, List.count_cons]
    omega
  | @untilParent b' rest hHand =>
    have hWaits := (k.waiting.blocks_delayUntilParent b').count_eq b
    simp only [Desk.placedBlocks, hHand, List.map_cons, List.count_append, List.count_cons]
      at hWaits ⊢
    omega
  | @untilSlot b' rest state hHand =>
    have hWaits := (k.waiting.blocks_delayUntilSlot b').count_eq b
    simp only [Desk.placedBlocks, hHand, List.map_cons, List.count_append, List.count_cons]
      at hWaits ⊢
    omega

/-- A move takes an attestation from one place to another. -/
theorem placedAttestations_move (h : Move t k k') :
    k'.placedAttestations.Perm k.placedAttestations := by
  rw [List.perm_iff_count]
  intro a
  cases h with
  | forget
  | collect
  | known
  | refused
  | dropped
  | untilParent
  | untilSlot => rfl
  | takeUntilTick =>
    have hTaken := k.waiting.attestations_takeUntilTick.count_eq a
    simp only [Desk.placedAttestations, List.count_append] at hTaken ⊢
    omega
  | arrange hArranged =>
    have hSame := hArranged.count_eq a
    simp only [Desk.placedAttestations, List.count_append]
    omega
  | @imported b rest d d' root =>
    have hTaken := ((k.waiting.takeUntilParent root).2.attestations_takeUntilBlock root).count_eq a
    simp only [Desk.placedAttestations, List.filterMap_cons, Fate.applied?, Fate.rejected?,
      List.count_append, Waiting.attestations_takeUntilParent] at hTaken ⊢
    omega
  | applied hHand
  | rejected hHand =>
    simp only [Desk.placedAttestations, hHand, List.filterMap_cons, Fate.applied?, Fate.rejected?,
      List.count_append, List.count_cons]
    omega
  | @untilTick a' rest d d' reason hHand =>
    have hWaits := (k.waiting.attestations_delayUntilTick a').count_eq a
    simp only [Desk.placedAttestations, hHand, List.count_append, List.count_cons] at hWaits ⊢
    omega
  | @untilBlock a' rest d d' root reason hHand =>
    have hWaits := (k.waiting.attestations_delayUntilBlock root a').count_eq a
    simp only [Desk.placedAttestations, hHand, List.count_append, List.count_cons] at hWaits ⊢
    omega

/-- **One move** loses nothing and copies nothing, and what it refuses it refuses for good. -/
theorem accounts_move {deliveries : List Delivery} (h : Move t k k') (hk : k.Accounts deliveries) :
    k'.Accounts deliveries where
  blocks := hk.blocks.trans (placedBlocks_move h).symm
  attestations := hk.attestations.trans (placedAttestations_move h).symm
  rejected a reason hFate := by
    cases h with
    | forget
    | collect
    | takeUntilTick
    | arrange
    | untilParent
    | untilSlot
    | untilTick
    | untilBlock => exact hk.rejected a reason hFate
    | imported
    | known
    | refused
    | dropped
    | applied =>
      rcases List.mem_cons.mp hFate with hNew | hOld
      · cases hNew
      · exact hk.rejected a reason hOld
    | rejected _ _ _ hFinal =>
      rcases List.mem_cons.mp hFate with hNew | hOld
      · cases hNew
        exact hFinal
      · exact hk.rejected a reason hOld

omit [HashFunction] [SignatureScheme] in
theorem Engine.accounts_start (s : Store) : (Engine.atRest { store := s }).Accounts [] where
  blocks := List.Perm.refl _
  attestations := List.Perm.refl _
  rejected _ _ h := absurd h List.not_mem_nil

theorem Engine.accounts_of_run {s : Store} {deliveries : List Delivery}
    (hOk : (runFrom t s deliveries).failure = none) :
    (runFrom t s deliveries).engine.atRest.Accounts deliveries :=
  holds_of_run (P := Desk.Accounts) (accounts_start s)
    (fun hBlocks hAttestations hArrival => accounts_arrival hBlocks hAttestations hArrival)
    accounts_move hOk

end

/-! ## Votes -/

/-- Something that happens to collected votes. -/
inductive Ballot where
  /-- The votes of the participants of an attestation are recorded. -/
  | attestation (a : ReceivedAttestation) (indices : List ValidatorIndex)
  /-- The votes in a block are recorded. -/
  | block (b : Block) (votes : List Vote)
  /-- All votes are forgotten. -/
  | forgotten

namespace Ballot

/-- What a ballot makes of the votes from which the head is found. -/
def collect (m : LatestMessages) : Ballot → LatestMessages
  | attestation a indices => m.mergeAll indices a.data.message
  | block _ votes => m.mergeVotes votes
  | forgotten => .empty

/-- What a ballot makes of the votes in the store, where those in blocks do not count. -/
def store (m : LatestMessages) : Ballot → LatestMessages
  | attestation a indices => m.mergeAll indices a.data.message
  | block _ _ => m
  | forgotten => .empty

/-- The attestation whose votes are recorded. -/
def attestation? : Ballot → Option ReceivedAttestation
  | attestation a _ => some a
  | _ => none

end Ballot

section

variable [HashFunction] [SignatureScheme] {t : StateTransition} {k k' : Desk}

/-- The ballots tell how all votes have been recorded. An attestation has one ballot for each time
that it has been applied, for the indices that the store has accepted. -/
structure Desk.Counted (t : StateTransition) (ballots : List Ballot) (k : Desk) : Prop where
  collected : k.votes = ballots.foldl Ballot.collect .empty
  stored : k.view.latestMessage? = (ballots.foldl Ballot.store .empty).get?
  applied : ballots.filterMap Ballot.attestation? = (k.journal.filterMap Fate.applied?).reverse
  accepted : ∀ a indices, .attestation a indices ∈ ballots → ∃ d d' : Draft,
    Extends d.view k.view ∧ d.attest t .skip a.attestation = (.ok indices, d')
  inBlocks : ∀ b votes, .block b votes ∈ ballots → .blockImported b ∈ k.journal ∧
    ∃ p state, Engine.blockVotes p state b.body.attestations = .ok votes

theorem Move.view_extends (h : Move t k k') : Extends k.view k'.view :=
  h.stable (stable_extends t k.view) (Extends.refl _)

/-- What is known of the ballots stays known. -/
theorem Desk.Counted.of_extends {ballots : List Ballot} (hk : k.Counted t ballots)
    (hMore : Extends k.view k'.view) (hVotes : k'.votes = k.votes)
    (hStored : k'.view.latestMessage? = k.view.latestMessage?)
    (hApplied : k'.journal.filterMap Fate.applied? = k.journal.filterMap Fate.applied?)
    (hJournal : ∀ fate ∈ k.journal, fate ∈ k'.journal) : k'.Counted t ballots where
  collected := hVotes.trans hk.collected
  stored := hStored.trans hk.stored
  applied := by
    rw [hApplied]
    exact hk.applied
  accepted a indices hBallot := by
    obtain ⟨d, d', hOlder, hAttest⟩ := hk.accepted a indices hBallot
    exact ⟨d, d', hOlder.trans hMore, hAttest⟩
  inBlocks b votes hBallot := by
    obtain ⟨hImported, hVotes⟩ := hk.inBlocks b votes hBallot
    exact ⟨hJournal _ hImported, hVotes⟩

/-- One more ballot. -/
theorem Desk.Counted.concat {ballots : List Ballot} {ballot : Ballot} (hk : k.Counted t ballots)
    (hMore : Extends k.view k'.view) (hVotes : k'.votes = ballot.collect k.votes)
    (hStored : ∀ m : LatestMessages, k.view.latestMessage? = m.get? →
      k'.view.latestMessage? = (ballot.store m).get?)
    (hApplied : k'.journal.filterMap Fate.applied? =
      ballot.attestation?.toList ++ k.journal.filterMap Fate.applied?)
    (hJournal : ∀ fate ∈ k.journal, fate ∈ k'.journal)
    (hAccepted : ∀ a indices, ballot = .attestation a indices → ∃ d d' : Draft,
      Extends d.view k'.view ∧ d.attest t .skip a.attestation = (.ok indices, d'))
    (hInBlock : ∀ b votes, ballot = .block b votes → .blockImported b ∈ k'.journal ∧
      ∃ p state, Engine.blockVotes p state b.body.attestations = .ok votes) :
    k'.Counted t (ballots ++ [ballot]) where
  collected := by
    rw [List.foldl_append, ← hk.collected]
    exact hVotes
  stored := by
    rw [List.foldl_append]
    exact hStored _ hk.stored
  applied := by
    rw [hApplied, List.reverse_append, List.filterMap_append, hk.applied, List.filterMap_cons]
    cases ballot.attestation? <;> rfl
  accepted a indices hBallot := by
    rcases List.mem_append.mp hBallot with hOld | hNew
    · obtain ⟨d, d', hOlder, hAttest⟩ := hk.accepted a indices hOld
      exact ⟨d, d', hOlder.trans hMore, hAttest⟩
    · exact hAccepted a indices (List.mem_singleton.mp hNew).symm
  inBlocks b votes hBallot := by
    rcases List.mem_append.mp hBallot with hOld | hNew
    · obtain ⟨hImported, hVotes⟩ := hk.inBlocks b votes hOld
      exact ⟨hJournal _ hImported, hVotes⟩
    · exact hInBlock b votes (List.mem_singleton.mp hNew).symm

/-- **Votes.** A move records votes with one more ballot, or it leaves them as they are. -/
theorem counted_move (h : Move t k k') (hk : ∃ ballots, k.Counted t ballots) :
    ∃ ballots, k'.Counted t ballots := by
  obtain ⟨ballots, hk⟩ := hk
  have hMore := h.view_extends
  -- Nothing is taken out of the journal.
  have hJournal : ∀ fate ∈ k.journal, fate ∈ k'.journal := by
    cases h <;> first | exact fun _ => id | exact fun _ => List.mem_cons_of_mem _
  cases h with
  | forget hd =>
    exact ⟨ballots ++ [.forgotten], hk.concat hMore rfl (fun _ _ => rfl) rfl hJournal
      (by simp) (by simp)⟩
  | @collect b state votes hImported hVotes =>
    refine ⟨ballots ++ [.block b votes], hk.concat hMore rfl ?_ rfl hJournal (by simp) ?_⟩
    · exact fun _ hStored => hStored
    · rintro b' votes' hSame
      cases hSame
      exact ⟨hImported, _, state, hVotes⟩
  | takeUntilTick
  | arrange
  | known
  | refused
  | dropped
  | untilParent
  | untilSlot => exact ⟨ballots, hk.of_extends hMore rfl rfl rfl hJournal⟩
  | imported hHand hd hImport =>
    obtain ⟨_, _, -, -, hView⟩ := Draft.importBlock_imported hImport
    rw [hd] at hView
    exact ⟨ballots, hk.of_extends hMore rfl hView.latestMessage? rfl hJournal⟩
  | @applied a rest d d' indices _ hd hAttest =>
    refine ⟨ballots ++ [.attestation a indices], hk.concat hMore rfl ?_ rfl hJournal ?_
      (by simp)⟩
    · intro m hStored
      exact Draft.attest_votes hAttest (hd ▸ hStored)
    · rintro a' indices' hSame
      cases hSame
      exact ⟨d, d', hd ▸ hMore, hAttest⟩
  | rejected _ hd hAttest
  | untilTick _ hd hAttest
  | untilBlock _ hd hAttest =>
    have hStored := (Draft.attest_error_votes hAttest).trans (congrArg latestMessage? hd)
    exact ⟨ballots, hk.of_extends hMore rfl hStored rfl hJournal⟩

theorem counted_arrival {x : Delivery} (h : Arrival k x k') (hk : ∃ ballots, k.Counted t ballots) :
    ∃ ballots, k'.Counted t ballots := by
  obtain ⟨ballots, hk⟩ := hk
  refine ⟨ballots, ?_⟩
  cases h with
  | @tick time d hd =>
    -- A tick may promote a checkpoint, but votes stay as they are.
    have hMore : Extends k.view (d.tick time).view := hd ▸ (d.tick_sameTree time).view_extends
    have hStored : (d.tick time).view.latestMessage? = k.view.latestMessage? := by
      rw [← hd]
      rcases d.tick_cases time with ⟨-, hTick⟩ | ⟨-, hTick⟩ | ⟨-, -, hTick⟩ <;> rw [hTick] <;> rfl
    exact hk.of_extends hMore rfl hStored rfl fun _ => id
  | block
  | burst => exact hk.of_extends (Extends.refl _) rfl rfl rfl fun _ => id
  | justified => exact hk

theorem Engine.counted_of_run {s : Store} (hs : s.IsAnchored) {deliveries : List Delivery}
    (hOk : (runFrom t s deliveries).failure = none) :
    ∃ ballots, (runFrom t s deliveries).engine.atRest.Counted t ballots := by
  refine holds_of_run (P := fun _ k => ∃ ballots, k.Counted t ballots) ?_ ?_ ?_ hOk
  · exact ⟨[], rfl, hs.latestMessage?_eq, rfl, fun _ _ h => absurd h List.not_mem_nil,
      fun _ _ h => absurd h List.not_mem_nil⟩
  · exact fun _ _ hArrival => counted_arrival hArrival
  · exact fun hMove => counted_move hMove

end

/-! ## Runs without failures -/

namespace Engine

section

variable [HashFunction] [SignatureScheme]

/-- The loops of the handlers come to an end, by what happens in them and not by a bound: the one
over the blocks of a message, and in every store that comes to be the search for the head and the
walk that decides whether the votes in a block count. -/
structure LoopsEnd (t : StateTransition) (s : Store) : Prop where
  blocks : ∀ (e : Engine) (queue : List PendingBlock), WorkedOff t queue e (e.processBlocks t queue)
  head : ∀ v, s.Shows t v → ∀ messages : LatestMessages,
    v.HeadSearch messages.voteCounts v.headStart (v.head messages)
  /-- The walk does not stop at the anchor itself. All known blocks are descendants of the anchor,
  so if its parent were one of them, blocks would contain each other's roots in a circle. -/
  descent : ∀ v, s.Shows t v →
    (∀ anchor, v.block? v.anchorRoot = some anchor → v.block? anchor.parentRoot = none) →
      ∀ checkpoint root block, v.block? root = some block →
        v.Descent checkpoint block
          (HeadTracker.descendsFrom v checkpoint (v.importCount + 2) block)

theorem loopsEnd_of_anchored (t : StateTransition) {s : Store} (hs : s.IsAnchored) :
    LoopsEnd t s where
  blocks := workedOff_processBlocks t
  head _ hv messages := ((stable_rooted t).shows (rooted_of_anchored hs) hv).headSearch messages
  descent _ hv hAnchor checkpoint _ _ hBlock :=
    ((stable_rooted t).shows (rooted_of_anchored hs) hv).descent checkpoint hAnchor hBlock

/-- Between messages, all that has been delivered is accounted for. -/
structure Conserves (t : StateTransition) (deliveries : List Delivery) (e : Engine) : Prop where
  /-- Each attestation has been applied, or it has been refused, or it waits in one queue. -/
  attestations : (deliveries.flatMap Delivery.attestations).Perm
    (e.journal.filterMap Fate.applied? ++ e.journal.filterMap Fate.rejected? ++
      e.waiting.attestationsUntilTick ++ e.waiting.attestationsUntilBlock.map Prod.snd)
  /-- Each block has been imported, or it has been known, or it has been refused, or it waits in
  one queue. -/
  blocks : (deliveries.flatMap Delivery.blocks).Perm
    (e.journal.filterMap Fate.imported? ++ e.journal.filterMap Fate.known? ++
      e.journal.filterMap Fate.refused? ++ e.waiting.blocksUntilSlot.map PendingBlock.block ++
        e.waiting.blocksUntilParent.map PendingBlock.block)
  /-- What has been refused has been refused for good. -/
  rejected : ∀ a reason, .attestationRefused a reason ∈ e.journal → reason.isDelayable = false
  refused : ∀ b reason, .blockRefused b reason ∈ e.journal → reason.isDelayable = false
  attestationCount : (deliveries.flatMap Delivery.attestations).length =
    (e.journal.filterMap Fate.applied?).length + (e.journal.filterMap Fate.rejected?).length +
      e.waiting.attestationCount
  blockCount : (deliveries.flatMap Delivery.blocks).length =
    (e.journal.filterMap Fate.imported?).length + (e.journal.filterMap Fate.known?).length +
      (e.journal.filterMap Fate.refused?).length + e.waiting.blockCount
  /-- The votes of each attestation that has been applied have been recorded once, for the indices
  that the store has accepted. -/
  counted : ∃ ballots, e.atRest.Counted t ballots

/-- **Conservation.** In a run without failures, after each message, every block and every
attestation that has been delivered is in one place, and the votes of those that have been applied
have been recorded once. The handlers of the messages come to an end. -/
theorem conserves_of_run (t : StateTransition) {s : Store} (hs : s.IsAnchored)
    (deliveries : List Delivery) (hOk : (runFrom t s deliveries).failure = none) :
    (∀ n, (runFrom t s (deliveries.take n)).engine.Conserves t (deliveries.take n)) ∧
      LoopsEnd t s := by
  refine ⟨fun n => ?_, loopsEnd_of_anchored t hs⟩
  have hBefore := failure_take t hOk n
  have hAccounts := accounts_of_run hBefore
  have hOverdue := nothingOverdue_of_run hs hBefore
  -- Nothing is in hand between messages.
  have hAttestations := hAccounts.attestations
  have hBlocks := hAccounts.blocks
  simp only [Desk.placedAttestations, Desk.placedBlocks, atRest, desk, Waiting.attestations,
    Waiting.blocks, List.map_append, List.map_nil, List.append_nil, ← List.append_assoc]
    at hAttestations hBlocks
  exact {
    attestations := hAttestations
    blocks := hBlocks
    rejected := hAccounts.rejected
    refused := hOverdue.refused
    attestationCount := by
      rw [hAttestations.length_eq, ← Waiting.length_attestations, Waiting.attestations]
      simp only [List.length_append]
      omega
    blockCount := by
      rw [hBlocks.length_eq, ← Waiting.length_blocks, Waiting.blocks]
      simp only [List.length_append, List.map_append]
      omega
    counted := counted_of_run hs hBefore }

end

/-- In a small network two blocks and a vote wait after three messages, and after five the blocks
have been imported and the vote has been applied. -/
theorem conserves_of_tooEarly :
    letI : HashFunction := linearHash
    letI : SignatureScheme := Bls.scheme
    ∃ n : ChainedNetwork, chainedNetwork = some n ∧ n.store.IsAnchored ∧
      let t := slotTransition n.store.preset
      let run := runFrom t n.store n.tooEarly
      run.failure = none ∧ run.engine.journal.filterMap Fate.imported? = [n.second, n.first] ∧
        run.engine.journal.filterMap Fate.applied? = [n.vote] ∧
          (∀ k, (runFrom t n.store (n.tooEarly.take k)).engine.Conserves t (n.tooEarly.take k)) ∧
            LoopsEnd t n.store := by
  let : HashFunction := linearHash
  let : SignatureScheme := Bls.scheme
  have hRuns : (chainedNetwork.any fun n =>
      let run := runFrom (slotTransition n.store.preset) n.store n.tooEarly
      run.failure.isNone && run.engine.journal.filterMap Fate.imported? = [n.second, n.first] &&
        run.engine.journal.filterMap Fate.applied? = [n.vote]) = true := by
    decide +kernel
  obtain ⟨n, hNetwork, hGenesis, hRun⟩ := exists_chainedNetwork hRuns
  simp only [Bool.and_eq_true, Option.isNone_iff_eq_none, decide_eq_true_eq] at hRun
  obtain ⟨⟨hOk, hImported⟩, hApplied⟩ := hRun
  have hs := hGenesis.isAnchored
  exact ⟨n, hNetwork, hs, hOk, hImported, hApplied, conserves_of_run _ hs n.tooEarly hOk⟩

end Engine

end ForkChoice
