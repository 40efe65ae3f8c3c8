import ForkChoice.Proofs.Engine.InStep
import ForkChoice.Proofs.Store.Admission

/-!
# ForkChoice — which of several votes was observed first

Of the votes of a validator for one epoch the first one is to count. The numbers of arrival say
which one this is, and a burst is applied in their order. Between bursts nobody looks at them: an
attestation that has to wait is overtaken by those that come after it, and so are attestations in a
burst by those of an earlier burst. What counts is therefore the vote that was applied first, and
this is the one observed first only if the attestations of that epoch were applied in the order of
arrival.

* `appliedFor` — the attestations that have been applied for a validator since its votes were last
  forgotten;
* `FirstObserved` — the vote that ought to count by the numbers of arrival;
* `firstOfGreatest_collect` — the vote that counts is the first one applied;
* `firstApplied_of_run` — runs without failures; `overtaken_vote_lost` — a vote that waits.
-/

namespace ForkChoice

namespace Ballot

/-- Whether votes are kept. -/
def keeps : Ballot → Bool
  | forgotten => false
  | _ => true

/-- The attestation of a ballot, if the validator takes part in it. -/
def attestationOf? (index : ValidatorIndex) : Ballot → Option ReceivedAttestation
  | attestation a indices => if index ∈ indices then some a else none
  | _ => none

theorem mem_filterMap_attestation? {ballots : List Ballot} {a : ReceivedAttestation} :
    a ∈ ballots.filterMap attestation? ↔ ∃ indices, attestation a indices ∈ ballots := by
  rw [List.mem_filterMap]
  constructor
  · rintro ⟨ballot, hMem, hBallot⟩
    cases ballot with
    | attestation a' indices =>
      cases hBallot
      exact ⟨indices, hMem⟩
    | block | forgotten => cases hBallot
  · rintro ⟨indices, hMem⟩
    exact ⟨_, hMem, rfl⟩

end Ballot

/-- The attestations that have been applied for a validator since all votes were last forgotten, in
the order in which they have been applied. -/
def appliedFor (index : ValidatorIndex) (ballots : List Ballot) : List ReceivedAttestation :=
  (ballots.rtakeWhile Ballot.keeps).filterMap (Ballot.attestationOf? index)

/-- By the numbers of arrival this is the vote that counts: of the attestations for the greatest
epoch it is that of the one with the smallest number. -/
inductive FirstObserved (applied : List ReceivedAttestation) : Option LatestMessage → Prop
  | none (h : applied = []) : FirstObserved applied none
  | some {a : ReceivedAttestation} (hMem : a ∈ applied)
    (hGreatest : ∀ a' ∈ applied, a'.data.target.epoch ≤ a.data.target.epoch)
    (hFirst : ∀ a' ∈ applied, a'.data.target.epoch = a.data.target.epoch →
      a.arrival ≤ a'.arrival) : FirstObserved applied (some a.data.message)

section

variable {index : ValidatorIndex} {ballots : List Ballot}

/-! ## One more ballot -/

theorem appliedFor_concat_kept {ballot : Ballot} (hKept : ballot.keeps = true) :
    appliedFor index (ballots ++ [ballot]) =
      appliedFor index ballots ++ (ballot.attestationOf? index).toList := by
  rw [appliedFor, List.rtakeWhile_concat_pos _ _ _ hKept, List.filterMap_append]
  cases h : ballot.attestationOf? index <;> simp [appliedFor, h]

theorem appliedFor_concat_forgotten : appliedFor index (ballots ++ [.forgotten]) = [] := by
  have hEnd : ¬Ballot.keeps .forgotten = true := Bool.false_ne_true
  rw [appliedFor, List.rtakeWhile_concat_neg _ _ _ hEnd]
  rfl

/-- As long as nothing has been forgotten, all attestations count. -/
theorem mem_appliedFor (hKept : .forgotten ∉ ballots) {a : ReceivedAttestation} :
    a ∈ appliedFor index ballots ↔
      ∃ indices, .attestation a indices ∈ ballots ∧ index ∈ indices := by
  have hAll : ballots.rtakeWhile Ballot.keeps = ballots := by
    rw [List.rtakeWhile_eq_self_iff]
    intro ballot hMem
    cases ballot with
    | forgotten => exact absurd hMem hKept
    | attestation | block => rfl
  rw [appliedFor, hAll, List.mem_filterMap]
  constructor
  · rintro ⟨ballot, hMem, hBallot⟩
    cases ballot with
    | attestation a' indices =>
      rw [Ballot.attestationOf?, Option.ite_none_right_eq_some] at hBallot
      obtain ⟨hIndex, hSame⟩ := hBallot
      cases hSame
      exact ⟨indices, hMem, hIndex⟩
    | block | forgotten => cases hBallot
  · rintro ⟨indices, hMem, hIndex⟩
    exact ⟨_, hMem, if_pos hIndex⟩

/-- Of several votes for one message, that of each participant is collected once. -/
theorem LatestMessages.get?_mergeAll (m : LatestMessages) (indices : List ValidatorIndex)
    (message : LatestMessage) (index : ValidatorIndex) :
    (m.mergeAll indices message).get? index =
      if index ∈ indices ∧ replaces message (m.get? index) then some message
      else m.get? index := by
  unfold mergeAll
  induction indices generalizing m with
  | nil => simp
  | cons first rest ih =>
    rw [List.foldl_cons, ih, get?_merge]
    by_cases hFirst : first = index
    · subst hFirst
      -- Once it is recorded, the message does not go before itself.
      have hSelf : replaces message (some message) = false :=
        decide_eq_false (UInt64.lt_irrefl _)
      by_cases hReplaces : replaces message (m.get? first) <;> simp [hReplaces, hSelf]
    · simp [hFirst, Ne.symm hFirst]

/-- **The vote that counts** is the first one applied for the greatest epoch, if no block has
brought votes. -/
theorem firstOfGreatest_collect (hBlocks : ∀ b votes, .block b votes ∈ ballots → votes = []) :
    FirstOfGreatest ((appliedFor index ballots).map fun a => a.data.message)
      ((ballots.foldl Ballot.collect .empty).get? index) := by
  induction ballots using List.reverseRecOn with
  | nil => exact .none
  | append_singleton ballots ballot ih =>
    have hEarlier := ih fun b votes hMem => hBlocks b votes (List.mem_append_left _ hMem)
    rw [List.foldl_append, List.foldl_cons, List.foldl_nil]
    cases ballot with
    | attestation a indices =>
      rw [appliedFor_concat_kept rfl, Ballot.attestationOf?, Ballot.collect,
        LatestMessages.get?_mergeAll]
      by_cases hIndex : index ∈ indices
      · simp only [hIndex, true_and, if_true, List.map_append, Option.toList]
        exact hEarlier.concat a.data.message
      · simp only [hIndex, false_and, if_false, Option.toList, List.append_nil]
        exact hEarlier
    | block b votes =>
      cases hBlocks b votes (List.mem_append_right _ List.mem_cons_self)
      have hNone : (Ballot.block b []).attestationOf? index = none := rfl
      rw [appliedFor_concat_kept rfl, hNone, Option.toList, List.append_nil]
      exact hEarlier
    | forgotten =>
      rw [appliedFor_concat_forgotten]
      exact .none

/-- What was applied first was observed first, if the attestations for an epoch have been applied
in the order of arrival. -/
theorem FirstOfGreatest.firstObserved {applied : List ReceivedAttestation}
    {vote : Option LatestMessage}
    (h : FirstOfGreatest (applied.map fun a => a.data.message) vote)
    (hOrder : applied.Pairwise fun a a' =>
      a.data.target.epoch = a'.data.target.epoch → a.arrival ≤ a'.arrival) :
    FirstObserved applied vote := by
  generalize hVotes : (applied.map fun a => a.data.message) = votes at h
  cases h with
  | none => exact .none (List.map_eq_nil_iff.mp hVotes)
  | @some before after message hBefore hAfter =>
    obtain ⟨earlier, others, rfl, rfl, hOthers⟩ := List.map_eq_append_iff.mp hVotes
    obtain ⟨a, later, rfl, rfl, rfl⟩ := List.map_eq_cons_iff.mp hOthers
    rw [List.forall_mem_map] at hBefore hAfter
    rw [List.pairwise_append, List.pairwise_cons] at hOrder
    obtain ⟨-, ⟨hLater, -⟩, -⟩ := hOrder
    refine .some (List.mem_append_right _ List.mem_cons_self) ?_ ?_
    · intro a' hMem
      rcases List.mem_append.mp hMem with hMem | hMem
      · exact UInt64.le_of_lt (hBefore a' hMem)
      · rcases List.mem_cons.mp hMem with rfl | hMem
        · exact UInt64.le_refl _
        · exact hAfter a' hMem
    · intro a' hMem hEpoch
      rcases List.mem_append.mp hMem with hMem | hMem
      · -- Those that have been applied before are for earlier epochs.
        exact absurd hEpoch (UInt64.ne_of_lt (hBefore a' hMem))
      · rcases List.mem_cons.mp hMem with rfl | hMem
        · exact UInt64.le_refl _
        · exact hLater a' hMem hEpoch.symm

end

namespace Engine

theorem byArrival_sorted (attestations : List ReceivedAttestation) :
    (byArrival attestations).Pairwise fun a a' => a.arrival ≤ a'.arrival := by
  refine (List.pairwise_mergeSort ?_ ?_ attestations).imp ?_
  · intro a b c hab hbc
    rw [decide_eq_true_eq] at hab hbc ⊢
    exact UInt64.le_trans hab hbc
  · intro a b
    simp only [Bool.or_eq_true, decide_eq_true_eq]
    exact UInt64.le_total _ _
  · intro a b h
    exact of_decide_eq_true h

/-- Attestations with different numbers are put in their order, in whatever order they come. -/
theorem byArrival_eq_of_perm {attestations ordered : List ReceivedAttestation}
    (hPerm : attestations.Perm ordered)
    (hOrdered : ordered.Pairwise fun a a' => a.arrival < a'.arrival) :
    byArrival attestations = ordered := by
  have hSorted : (byArrival attestations).Perm ordered := (List.mergeSort_perm _ _).trans hPerm
  have hNumbers : (ordered.map (·.arrival)).Nodup :=
    List.pairwise_map.mpr (hOrdered.imp UInt64.ne_of_lt)
  refine hSorted.eq_of_pairwise ?_ (byArrival_sorted attestations) (hOrdered.imp UInt64.le_of_lt)
  -- No number stands for two attestations.
  intro a a' ha ha' hLe hLe'
  exact List.inj_on_of_nodup_map hNumbers (hSorted.mem_iff.mp ha) ha' (UInt64.le_antisymm hLe hLe')

theorem noBlockVotes_of_imported {e : Engine}
    (h : ((e.journal.filterMap Fate.imported?).all fun b => b.body.attestations.isEmpty) = true) :
    e.NoBlockVotes := by
  intro b hImported
  rw [List.all_eq_true] at h
  exact List.isEmpty_iff.mp (h b (List.mem_filterMap.mpr ⟨_, hImported, rfl⟩))

section

variable [HashFunction] [SignatureScheme] {t : StateTransition} {s : Store}

/-- An engine that has begun with a store counts for each validator the vote that was applied
first, however the ballots are read that explain its votes. -/
structure CountsFirstApplied (t : StateTransition) (s : Store) (e : Engine) : Prop where
  polls : ∃ ballots, Polls t { store := s } ballots e
  counts : ∀ ballots, Polls t { store := s } ballots e → ∀ index,
    FirstOfGreatest ((appliedFor index ballots).map fun a => a.data.message)
      (e.tracker.votes.get? index)
  /-- This is the vote observed first where none for its epoch has been overtaken. -/
  observed : ∀ ballots, Polls t { store := s } ballots e → ∀ index,
    ((appliedFor index ballots).Pairwise fun a a' =>
      a.data.target.epoch = a'.data.target.epoch → a.arrival ≤ a'.arrival) →
        FirstObserved (appliedFor index ballots) (e.tracker.votes.get? index)

/-- **The first vote applied.** In a run without failures and without votes in blocks, after each
message, the vote that counts of a validator is the first one applied for the greatest epoch since
the votes were last forgotten. A burst, be it received or let go on, is applied in the order of
arrival, but nothing is said of the order between bursts. -/
theorem firstApplied_of_run (t : StateTransition) (s : Store) (deliveries : List Delivery)
    (hOk : (runFrom t s deliveries).failure = none) :
    (∀ n, (runFrom t s (deliveries.take n)).engine.NoBlockVotes →
      (runFrom t s (deliveries.take n)).engine.CountsFirstApplied t s) ∧
    ∀ (e : Engine) (attestations : List ReceivedAttestation),
      (e.processAttestations t attestations).failure = none →
        ∃ applied : List (ReceivedAttestation × List ValidatorIndex),
          (applied.map Prod.fst).Sublist (byArrival attestations) ∧
            ((applied.map Prod.fst).Pairwise fun a a' => a.arrival ≤ a'.arrival) ∧
              Polls t e (applied.map Ballot.ofApplied)
                (e.processAttestations t attestations).engine := by
  constructor
  · intro n hBlocks
    have hCounts : ∀ ballots, Polls t { store := s } ballots
        (runFrom t s (deliveries.take n)).engine → ∀ index,
          FirstOfGreatest ((appliedFor index ballots).map fun a => a.data.message)
            ((runFrom t s (deliveries.take n)).engine.tracker.votes.get? index) := by
      intro ballots hPolls index
      rw [hPolls.collected]
      exact firstOfGreatest_collect (hPolls.noBlockVotes hBlocks)
    exact {
      polls := polls_runFrom (failure_take t hOk n)
      counts := hCounts
      observed := fun ballots hPolls index hOrder =>
        (hCounts ballots hPolls index).firstObserved hOrder }
  · intro e attestations hBurst
    obtain ⟨applied, hSublist, hPolls⟩ := polls_processAttestations hBurst
    exact ⟨applied, hSublist, (byArrival_sorted attestations).sublist hSublist, hPolls⟩

end

/-- A later vote of the validator whose first vote is for the first block. -/
def ChainedNetwork.overtaking (n : ChainedNetwork) : ReceivedAttestation :=
  { n.vote with attestation := n.voteFor 1 n.store.anchorRoot, arrival := 1 }

/-- Both votes arrive after the block, in one burst and the later one first. -/
def ChainedNetwork.disordered (n : ChainedNetwork) : List Delivery :=
  [.tick 12, .block n.first, .burst [n.overtaking, n.vote]]

/-- The burst comes last, and its votes are put in the order of arrival. -/
theorem ChainedNetwork.runFrom_disordered [HashFunction] [SignatureScheme] {t : StateTransition}
    {n : ChainedNetwork} (hArrival : n.vote.arrival < n.overtaking.arrival)
    (hBefore : (runFrom t n.store (n.disordered.take 2)).failure = none) :
    let before := (runFrom t n.store (n.disordered.take 2)).engine
    runFrom t n.store n.disordered = before.processAttestations t [n.overtaking, n.vote] ∧
      runFrom t n.store n.disordered = finishBurst ([n.vote, n.overtaking].foldl (attest t)
        { engine := before, draft := Draft.ofStore before.store }) := by
  intro before
  have hLast : runFrom t n.store n.disordered =
      before.processAttestations t [n.overtaking, n.vote] :=
    (runFrom_concat t n.store _ _).trans (Run.andThen_of_ok hBefore)
  have hOrder : byArrival [n.overtaking, n.vote] = [n.vote, n.overtaking] :=
    byArrival_eq_of_perm (.swap _ _ _) (List.pairwise_pair.mpr hArrival)
  refine ⟨hLast, ?_⟩
  rw [hLast, processAttestations, hOrder]
  rfl

/-- In a small network the two votes of a validator come in the wrong order, and the first one
counts. -/
theorem firstApplied_of_disordered :
    letI : HashFunction := linearHash
    letI : SignatureScheme := Bls.scheme
    ∃ (n : ChainedNetwork) (index : ValidatorIndex), chainedNetwork = some n ∧
      n.vote.arrival < n.overtaking.arrival ∧
        n.overtaking.data.message ≠ n.vote.data.message ∧
          let t := slotTransition n.store.preset
          let before := (runFrom t n.store (n.disordered.take 2)).engine
          let e := (runFrom t n.store n.disordered).engine
          (runFrom t n.store n.disordered).failure = none ∧ e.NoBlockVotes ∧
            e.journal.filterMap Fate.applied? = [n.overtaking, n.vote] ∧
              e.tracker.votes.get? index = some n.vote.data.message ∧
                e.CountsFirstApplied t n.store ∧
                  (before.processAttestations t [n.overtaking, n.vote]).failure = none ∧
                    ∃ applied : List (ReceivedAttestation × List ValidatorIndex),
                      (applied.map Prod.fst).Sublist (byArrival [n.overtaking, n.vote]) ∧
                        ((applied.map Prod.fst).Pairwise fun a a' => a.arrival ≤ a'.arrival) ∧
                          Polls t before (applied.map Ballot.ofApplied)
                            (before.processAttestations t [n.overtaking, n.vote]).engine := by
  let : HashFunction := linearHash
  let : SignatureScheme := Bls.scheme
  -- A sort of two attestations cannot be computed, so what follows it is.
  have hRuns : (chainedNetwork.any fun n =>
      let t := slotTransition n.store.preset
      let before := runFrom t n.store (n.disordered.take 2)
      let after := finishBurst ([n.vote, n.overtaking].foldl (attest t)
        { engine := before.engine, draft := Draft.ofStore before.engine.store })
      decide (n.vote.arrival < n.overtaking.arrival) &&
        decide (n.overtaking.data.message ≠ n.vote.data.message) && before.failure.isNone &&
          after.failure.isNone && ((after.engine.journal.filterMap Fate.imported?).all fun b =>
            b.body.attestations.isEmpty) &&
              decide (after.engine.journal.filterMap Fate.applied? = [n.overtaking, n.vote]) &&
                (List.range 8).any fun i => decide (after.engine.tracker.votes.get?
                  (UInt64.ofNat i) = some n.vote.data.message)) = true := by
    decide +kernel
  obtain ⟨n, hNetwork, -, hRun⟩ := exists_chainedNetwork hRuns
  simp only [Bool.and_eq_true, Option.isNone_iff_eq_none, List.any_eq_true,
    decide_eq_true_eq] at hRun
  obtain ⟨⟨⟨⟨⟨⟨hArrival, hOther⟩, hBefore⟩, hOk⟩, hImported⟩, hApplied⟩, i, -, hVote⟩ := hRun
  obtain ⟨hLast, hSorted⟩ := ChainedNetwork.runFrom_disordered hArrival hBefore
  rw [← hSorted] at hOk hImported hApplied hVote
  have hBlocks := noBlockVotes_of_imported hImported
  obtain ⟨hCounts, hBurst⟩ := firstApplied_of_run (slotTransition n.store.preset) n.store
    n.disordered hOk
  have hHandled := hLast ▸ hOk
  exact ⟨n, UInt64.ofNat i, hNetwork, hArrival, hOther, hOk, hBlocks, hApplied, hVote,
    hCounts 3 hBlocks, hHandled, hBurst _ _ hHandled⟩

/-! ## A vote that waits -/

/-- The first vote arrives before its block, so it waits, and the later one is applied at once. Then
the block arrives. -/
def ChainedNetwork.overtaken (n : ChainedNetwork) : List Delivery :=
  [.tick 12, .burst [n.vote], .burst [n.overtaking], .block n.first]

section

variable [HashFunction] [SignatureScheme] {t : StateTransition}

/-- An attestation that has been accepted has participants. -/
theorem ne_nil_of_attest {d d' : Draft} {a : Attestation} {indices : List ValidatorIndex}
    (h : d.attest t .skip a = (.ok indices, d')) : indices ≠ [] := by
  obtain ⟨_, -, _, _, -, hParticipants, -⟩ := Draft.attest_eq_ok.mp h
  obtain ⟨-, _, -, -, hSome, -⟩ := StoreView.admitParticipants_eq_ok.mp hParticipants
  exact hSome

/-- Of two attestations for one epoch that have been applied, and nothing has been forgotten, the
one with the smaller number was to count for whoever takes part in it. -/
theorem exists_not_firstObserved {s : Store} {e : Engine} {ballots : List Ballot}
    (h : Polls t { store := s } ballots e) (hKept : e.tracker.justified = .empty)
    {first second : ReceivedAttestation}
    (hApplied : e.journal.filterMap Fate.applied? = [first, second])
    (hEpoch : first.data.target.epoch = second.data.target.epoch)
    (hArrival : first.arrival < second.arrival)
    (hLost : ∀ index, e.tracker.votes.get? index ≠ some first.data.message) :
    ∃ index, ¬FirstObserved (appliedFor index ballots) (e.tracker.votes.get? index) := by
  have hNot : .forgotten ∉ ballots := by
    rcases h.justified with ⟨-, hLater⟩ | ⟨hNot, -⟩
    · rw [hKept] at hLater
      exact absurd hLater (UInt64.lt_irrefl _)
    · exact hNot
  -- The journal is read from its end.
  have hBoth : ballots.filterMap Ballot.attestation? = [second, first] := by
    have hSame := h.applied
    rw [hApplied] at hSame
    have hReverse := congrArg List.reverse hSame
    simpa using hReverse.symm
  have hFirst : first ∈ ballots.filterMap Ballot.attestation? := by
    rw [hBoth]
    exact List.mem_cons_of_mem _ List.mem_cons_self
  obtain ⟨indices, hBallot⟩ := Ballot.mem_filterMap_attestation?.mp hFirst
  obtain ⟨d, d', hAttest⟩ := h.accepted first indices hBallot
  obtain ⟨index, hIndex⟩ := List.exists_mem_of_ne_nil indices (ne_nil_of_attest hAttest)
  have hFirst : first ∈ appliedFor index ballots :=
    (mem_appliedFor hNot).mpr ⟨indices, hBallot, hIndex⟩
  refine ⟨index, fun hObserved => ?_⟩
  generalize hVote : e.tracker.votes.get? index = vote at hObserved
  cases hObserved with
  | none hNone =>
    rw [hNone] at hFirst
    exact absurd hFirst List.not_mem_nil
  | @some a hMem _ hSmallest =>
    obtain ⟨others, hOther, -⟩ := (mem_appliedFor hNot).mp hMem
    have hEither := Ballot.mem_filterMap_attestation?.mpr ⟨others, hOther⟩
    rw [hBoth] at hEither
    rcases List.mem_cons.mp hEither with rfl | hEither
    · exact absurd (hSmallest first hFirst hEpoch) (UInt64.not_le.mpr hArrival)
    · rw [List.mem_singleton.mp hEither] at hVote
      exact hLost index hVote

end

/-- **A vote that waits is lost.** In a small network a validator votes for the first block, and
then for the anchor. The first vote waits for its block, so the second one counts, in a run without
failures and without votes in blocks. -/
theorem overtaken_vote_lost :
    letI : HashFunction := linearHash
    letI : SignatureScheme := Bls.scheme
    ∃ (n : ChainedNetwork) (ballots : List Ballot) (index : ValidatorIndex),
      chainedNetwork = some n ∧ n.store.IsGenesis ∧
        let t := slotTransition n.store.preset
        let run := runFrom t n.store n.overtaken
        run.failure = none ∧ run.engine.NoBlockVotes ∧
          Polls t { store := n.store } ballots run.engine ∧
            ¬FirstObserved (appliedFor index ballots) (run.engine.tracker.votes.get? index) := by
  let : HashFunction := linearHash
  let : SignatureScheme := Bls.scheme
  have hRuns : (chainedNetwork.any fun n =>
      let run := runFrom (slotTransition n.store.preset) n.store n.overtaken
      run.failure.isNone &&
        ((run.engine.journal.filterMap Fate.imported?).all fun b => b.body.attestations.isEmpty) &&
          decide (run.engine.tracker.justified = .empty) &&
            decide (run.engine.journal.filterMap Fate.applied? = [n.vote, n.overtaking]) &&
              (run.engine.tracker.votes.toList.all fun vote =>
                decide (vote.2 ≠ n.vote.data.message)) &&
                decide (n.vote.arrival < n.overtaking.arrival) &&
                  decide (n.vote.data.target.epoch = n.overtaking.data.target.epoch)) = true := by
    decide +kernel
  obtain ⟨n, hNetwork, hGenesis, hRun⟩ := exists_chainedNetwork hRuns
  simp only [Bool.and_eq_true, Option.isNone_iff_eq_none, decide_eq_true_eq] at hRun
  obtain ⟨⟨⟨⟨⟨⟨hOk, hImported⟩, hKept⟩, hApplied⟩, hVotes⟩, hArrival⟩, hEpoch⟩ := hRun
  obtain ⟨ballots, hPolls⟩ := polls_runFrom hOk
  have hLost : ∀ index, (runFrom (slotTransition n.store.preset) n.store
      n.overtaken).engine.tracker.votes.get? index ≠ some n.vote.data.message := by
    intro index hSome
    have hEntry := Std.TreeMap.mem_toList_iff_getElem?_eq_some.mpr hSome
    exact of_decide_eq_true (List.all_eq_true.mp hVotes _ hEntry) rfl
  obtain ⟨index, hNot⟩ := exists_not_firstObserved hPolls hKept hApplied hEpoch hArrival hLost
  exact ⟨n, ballots, index, hNetwork, hGenesis, hOk, noBlockVotes_of_imported hImported, hPolls,
    hNot⟩

end Engine

end ForkChoice
