import ForkChoice.Proofs.Store.History
import ForkChoice.Proofs.Store.Votes

/-!
# ForkChoice — votes at a commit

A draft takes a vote only in place of an earlier one, and a commit lays the votes of the draft
over those of the store by the same rule. So no vote of the draft is lost, and a commit changes
nothing that can be read: votes that were recorded in a draft are recorded once, and not again
when it is committed.

* `LatestMessages.get?_merge`, `LatestMessages.get?_extend` — one vote, and many of them;
* `Draft.Newer` — the votes of a draft go before those of its store;
* `Draft.commit_view_changeAll` — what a commit shows;
* `Draft.attest_votes` — the votes that an attestation leaves.
-/

namespace ForkChoice

/-! ## Collected votes -/

namespace LatestMessages

variable {m : LatestMessages} {index index' : ValidatorIndex} {message message' : LatestMessage}

theorem get?_empty : empty.get? index = none :=
  rfl

theorem get?_merge : (m.merge index message).get? index' =
    if index = index' ∧ replaces message (m.get? index) then some message else m.get? index' := by
  unfold merge
  by_cases hReplaces : replaces message (m.get? index)
  · rw [if_pos hReplaces]
    show (m.messages.insert index message)[index']? = _
    rw [Table.getElem?_insert]
    simp only [hReplaces, and_true]
    rfl
  · rw [if_neg hReplaces, if_neg (fun h => hReplaces h.2)]

/-- A vote that goes before one that goes before a third one goes before the third one. -/
theorem replaces_trans {current : Option LatestMessage} (h : replaces message (some message'))
    (h' : replaces message' current) : replaces message current := by
  cases current with
  | none => rfl
  | some current =>
    simp only [replaces, decide_eq_true_eq] at h h' ⊢
    exact UInt64.lt_trans h' h

theorem extend_cons (vote : ValidatorIndex × LatestMessage)
    (votes : List (ValidatorIndex × LatestMessage)) :
    m.extend (vote :: votes) = (m.merge vote.1 vote.2).extend votes :=
  rfl

/-- Votes of different validators that all go before the present ones are all recorded, and the
votes of other validators stay. -/
theorem get?_extend {votes : List (ValidatorIndex × LatestMessage)}
    (hDistinct : (votes.map Prod.fst).Nodup)
    (hReplace : ∀ vote ∈ votes, replaces vote.2 (m.get? vote.1)) :
    (∀ vote ∈ votes, (m.extend votes).get? vote.1 = some vote.2) ∧
      ∀ index ∉ votes.map Prod.fst, (m.extend votes).get? index = m.get? index := by
  induction votes generalizing m with
  | nil => exact ⟨fun vote h => absurd h List.not_mem_nil, fun _ _ => rfl⟩
  | cons vote rest ih =>
    rw [List.map_cons, List.nodup_cons] at hDistinct
    rw [List.forall_mem_cons] at hReplace
    obtain ⟨hOther, hRest⟩ := hDistinct
    obtain ⟨hFirst, hLater⟩ := hReplace
    -- The first vote leaves those of the other validators as they are.
    have hKept : ∀ {index}, index ≠ vote.1 → (m.merge vote.1 vote.2).get? index = m.get? index :=
      fun h => by rw [get?_merge, if_neg (fun h' => h h'.1.symm)]
    have hNe : ∀ vote' ∈ rest, vote'.1 ≠ vote.1 := by
      intro vote' hMem hSame
      exact hOther (hSame ▸ List.mem_map_of_mem hMem)
    obtain ⟨hRecorded, hStay⟩ := ih hRest (m := m.merge vote.1 vote.2) (by
      intro vote' hMem
      rw [hKept (hNe vote' hMem)]
      exact hLater vote' hMem)
    rw [extend_cons]
    refine ⟨?_, ?_⟩
    · intro vote' hMem
      rcases List.mem_cons.mp hMem with rfl | hMem
      · rw [hStay _ hOther, get?_merge, if_pos ⟨rfl, hFirst⟩]
      · exact hRecorded vote' hMem
    · intro index hNot
      rw [List.map_cons, List.mem_cons, not_or] at hNot
      rw [hStay index hNot.2, hKept hNot.1]

end LatestMessages

/-! ## The votes of a draft -/

namespace Draft

open LatestMessages

variable {d d' : Draft}

/-- Each vote of the draft goes before the one that the store has of the same validator, unless
the votes of the store do not count any more. -/
def Newer (d : Draft) : Prop :=
  ∀ index message, d.overlay.latestMessages[index]? = some message →
    d.overlay.discardsVotes = false → replaces message (d.base.latestMessages.get? index)

theorem newer_ofStore (s : Store) : (ofStore s).Newer :=
  fun _ _ h => nomatch h

/-- Only votes matter for this. -/
theorem Newer.of_eq (hd : d.Newer) (hBase : d'.base = d.base)
    (hVotes : d'.overlay.latestMessages = d.overlay.latestMessages)
    (hDiscards : d'.overlay.discardsVotes = d.overlay.discardsVotes) : d'.Newer := by
  intro index message h hKept
  rw [hVotes] at h
  rw [hDiscards] at hKept
  rw [hBase]
  exact hd index message h hKept

theorem Newer.of_rejustified (hd : d.Newer) (h : Rejustified d d') : d'.Newer := by
  refine hd.of_eq ?_ ?_ ?_ <;> rw [h]

theorem Newer.mergeVote (hd : d.Newer) (message : LatestMessage) (index : ValidatorIndex) :
    (d.mergeVote message index).Newer := by
  unfold Draft.mergeVote
  split
  · rename_i hReplaces
    intro index' message' h hKept
    have hKept : d.overlay.discardsVotes = false := hKept
    have hEntry : (d.overlay.latestMessages.insert index message)[index']? = some message' := h
    rw [Table.getElem?_insert] at hEntry
    split at hEntry
    · rename_i hSame
      subst hSame
      rw [← Option.some.inj hEntry]
      show replaces message (d.base.latestMessages.get? index) = true
      -- The vote goes before what the draft shows, which is a vote of the draft or of the store.
      have hShown : d.view.latestMessage? index = (d.overlay.latestMessages[index]? <|>
          d.base.latestMessages.get? index) := by
        show (if d.overlay.discardsVotes then _ else _) = _
        rw [hKept]
        rfl
      rw [hShown] at hReplaces
      cases hOverlaid : d.overlay.latestMessages[index]? with
      | none =>
        rw [hOverlaid] at hReplaces
        exact hReplaces
      | some current =>
        rw [hOverlaid] at hReplaces
        exact replaces_trans hReplaces (hd index current hOverlaid hKept)
    · exact hd index' message' hEntry hKept
  · exact hd

theorem Newer.mergeVotes (hd : d.Newer) (indices : List ValidatorIndex) (message : LatestMessage) :
    (d.mergeVotes indices message).Newer := by
  unfold Draft.mergeVotes
  induction indices generalizing d with
  | nil => exact hd
  | cons index rest ih => exact ih (hd.mergeVote message index)

theorem Newer.discardVotes : d.discardVotes.Newer :=
  fun _ _ h => nomatch h

/-- **A commit shows what the draft showed**, votes included. -/
theorem Newer.commit_view (hd : d.Newer) : d.commit.view = d.view := by
  have hVotes : d.commit.latestMessages.get? = d.view.latestMessage? := by
    let votes := if d.overlay.discardsVotes then LatestMessages.empty else d.base.latestMessages
    have hReplace : ∀ vote ∈ d.overlay.latestMessages.toList,
        replaces vote.2 (votes.get? vote.1) := by
      intro vote hMem
      have hEntry := Std.TreeMap.mem_toList_iff_getElem?_eq_some.mp hMem
      cases hDiscards : d.overlay.discardsVotes with
      | true => simp [votes, hDiscards, get?_empty, replaces]
      | false =>
        simp only [votes, hDiscards]
        exact hd _ _ hEntry hDiscards
    -- So all votes of the draft are recorded, and nobody else is concerned.
    obtain ⟨hRecorded, hStay⟩ :=
      get?_extend (nodup_map_fst_toList d.overlay.latestMessages) hReplace
    funext index
    show (votes.extend d.overlay.latestMessages.toList).get? index =
      if d.overlay.discardsVotes then d.overlay.latestMessages[index]?
      else d.overlay.latestMessages[index]? <|> d.base.latestMessages.get? index
    cases hOverlaid : d.overlay.latestMessages[index]? with
    | some message =>
      have hMem : (index, message) ∈ d.overlay.latestMessages.toList :=
        Std.TreeMap.mem_toList_iff_getElem?_eq_some.mpr hOverlaid
      rw [hRecorded _ hMem]
      exact (ite_self _).symm
    | none =>
      have hNot : index ∉ d.overlay.latestMessages.toList.map Prod.fst := by
        intro hMem
        obtain ⟨vote, hVote, rfl⟩ := List.mem_map.mp hMem
        rw [Std.TreeMap.mem_toList_iff_getElem?_eq_some.mp hVote] at hOverlaid
        exact absurd hOverlaid (by simp)
      rw [hStay index hNot]
      cases hDiscards : d.overlay.discardsVotes <;> simp [votes, hDiscards, get?_empty]
  rw [Draft.commit_view, hVotes]

section

variable {t : StateTransition}

theorem Newer.tick (hd : d.Newer) (time : UInt64) : (d.tick time).Newer := by
  rcases d.tick_cases time with ⟨-, h⟩ | ⟨-, h⟩ | ⟨-, -, h⟩ <;> rw [h]
  · exact hd
  · exact hd.of_eq rfl rfl rfl
  · exact hd.of_eq rfl rfl rfl

theorem Newer.importBlock [HashFunction] (hd : d.Newer) (b : Block) :
    (d.importBlock t b).2.Newer := by
  unfold Draft.importBlock
  split
  · exact hd
  · exact hd
  · dsimp only
    split
    · exact hd.of_eq rfl rfl rfl
    · rename_i root _ _ _ state _
      have hInserted : (d.countApplyBlock.insertBlock root b state).Newer := hd.of_eq rfl rfl rfl
      have hChecked := hInserted.of_rejustified
        ((d.countApplyBlock.insertBlock root b state).updateCheckpoints_rejustified state)
      split <;> rename_i h <;> rwa [h] at hChecked

variable [HashFunction] [SignatureScheme]

theorem Newer.attest (hd : d.Newer) (check : SignatureCheck) (a : Attestation) :
    (d.attest t check a).2.Newer := by
  obtain ⟨d', hCached, h⟩ := d.attest_cases t check a
  have hKept : d'.Newer := by
    refine hd.of_eq ?_ ?_ ?_ <;> rw [hCached]
  rcases h with ⟨failure, h⟩ | ⟨indices, h⟩ <;> rw [h]
  · exact hKept
  · exact hKept.mergeVotes _ _

theorem newer_changeAll (s : Store) (changes : List Change) :
    ((ofStore s).changeAll t changes).Newer := by
  have hAll : ∀ {d : Draft}, d.Newer → (d.changeAll t changes).Newer := by
    unfold Draft.changeAll
    induction changes with
    | nil => exact fun hd => hd
    | cons c rest ih =>
      intro d hd
      cases c with
      | tick time => exact ih (hd.tick time)
      | block b => exact ih (hd.importBlock b)
      | attestation check a => exact ih (hd.attest check a)
      | discardVotes => exact ih Newer.discardVotes
  exact hAll (newer_ofStore s)

/-- **Commits.** Whatever has been done with a draft of a store, its commit shows what it has
shown. -/
theorem commit_view_changeAll (s : Store) (changes : List Change) :
    ((ofStore s).changeAll t changes).commit.view = ((ofStore s).changeAll t changes).view :=
  (newer_changeAll s changes).commit_view

end

/-! ## The votes of an attestation -/

theorem mergeVote_latestMessage? {m : LatestMessages} {message : LatestMessage}
    {index : ValidatorIndex} (h : d.view.latestMessage? = m.get?) :
    (d.mergeVote message index).view.latestMessage? = (m.merge index message).get? := by
  funext index'
  rw [mergeVote_view, get?_merge, ← h]
  rfl

theorem mergeVotes_latestMessage? {m : LatestMessages} (indices : List ValidatorIndex)
    (message : LatestMessage) (h : d.view.latestMessage? = m.get?) :
    (d.mergeVotes indices message).view.latestMessage? = (m.mergeAll indices message).get? := by
  unfold Draft.mergeVotes mergeAll
  induction indices generalizing d m with
  | nil => exact h
  | cons index rest ih => exact ih (mergeVote_latestMessage? h)

section

variable {t : StateTransition}

theorem Cached.latestMessage? (h : Cached d d') :
    d'.view.latestMessage? = d.view.latestMessage? := by
  rw [h]
  rfl

variable [HashFunction] [SignatureScheme] {check : SignatureCheck} {a : Attestation}

/-- **The votes of an attestation.** An attestation that is accepted has the votes of its
participants recorded once. -/
theorem attest_votes {indices : List ValidatorIndex} {m : LatestMessages}
    (h : d.attest t check a = (.ok indices, d')) (hVotes : d.view.latestMessage? = m.get?) :
    d'.view.latestMessage? = (m.mergeAll indices a.data.message).get? := by
  obtain ⟨cached, hCached, ⟨failure, hEnd⟩ | ⟨indices, hEnd⟩⟩ := d.attest_cases t check a <;>
    rw [hEnd] at h <;> cases h
  exact mergeVotes_latestMessage? indices _ (hCached.latestMessage?.trans hVotes)

/-- An attestation that is refused leaves the votes as they are. -/
theorem attest_error_votes {failure : Failure StoreError}
    (h : d.attest t check a = (.error failure, d')) :
    d'.view.latestMessage? = d.view.latestMessage? := by
  obtain ⟨cached, hCached, ⟨failure, hEnd⟩ | ⟨indices, hEnd⟩⟩ := d.attest_cases t check a <;>
    rw [hEnd] at h <;> cases h
  exact hCached.latestMessage?

end

end Draft

end ForkChoice
