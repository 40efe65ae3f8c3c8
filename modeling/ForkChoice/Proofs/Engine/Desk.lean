import Mathlib.Logic.Relation
import ForkChoice.Proofs.Engine.Queues
import ForkChoice.Proofs.Store.Commit
import ForkChoice.Proofs.Store.Verdict

/-!
# ForkChoice — one move at a time

The handlers of an engine call each other: a tick lets blocks go on, a block that is imported lets
attestations go on in the middle of the queue of blocks, and what goes on may have to wait again.
Seen from the outside all this is a sequence of small moves on a desk, where blocks and
attestations lie that have been taken in hand. Each move takes the first of them and puts it in
its place: into the store, into the journal, or into one of the queues.

Whatever has to be known of the queues is therefore shown for the moves, one by one, and for
arrivals; it holds then in all runs.

* `Desk` — what an engine works on, `Engine.desk` — the desk of an engine;
* `Arrival` — what a delivery brings to the desk, `Move` — a move;
* `Move.stable` — what no operation on a draft destroys is not destroyed by a move;
* `handle_moves` — handlers are moves;
* `holds_of_run` — what holds at the beginning and is preserved holds in every run.
-/

namespace ForkChoice

/-! ## The desk -/

/-- What an engine works on: what can be read of the store, the votes that have been collected,
what waits, what has become of things, and what has been taken in hand. -/
structure Desk where
  view : StoreView
  votes : LatestMessages
  waiting : Waiting
  journal : List Fate
  blocks : List PendingBlock
  attestations : List ReceivedAttestation

/-- The desk of an engine, with what waits and what is in hand. -/
def Engine.desk (e : Engine) (waiting : Waiting) (blocks : List PendingBlock)
    (attestations : List ReceivedAttestation) : Desk :=
  ⟨e.store.view, e.tracker.votes, waiting, e.journal, blocks, attestations⟩

/-- The desk of an engine between messages: nothing is in hand. -/
def Engine.atRest (e : Engine) : Desk :=
  e.desk e.waiting [] []

/-- The collected votes after the votes of several attestations. -/
def LatestMessages.mergeVotes (m : LatestMessages) (votes : List Vote) : LatestMessages :=
  votes.foldl (fun m (indices, message) => m.mergeAll indices message) m

section

variable [HashFunction] [SignatureScheme]

/-- What a delivery brings to the desk. A tick brings the blocks that have waited for their
slots. -/
inductive Arrival (k : Desk) : Delivery → Desk → Prop
  | tick {time : UInt64} {d : Draft} (hd : d.view = k.view) :
    Arrival k (.tick time) { k with
      view := (d.tick time).view
      blocks := (k.waiting.takeUntilSlot (d.tick time).view.currentSlot).1.map PendingBlock.retry
      waiting := (k.waiting.takeUntilSlot (d.tick time).view.currentSlot).2 }
  | block (b : Block) : Arrival k (.block b) { k with blocks := [{ block := b }] }
  | burst (attestations : List ReceivedAttestation) :
    Arrival k (.burst attestations) { k with attestations := attestations }
  | justified (checkpoint : Checkpoint) : Arrival k (.justified checkpoint) k

/-- A move. Those of blocks and of attestations are about the first one in hand. -/
inductive Move (t : StateTransition) (k : Desk) : Desk → Prop
  /-- All votes are forgotten. -/
  | forget {d : Draft} (hd : d.view = k.view) :
    Move t k { k with view := d.discardVotes.view, votes := .empty }
  /-- The votes in a block that has been imported are collected. -/
  | collect {b : Block} {state : BeaconState} {votes : List Vote}
    (hImported : .blockImported b ∈ k.journal)
    (hVotes : Engine.blockVotes k.view.preset state b.body.attestations = .ok votes) :
    Move t k { k with votes := k.votes.mergeVotes votes }
  /-- The attestations that wait for a tick are taken in hand. -/
  | takeUntilTick : Move t k { k with
      attestations := k.attestations ++ k.waiting.takeUntilTick.1
      waiting := k.waiting.takeUntilTick.2 }
  /-- The attestations in hand are arranged. -/
  | arrange {attestations : List ReceivedAttestation} (h : attestations.Perm k.attestations) :
    Move t k { k with attestations := attestations }
  /-- A block is imported, and all that has waited for it is taken in hand. -/
  | imported {b : PendingBlock} {rest : List PendingBlock} {d d' : Draft} {root : Root}
    (hHand : k.blocks = b :: rest) (hd : d.view = k.view)
    (hImport : d.importBlock t b.block = (.ok (.imported root), d')) :
    Move t k { k with
      view := d'.view
      journal := .blockImported b.block :: k.journal
      blocks := rest ++ (k.waiting.takeUntilParent root).1.map PendingBlock.retry
      attestations :=
        k.attestations ++ ((k.waiting.takeUntilParent root).2.takeUntilBlock root).1
      waiting := ((k.waiting.takeUntilParent root).2.takeUntilBlock root).2 }
  | known {b : PendingBlock} {rest : List PendingBlock} {root : Root} {block : Block}
    (hHand : k.blocks = b :: rest) (hRoot : b.block.treeRoot = .ok root)
    (hKnown : k.view.block? root = some block) :
    Move t k { k with journal := .blockKnown b.block :: k.journal, blocks := rest }
  | refused {b : PendingBlock} {rest : List PendingBlock} {d : Draft} {reason : StoreError}
    (hHand : k.blocks = b :: rest) (hd : d.view = k.view)
    (hImport : (d.importBlock t b.block).1 = .error (.error reason))
    (hFinal : reason.isDelayable = false) :
    Move t k { k with journal := .blockRefused b.block reason :: k.journal, blocks := rest }
  /-- A block that has waited before is dropped because its parent is not known. -/
  | dropped {b : PendingBlock} {rest : List PendingBlock} {reason : StoreError}
    (hHand : k.blocks = b :: rest) (hRetried : b.retried = true)
    (hParent : k.view.state? b.block.parentRoot = none) :
    Move t k { k with journal := .blockRefused b.block reason :: k.journal, blocks := rest }
  | untilParent {b : PendingBlock} {rest : List PendingBlock} (hHand : k.blocks = b :: rest)
    (hParent : k.view.state? b.block.parentRoot = none) :
    Move t k { k with waiting := k.waiting.delayUntilParent b, blocks := rest }
  | untilSlot {b : PendingBlock} {rest : List PendingBlock} {state : BeaconState}
    (hHand : k.blocks = b :: rest) (hParent : k.view.state? b.block.parentRoot = some state)
    (hSlot : k.view.currentSlot < b.block.slot) :
    Move t k { k with waiting := k.waiting.delayUntilSlot b, blocks := rest }
  | applied {a : ReceivedAttestation} {rest : List ReceivedAttestation} {d d' : Draft}
    {indices : List ValidatorIndex} (hHand : k.attestations = a :: rest) (hd : d.view = k.view)
    (hAttest : d.attest t .skip a.attestation = (.ok indices, d')) :
    Move t k { k with
      view := d'.view
      votes := k.votes.mergeAll indices a.data.message
      journal := .attestationApplied a :: k.journal
      attestations := rest }
  | rejected {a : ReceivedAttestation} {rest : List ReceivedAttestation} {d d' : Draft}
    {reason : StoreError} (hHand : k.attestations = a :: rest) (hd : d.view = k.view)
    (hAttest : d.attest t .skip a.attestation = (.error (.error reason), d'))
    (hFinal : reason.isDelayable = false) :
    Move t k { k with
      view := d'.view
      journal := .attestationRefused a reason :: k.journal
      attestations := rest }
  | untilTick {a : ReceivedAttestation} {rest : List ReceivedAttestation} {d d' : Draft}
    {reason : StoreError} (hHand : k.attestations = a :: rest) (hd : d.view = k.view)
    (hAttest : d.attest t .skip a.attestation = (.error (.error reason), d')) :
    Move t k { k with
      view := d'.view
      waiting := k.waiting.delayUntilTick a
      attestations := rest }
  | untilBlock {a : ReceivedAttestation} {rest : List ReceivedAttestation} {d d' : Draft}
    {root : Root} {reason : StoreError} (hHand : k.attestations = a :: rest)
    (hd : d.view = k.view)
    (hAttest : d.attest t .skip a.attestation = (.error (.error reason), d'))
    (hUnknown : k.view.block? root = none ∨ k.view.state? root = none) :
    Move t k { k with
      view := d'.view
      waiting := k.waiting.delayUntilBlock root a
      attestations := rest }

/-- Moves one after another. -/
abbrev Moves (t : StateTransition) : Desk → Desk → Prop :=
  Relation.ReflTransGen (Move t)

section

variable {t : StateTransition} {k k' : Desk} {P : StoreView → Prop}

/-- What no operation on a draft destroys is not destroyed by a move. -/
theorem Move.stable (hP : Draft.Stable t P) (h : Move t k k') (hk : P k.view) : P k'.view := by
  cases h with
  | forget hd => exact hP.change _ .discardVotes (hd ▸ hk)
  | imported _ hd hImport => exact hP.importBlock hImport (hd ▸ hk)
  | applied _ hd hAttest
  | rejected _ hd hAttest
  | untilTick _ hd hAttest
  | untilBlock _ hd hAttest => exact hP.attest hAttest (hd ▸ hk)
  | collect
  | takeUntilTick
  | arrange
  | known
  | refused
  | dropped
  | untilParent
  | untilSlot => exact hk

theorem Arrival.stable (hP : Draft.Stable t P) {x : Delivery} (h : Arrival k x k')
    (hk : P k.view) : P k'.view := by
  cases h with
  | tick hd => exact hP.change _ (.tick _) (hd ▸ hk)
  | block
  | burst
  | justified => exact hk

end

/-! ## Handlers are moves -/

namespace Engine

variable {t : StateTransition} {e : Engine} {w : Waiting} {blocks : List PendingBlock}
  {attestations : List ReceivedAttestation}

/-! ### The head -/

section

omit [HashFunction] [SignatureScheme]

theorem recordAll_votes (h : HeadTracker) (votes : List Vote) :
    (h.recordAll votes).votes = h.votes.mergeVotes votes := by
  unfold HeadTracker.recordAll LatestMessages.mergeVotes
  induction votes generalizing h with
  | nil => rfl
  | cons vote rest ih => exact ih _

theorem updateHead_tracker (v : StoreView) (h : HeadTracker) :
    (h.updateHead v).2.votes = h.votes ∧ (h.updateHead v).2.justified = h.justified := by
  unfold HeadTracker.updateHead
  split
  · exact ⟨rfl, rfl⟩
  · split
    · exact ⟨rfl, rfl⟩
    · split <;> exact ⟨rfl, rfl⟩

theorem updateHead_engine :
    e.updateHead.engine = { e with tracker := (e.tracker.updateHead e.store.view).2 } := by
  unfold Engine.updateHead
  rcases e.tracker.updateHead e.store.view with ⟨_ | _, tracker⟩ <;> rfl

variable (e w blocks attestations) in
/-- The search for the head changes nothing on the desk. -/
theorem updateHead_desk : e.updateHead.engine.desk w blocks attestations =
    e.desk w blocks attestations := by
  rw [updateHead_engine, desk, (updateHead_tracker e.store.view e.tracker).1]
  rfl

theorem adoptJustified_of_le {checkpoint : Checkpoint}
    (h : checkpoint.epoch ≤ e.tracker.justified.epoch) :
    e.adoptJustified checkpoint = ⟨e, none⟩ := by
  rw [adoptJustified, HeadTracker.onJustified, if_pos h, Run.ofTracked, Run.andThen_of_ok rfl,
    followTracker, if_pos rfl]

theorem adoptJustified_of_not_le {checkpoint : Checkpoint}
    (h : ¬ checkpoint.epoch ≤ e.tracker.justified.epoch) :
    e.adoptJustified checkpoint = (e.forgetVotes checkpoint).updateHead.andThen fun e' =>
      ⟨e'.followTracker e.tracker.justified, none⟩ := by
  rw [adoptJustified, HeadTracker.onJustified, if_neg h]
  rfl

/-- A draft that is published shows on the desk what it has shown before. -/
theorem publish_desk {d : Draft} (hd : d.Newer) :
    (e.publish d).desk w blocks attestations =
      { e.desk w blocks attestations with view := d.view } := by
  rw [desk, publish, hd.commit_view]
  rfl

theorem delayOrRefuse_of_final {a : ReceivedAttestation} {reason : StoreError}
    (hFinal : reason.isDelayable = false) :
    e.delayOrRefuse a reason = e.record (.attestationRefused a reason) := by
  unfold delayOrRefuse
  split
  · cases hFinal
  · cases hFinal
  · cases hFinal
  · rfl

end

/-- A justified checkpoint changes nothing, or it makes all votes forgotten. -/
theorem adoptJustified_moves {checkpoint : Checkpoint}
    (hOk : (e.adoptJustified checkpoint).failure = none) :
    Moves t (e.desk w blocks attestations)
      ((e.adoptJustified checkpoint).engine.desk w blocks attestations) := by
  by_cases h : checkpoint.epoch ≤ e.tracker.justified.epoch
  · rw [adoptJustified_of_le h]
  · rw [adoptJustified_of_not_le h] at hOk ⊢
    rw [Run.andThen_of_ok (Run.andThen_ok hOk).1]
    have hDesk := updateHead_desk (e.forgetVotes checkpoint) w blocks attestations
    have hJustified : (e.forgetVotes checkpoint).updateHead.engine.tracker.justified =
        checkpoint := by
      rw [updateHead_engine]
      exact (updateHead_tracker e.store.view (e.forgetVotes checkpoint).tracker).2
    generalize (e.forgetVotes checkpoint).updateHead.engine = e' at hDesk hJustified
    -- The tracker has a later checkpoint now, so the store forgets its votes, too.
    have hNew : e'.tracker.justified ≠ e.tracker.justified := by
      rw [hJustified]
      rintro rfl
      exact h (UInt64.le_refl _)
    have hView : (Draft.ofStore e'.store).view = e.store.view :=
      (Draft.ofStore_view _).trans (congrArg Desk.view hDesk)
    rw [followTracker, if_neg hNew, publish_desk Draft.Newer.discardVotes, hDesk]
    exact .single (.forget hView)

variable (w blocks attestations) in
theorem refreshHead_moves (hOk : e.refreshHead.failure = none) :
    Moves t (e.desk w blocks attestations) (e.refreshHead.engine.desk w blocks attestations) := by
  have hAdopted := (Run.andThen_ok hOk).1
  rw [refreshHead, Run.andThen_of_ok hAdopted, updateHead_desk]
  exact adoptJustified_moves hAdopted

/-! ### Attestations -/

/-- The desk in the middle of a burst: what the draft shows can be read already, and the votes so
far count as collected. -/
def burstDesk (b : BurstProgress) (blocks : List PendingBlock)
    (attestations : List ReceivedAttestation) : Desk :=
  { b.engine.desk b.engine.waiting blocks attestations with
    view := b.draft.view
    votes := b.engine.tracker.votes.mergeVotes b.votes }

/-- A burst that has failed stays as it is, so it has not failed before if it has not now. -/
theorem attest_ok {b : BurstProgress} {a : ReceivedAttestation}
    (h : (attest t b a).failure = none) : b.failure = none := by
  cases hFailure : b.failure with
  | none => rfl
  | some failure =>
    rw [attest, hFailure] at h
    exact hFailure.symm.trans h

theorem attestAll_ok {b : BurstProgress}
    (h : (attestations.foldl (attest t) b).failure = none) : b.failure = none := by
  induction attestations generalizing b with
  | nil => exact h
  | cons a rest ih => exact attest_ok (ih h)

/-- **One attestation** is applied, refused, or made to wait. -/
theorem attest_move {b : BurstProgress} {a : ReceivedAttestation}
    (hOk : (attest t b a).failure = none) :
    Move t (burstDesk b blocks (a :: attestations))
      (burstDesk (attest t b a) blocks attestations) := by
  have hRunning := attest_ok hOk
  cases hAttest : b.draft.attest t .skip a.attestation with
  | mk result d =>
    cases result with
    | ok indices =>
      have hEnd : attest t b a = { b with
          engine := b.engine.record (.attestationApplied a)
          draft := d
          votes := b.votes ++ [(indices, a.data.message)] } := by
        rw [attest, hRunning, hAttest]
      have hVotes : b.engine.tracker.votes.mergeVotes (b.votes ++ [(indices, a.data.message)]) =
          (b.engine.tracker.votes.mergeVotes b.votes).mergeAll indices a.data.message :=
        List.foldl_append
      have hDesk : burstDesk (attest t b a) blocks attestations =
          { burstDesk b blocks (a :: attestations) with
            view := d.view
            votes := (b.engine.tracker.votes.mergeVotes b.votes).mergeAll indices a.data.message
            journal := .attestationApplied a :: b.engine.journal
            attestations := attestations } := by
        rw [hEnd, ← hVotes]
        rfl
      rw [hDesk]
      exact .applied rfl rfl hAttest
    | error failure =>
      cases failure with
      | fault reason => simp [attest, hRunning, hAttest] at hOk
      | error reason =>
        have hEnd : attest t b a =
            { b with engine := b.engine.delayOrRefuse a reason, draft := d } := by
          rw [attest, hRunning, hAttest]
        rw [hEnd]
        rcases Draft.attest_error (congrArg Prod.fst hAttest) with hFinal | hDelay
        · have hReason := hFinal reason rfl
          rw [delayOrRefuse_of_final hReason]
          exact .rejected rfl rfl hAttest hReason
        · cases hDelay with
          | early => exact .untilTick rfl rfl hAttest
          | block hUnknown => exact .untilBlock rfl rfl hAttest (Or.inl hUnknown)
          | target hUnknown => exact .untilBlock rfl rfl hAttest (Or.inr hUnknown)

variable (blocks) in
theorem attestAll_moves {b : BurstProgress}
    (hOk : (attestations.foldl (attest t) b).failure = none) :
    Moves t (burstDesk b blocks attestations)
      (burstDesk (attestations.foldl (attest t) b) blocks []) := by
  induction attestations generalizing b with
  | nil => exact .refl
  | cons a rest ih =>
    have hFirst : (attest t b a).failure = none := attestAll_ok hOk
    exact (ih hOk).head (attest_move hFirst)

theorem attest_newer {b : BurstProgress} (hb : b.draft.Newer) (a : ReceivedAttestation) :
    (attest t b a).draft.Newer := by
  have hNext := hb.attest (t := t) .skip a.attestation
  unfold attest
  split
  · exact hb
  · split <;> rename_i h <;> rwa [h] at hNext

theorem attestAll_newer {b : BurstProgress} (hb : b.draft.Newer) :
    (attestations.foldl (attest t) b).draft.Newer := by
  induction attestations generalizing b with
  | nil => exact hb
  | cons a rest ih => exact ih (attest_newer hb a)

variable (blocks) in
omit [HashFunction] [SignatureScheme] in
/-- When the draft of a burst is published, the desk shows what it has shown already. -/
theorem finishBurst_desk {b : BurstProgress} (hb : b.draft.Newer)
    (hOk : (finishBurst b).failure = none) :
    b.failure = none ∧
      (finishBurst b).engine.desk (finishBurst b).engine.waiting blocks [] =
        burstDesk b blocks [] := by
  have hWaiting := finishBurst_waiting b
  rw [hWaiting]
  unfold finishBurst at hOk ⊢
  split at hOk
  · exact absurd hOk (by simp)
  · rename_i hRunning
    refine ⟨hRunning, ?_⟩
    dsimp only
    split
    · rename_i hNone
      rw [publish_desk hb, burstDesk, List.isEmpty_iff.mp hNone]
      rfl
    · rw [updateHead_desk]
      show { (b.engine.publish b.draft).desk b.engine.waiting blocks [] with
        votes := (b.engine.tracker.recordAll b.votes).votes } = _
      rw [publish_desk hb, recordAll_votes]
      rfl

/-- **A burst** leaves no attestation in hand. -/
theorem processAttestations_moves (hOk : (e.processAttestations t attestations).failure = none) :
    Moves t (e.desk e.waiting blocks attestations)
      ((e.processAttestations t attestations).engine.desk
        (e.processAttestations t attestations).engine.waiting blocks []) := by
  unfold processAttestations at hOk ⊢
  split at hOk
  · rename_i hNone
    rw [if_pos hNone, List.isEmpty_iff.mp hNone]
  · rename_i hSome
    rw [if_neg hSome]
    let b : BurstProgress := { engine := e, draft := Draft.ofStore e.store }
    have hStart : burstDesk b blocks (byArrival attestations) =
        e.desk e.waiting blocks (byArrival attestations) := by
      rw [burstDesk, Draft.ofStore_view]
      rfl
    have hNewer : ((byArrival attestations).foldl (attest t) b).draft.Newer :=
      attestAll_newer (Draft.newer_ofStore e.store)
    obtain ⟨hRunning, hEnd⟩ := finishBurst_desk blocks hNewer hOk
    have hArranged : Move t (e.desk e.waiting blocks attestations)
        (e.desk e.waiting blocks (byArrival attestations)) :=
      .arrange (List.mergeSort_perm _ _)
    rw [hEnd]
    have hAll := attestAll_moves blocks hRunning
    rw [hStart] at hAll
    exact hAll.head hArranged

/-! ### Blocks -/

/-- The votes in a block are collected, or they do not count. -/
theorem onBlock_moves {block : Block} {state : BeaconState} {votes : List Vote}
    (hImported : .blockImported block ∈ e.journal)
    (hVotes : blockVotes e.store.preset state block.body.attestations = .ok votes) :
    Moves t (e.desk w blocks attestations)
      ({ e with tracker := (e.tracker.onBlock e.store.view block votes).2 }.desk w blocks
        attestations) := by
  unfold HeadTracker.onBlock
  split
  · show Moves t _ { e.desk w blocks attestations with
      votes := (e.tracker.recordAll votes).votes }
    rw [recordAll_votes]
    exact .single (.collect hImported hVotes)
  · exact .refl

variable (w blocks attestations) in
theorem afterImport_moves {root : Root} {block : Block}
    (hImported : .blockImported block ∈ e.journal)
    (hOk : (e.afterImport root block).failure = none) :
    Moves t (e.desk w blocks attestations)
      ((e.afterImport root block).engine.desk w blocks attestations) := by
  unfold afterImport at hOk ⊢
  split at hOk
  · exact absurd hOk (by simp)
  · rename_i state _
    split at hOk
    · exact absurd hOk (by simp)
    · rename_i votes hVotes
      exact (onBlock_moves hImported hVotes).trans (refreshHead_moves w blocks attestations hOk)

theorem settleImport_ok {root : Root} {block : Block}
    (hOk : (e.settleImport t root block).run.failure = none) :
    ∃ e', e.afterImport root block = ⟨e', none⟩ ∧
      e.settleImport t root block = {
        run := { e'.notify (.blockImported root) with
          waiting := (e'.waiting.takeUntilParent root).2 }.releaseAttestations t root
        released := (e'.waiting.takeUntilParent root).1.map PendingBlock.retry } := by
  cases hAfter : e.afterImport root block with
  | mk e' failure =>
    cases failure with
    | none =>
      refine ⟨e', rfl, ?_⟩
      rw [settleImport, hAfter]
      rfl
    | some failure =>
      rw [settleImport, hAfter] at hOk
      exact absurd hOk (by simp [Run.andThen])

variable (blocks) in
/-- A block that has just been imported is settled when all that has waited for it is in hand. -/
theorem settleImport_moves {root : Root} {block : Block}
    (hImported : .blockImported block ∈ e.journal)
    (hOk : (e.settleImport t root block).run.failure = none) :
    Moves t
      (e.desk ((e.waiting.takeUntilParent root).2.takeUntilBlock root).2
        (blocks ++ (e.waiting.takeUntilParent root).1.map PendingBlock.retry)
        ((e.waiting.takeUntilParent root).2.takeUntilBlock root).1)
      ((e.settleImport t root block).run.engine.desk
        (e.settleImport t root block).run.engine.waiting
        (blocks ++ (e.settleImport t root block).released) []) := by
  obtain ⟨e', hAfter, hSettled⟩ := settleImport_ok hOk
  have hMoves := afterImport_moves (t := t)
    ((e.waiting.takeUntilParent root).2.takeUntilBlock root).2
    (blocks ++ (e.waiting.takeUntilParent root).1.map PendingBlock.retry)
    ((e.waiting.takeUntilParent root).2.takeUntilBlock root).1 hImported (by rw [hAfter])
  -- Nothing begins to wait while the votes in the block are counted.
  have hWaiting := afterImport_waiting (e := e) root block
  rw [hAfter] at hMoves hWaiting
  rw [← hWaiting] at hMoves ⊢
  rw [hSettled] at hOk ⊢
  exact hMoves.trans (processAttestations_moves hOk)

omit [HashFunction] [SignatureScheme] in
theorem delayOrRefuseBlock_of_final {b : PendingBlock} {reason : StoreError}
    (hFinal : reason.isDelayable = false) :
    e.delayOrRefuseBlock b reason = e.record (.blockRefused b.block reason) := by
  unfold delayOrRefuseBlock
  split
  · cases hFinal
  · cases hFinal
  · rfl

/-- A block that is not imported is refused, or it is made to wait. -/
theorem delayOrRefuseBlock_move {b : PendingBlock} {d d' : Draft} {reason : StoreError}
    (hd : d.view = e.store.view)
    (hImport : (d.importBlock t b.block).1 = .error (.error reason)) :
    Move t (e.desk e.waiting (b :: blocks) [])
      (((e.abandon d').delayOrRefuseBlock b reason).desk
        ((e.abandon d').delayOrRefuseBlock b reason).waiting blocks []) := by
  rcases Draft.importBlock_error hImport with hFinal | hDelay
  · have hReason := hFinal reason rfl
    rw [delayOrRefuseBlock_of_final hReason]
    exact .refused rfl hd hImport hReason
  · rw [hd] at hDelay
    cases hDelay with
    | parent root hParent =>
      unfold delayOrRefuseBlock
      dsimp only
      split
      · rename_i hRetried
        exact .dropped rfl hRetried hParent
      · exact .untilParent rfl hParent
    | slot hParent hSlot => exact .untilSlot rfl hParent hSlot

/-- **One block** is imported, known, refused, or made to wait, and what it lets go on joins the end
of the queue. -/
theorem importBlock_moves {b : PendingBlock} (hOk : (e.importBlock t b).run.failure = none) :
    Moves t (e.desk e.waiting (b :: blocks) [])
      ((e.importBlock t b).run.engine.desk (e.importBlock t b).run.engine.waiting
        (blocks ++ (e.importBlock t b).released) []) := by
  have hView := Draft.ofStore_view e.store
  have hNewer := (Draft.newer_ofStore e.store).importBlock (t := t) b.block
  unfold importBlock at hOk ⊢
  cases hImport : (Draft.ofStore e.store).importBlock t b.block with
  | mk result d =>
    rw [hImport] at hOk hNewer
    cases result with
    | ok result =>
      cases result with
      | imported root =>
        have hSettled := settleImport_moves blocks List.mem_cons_self hOk
        refine .head ?_ hSettled
        -- What has been published shows what the draft has shown.
        have hImported := Move.imported (k := e.desk e.waiting (b :: blocks) []) rfl hView hImport
        have hPublished : (e.publish d).store.view = d.view := hNewer.commit_view
        simpa only [desk, publish, record, hNewer.commit_view, List.nil_append] using hImported
      | alreadyKnown root =>
        obtain ⟨hRoot, block, hKnown⟩ := Draft.importBlock_known hImport
        rw [hView] at hKnown
        dsimp only
        rw [List.append_nil]
        exact .single (.known rfl hRoot hKnown)
    | error failure =>
      cases failure with
      | fault reason => exact absurd hOk (by simp)
      | error reason =>
        dsimp only
        rw [List.append_nil]
        exact .single (delayOrRefuseBlock_move hView (congrArg Prod.fst hImport))

/-- **A queue of blocks** is worked off, and leaves nothing in hand. -/
theorem blocksFrom_moves {fuel : Nat} (hOk : (blocksFrom t fuel blocks e).failure = none) :
    Moves t (e.desk e.waiting blocks []) (blocksFrom t fuel blocks e).engine.atRest := by
  induction fuel generalizing blocks e with
  | zero =>
    cases blocks with
    | nil => exact .refl
    -- The bound is met only in a run that fails.
    | cons b blocks => exact absurd hOk (by simp [blocksFrom])
  | succ fuel ih =>
    cases blocks with
    | nil => exact .refl
    | cons b blocks =>
      rw [blocksFrom] at hOk ⊢
      obtain ⟨hFirst, hRest⟩ := Run.andThen_ok hOk
      rw [Run.andThen_of_ok hFirst]
      exact (importBlock_moves hFirst).trans (ih hRest)

/-! ### Messages -/

theorem releaseUntilTick_moves (hOk : (e.releaseUntilTick t).failure = none) :
    Moves t e.atRest (e.releaseUntilTick t).engine.atRest :=
  .head .takeUntilTick (processAttestations_moves hOk)

theorem releaseBlocks_moves {slot : Slot} (hOk : (e.releaseBlocks t slot).failure = none) :
    Moves t
      (e.desk (e.waiting.takeUntilSlot slot).2
        ((e.waiting.takeUntilSlot slot).1.map PendingBlock.retry) [])
      (e.releaseBlocks t slot).engine.atRest :=
  blocksFrom_moves hOk

variable (w blocks attestations) in
omit [HashFunction] [SignatureScheme] in
theorem announceSlot_desk (previous current : Slot) :
    (e.announceSlot previous current).waiting = e.waiting ∧
      (e.announceSlot previous current).desk w blocks attestations =
        e.desk w blocks attestations := by
  unfold announceSlot
  split <;> exact ⟨rfl, rfl⟩

/-- A tick lets blocks go on, and then attestations. -/
theorem handleTick_moves {time : UInt64} (hOk : (e.handleTick t time).failure = none) :
    ∃ k, Arrival e.atRest (.tick time) k ∧ Moves t k (e.handleTick t time).engine.atRest := by
  let e' := e.publish ((Draft.ofStore e.store).tick time)
  let previous := e.store.view.currentSlot
  let current := e'.store.view.currentSlot
  have hTick : e.handleTick t time =
      ((e'.refreshHead.andThen fun e => ⟨e.announceSlot previous current, none⟩).andThen
        (releaseBlocks t current)).andThen (releaseUntilTick t) := rfl
  rw [hTick] at hOk ⊢
  obtain ⟨hBlocks, hAttestations⟩ := Run.andThen_ok hOk
  obtain ⟨hAnnounced, hReleased⟩ := Run.andThen_ok hBlocks
  have hRefreshed := (Run.andThen_ok hAnnounced).1
  rw [Run.andThen_of_ok hBlocks]
  -- The blocks that are due can be taken already when time moves on: nothing that happens in
  -- between looks at them.
  have hView : e'.store.view = ((Draft.ofStore e.store).tick time).view :=
    ((Draft.newer_ofStore e.store).tick time).commit_view
  have hArrival : Arrival e.atRest (.tick time) _ := .tick (Draft.ofStore_view e.store)
  rw [← hView] at hArrival
  refine ⟨_, hArrival, ?_⟩
  let w := (e.waiting.takeUntilSlot current).2
  let due := (e.waiting.takeUntilSlot current).1.map PendingBlock.retry
  have hMoves := refreshHead_moves (t := t) w due [] hRefreshed
  have hWaiting : e'.refreshHead.engine.waiting = e.waiting := refreshHead_waiting
  have hBlockMoves := releaseBlocks_moves hReleased
  rw [Run.andThen_of_ok hAnnounced] at hAttestations ⊢
  rw [Run.andThen_of_ok hRefreshed] at hAttestations hBlockMoves ⊢
  obtain ⟨hSame, hDesk⟩ := announceSlot_desk (e := e'.refreshHead.engine) w due [] previous current
  dsimp only at hBlockMoves
  rw [hSame, hWaiting, hDesk] at hBlockMoves
  exact (hMoves.trans hBlockMoves).trans (releaseUntilTick_moves hAttestations)

/-- **Handlers are moves** after an arrival, unless they fail. -/
theorem handle_moves {x : Delivery} (hOk : (e.handle t x).failure = none) :
    ∃ k, Arrival e.atRest x k ∧ Moves t k (e.handle t x).engine.atRest := by
  cases x with
  | tick time => exact handleTick_moves hOk
  | block b => exact ⟨_, .block b, blocksFrom_moves hOk⟩
  | burst attestations => exact ⟨_, .burst attestations, processAttestations_moves hOk⟩
  | justified checkpoint =>
    have hWaiting := adoptJustified_waiting (e := e) checkpoint
    refine ⟨_, .justified checkpoint, ?_⟩
    show Moves t e.atRest (e.adoptJustified checkpoint).engine.atRest
    rw [atRest, atRest, hWaiting]
    exact adoptJustified_moves hOk

/-- **Runs.** What holds of the desk at the beginning, and is preserved by arrivals and by moves,
holds after every run without failures. -/
theorem holds_of_run {s : Store} {P : List Delivery → Desk → Prop}
    (hStart : P [] (Engine.atRest { store := s }))
    (hArrival : ∀ {deliveries x k k'}, k.blocks = [] → k.attestations = [] → Arrival k x k' →
      P deliveries k → P (deliveries ++ [x]) k')
    (hMove : ∀ {deliveries k k'}, Move t k k' → P deliveries k → P deliveries k')
    {deliveries : List Delivery} (hOk : (runFrom t s deliveries).failure = none) :
    P deliveries (runFrom t s deliveries).engine.atRest := by
  have hMoves : ∀ {deliveries k k'}, Moves t k k' → P deliveries k → P deliveries k' := by
    intro deliveries k k' h hk
    induction h with
    | refl => exact hk
    | tail _ hLast ih => exact hMove hLast ih
  induction deliveries using List.reverseRecOn with
  | nil =>
    have hWaiting := refreshHead_waiting (e := { store := s })
    have hFirst := refreshHead_moves (t := t) {} [] [] hOk
    show P [] ((Engine.refreshHead { store := s }).engine.atRest)
    rw [atRest, hWaiting]
    exact hMoves hFirst hStart
  | append_singleton deliveries x ih =>
    rw [runFrom_concat] at hOk ⊢
    obtain ⟨hBefore, hLast⟩ := Run.andThen_ok hOk
    rw [Run.andThen_of_ok hBefore]
    obtain ⟨k, hArrived, hHandled⟩ := handle_moves hLast
    exact hMoves hHandled (hArrival rfl rfl hArrived (ih hBefore))

end Engine

end

end ForkChoice
