import ForkChoice.Engine.Message
import ForkChoice.Proofs.Store.History

/-!
# ForkChoice — runs of the engine

All that an engine does to its store and its head tracker is made of a few moves: a draft is
published, votes are recorded or forgotten, and the head is found anew. Every other step is silent
in this respect. An invariant of the engine is therefore shown for the moves once, and holds in
all runs.

An invariant has two parts: one that always holds, also where a handler stops halfway because of a
failure, and one that holds between the messages of a run without failures.

* `Engine.deliver`, `Engine.runFrom` — runs;
* `Engine.Invariant` — what has to be shown for the moves;
* `Invariant.handle`, `Invariant.runFrom` — what holds then for messages and for runs.
-/

namespace ForkChoice

/-- `A` holds of the engine in any case, and `S` unless it has failed. -/
def Run.Holds (A S : Engine → Prop) (run : Run) : Prop :=
  A run.engine ∧ (run.failure = none → S run.engine)

theorem Run.Holds.andThen {A S S' : Engine → Prop} {run : Run} {next : Engine → Run}
    (hRun : run.Holds A S) (hNext : ∀ e, A e → S e → (next e).Holds A S') :
    (run.andThen next).Holds A S' := by
  obtain ⟨e, failure⟩ := run
  cases failure with
  | none => exact hNext e hRun.1 (hRun.2 rfl)
  | some failure => exact ⟨hRun.1, fun h => absurd h (by simp [Run.andThen])⟩

theorem Run.Holds.mono {A S S' : Engine → Prop} {run : Run} (h : run.Holds A S)
    (hMono : ∀ e, S e → S' e) : run.Holds A S' :=
  ⟨h.1, fun hOk => hMono _ (h.2 hOk)⟩

/-- What goes on without a failure is what comes next. -/
theorem Run.andThen_of_ok {run : Run} {next : Engine → Run} (h : run.failure = none) :
    run.andThen next = next run.engine := by
  rw [Run.andThen, h]

/-- Two operations in a row do not fail if neither does. -/
theorem Run.andThen_ok {run : Run} {next : Engine → Run} (h : (run.andThen next).failure = none) :
    run.failure = none ∧ (next run.engine).failure = none := by
  cases hRun : run.failure with
  | none => exact ⟨rfl, by rwa [Run.andThen_of_ok hRun] at h⟩
  | some failure =>
    rw [Run.andThen, hRun] at h
    exact absurd (hRun.symm.trans h) (by simp)

/-- An operation on a draft that touches nothing but votes and the states at checkpoints. -/
def Change.OnlyVotes : Change → Prop
  | .tick _ => False
  | .block _ => False
  | .attestation _ _ => True
  | .discardVotes => True

namespace Engine

/-- Forgets the collected votes because of a justified checkpoint. -/
def forgetVotes (e : Engine) (checkpoint : Checkpoint) : Engine :=
  { e with tracker := { e.tracker with justified := checkpoint, votes := .empty } }

theorem delayOrRefuse_silent (e : Engine) (a : ReceivedAttestation) (reason : StoreError) :
    (e.delayOrRefuse a reason).store = e.store ∧
      (e.delayOrRefuse a reason).tracker = e.tracker := by
  unfold delayOrRefuse
  split <;> exact ⟨rfl, rfl⟩

theorem delayOrRefuseBlock_silent (e : Engine) (b : PendingBlock) (reason : StoreError) :
    (e.delayOrRefuseBlock b reason).store = e.store ∧
      (e.delayOrRefuseBlock b reason).tracker = e.tracker := by
  unfold delayOrRefuseBlock
  split
  · exact ⟨rfl, rfl⟩
  · split <;> exact ⟨rfl, rfl⟩
  · exact ⟨rfl, rfl⟩

theorem changeAll_onlyVotes [HashFunction] [SignatureScheme] {t : StateTransition} {d : Draft}
    {changes : List Change} (h : ∀ c ∈ changes, c.OnlyVotes) :
    StoreView.SameChain d.view (d.changeAll t changes).view := by
  unfold Draft.changeAll
  induction changes generalizing d with
  | nil => exact StoreView.SameChain.refl _
  | cons c rest ih =>
    rw [List.forall_mem_cons] at h
    have hFirst : StoreView.SameChain d.view (d.change t c).view := by
      cases c with
      | tick => exact absurd h.1 id
      | block => exact absurd h.1 id
      | attestation check a => exact d.attest_sameChain t check a
      | discardVotes => exact d.discardVotes_sameChain
    exact hFirst.trans (ih h.2)

/-! ## Runs -/

section

variable [HashFunction] [SignatureScheme] (t : StateTransition)

/-- Handles messages and bursts in order, until one fails. -/
def deliver (run : Run) (deliveries : List Delivery) : Run :=
  deliveries.foldl (fun run delivery => run.andThen fun e => e.handle t delivery) run

/-- Begins with a store and handles messages and bursts in order, until one fails. -/
def runFrom (s : Store) (deliveries : List Delivery) : Run :=
  deliver t (start s) deliveries

theorem deliver_append (run : Run) (deliveries deliveries' : List Delivery) :
    deliver t run (deliveries ++ deliveries') = deliver t (deliver t run deliveries) deliveries' :=
  List.foldl_append

/-- A run that has failed stays as it is. -/
theorem deliver_of_failed {run : Run} {failure : Failure StoreError}
    (h : run.failure = some failure) (deliveries : List Delivery) :
    deliver t run deliveries = run := by
  unfold deliver
  induction deliveries with
  | nil => rfl
  | cons delivery rest ih =>
    have hSame : (run.andThen fun e => e.handle t delivery) = run := by rw [Run.andThen, h]
    rw [List.foldl_cons, hSame]
    exact ih

/-- What has not failed in the end had not failed before. -/
theorem deliver_ok {run : Run} {deliveries : List Delivery}
    (h : (deliver t run deliveries).failure = none) : run.failure = none := by
  cases hFailure : run.failure with
  | none => rfl
  | some failure =>
    rw [deliver_of_failed t hFailure, hFailure] at h
    exact absurd h (by simp)

theorem runFrom_concat (s : Store) (deliveries : List Delivery) (delivery : Delivery) :
    runFrom t s (deliveries ++ [delivery]) =
      (runFrom t s deliveries).andThen fun e => e.handle t delivery :=
  deliver_append t (start s) deliveries [delivery]

/-- A run that has not failed in the end has not failed before. -/
theorem failure_take {s : Store} {deliveries : List Delivery}
    (hOk : (runFrom t s deliveries).failure = none) (n : Nat) :
    (runFrom t s (deliveries.take n)).failure = none := by
  rw [← List.take_append_drop n deliveries, runFrom, deliver_append] at hOk
  exact deliver_ok t hOk

end

/-! ## Invariants -/

/-- What has to be shown of an invariant: `A` holds always, and `S` between the messages of a run
without failures. -/
structure Invariant [HashFunction] [SignatureScheme] (t : StateTransition)
    (A S : Engine → Prop) : Prop where
  /-- Nothing depends on more than the store and the tracker. -/
  silent : ∀ e e' : Engine, e'.store = e.store → e'.tracker = e.tracker →
    (A e → A e') ∧ (S e → S e')
  publish : ∀ {e : Engine} (changes : List Change), A e →
    A (e.publish ((Draft.ofStore e.store).changeAll t changes))
  publishVotes : ∀ {e : Engine} {changes : List Change}, (∀ c ∈ changes, c.OnlyVotes) → A e →
    S e → S (e.publish ((Draft.ofStore e.store).changeAll t changes))
  recordVotes : ∀ {e : Engine} (votes : List Vote), A e → A (e.recordVotes votes)
  forgetVotes : ∀ {e : Engine} (checkpoint : Checkpoint), A e → A (e.forgetVotes checkpoint)
  updateHead : ∀ {e : Engine}, A e → e.updateHead.Holds A S

namespace Invariant

variable [HashFunction] [SignatureScheme] {t : StateTransition} {A S : Engine → Prop}
  {e : Engine}

theorem holds_of_silent (h : Invariant t A S) {e' : Engine} {failure : Option (Failure StoreError)}
    (hStore : e'.store = e.store) (hTracker : e'.tracker = e.tracker) (hA : A e) :
    Run.Holds A (fun e' => S e → S e') ⟨e', failure⟩ :=
  ⟨(h.silent e e' hStore hTracker).1 hA, fun _ => (h.silent e e' hStore hTracker).2⟩

/-- What waits does not matter, nor what has been told. -/
theorem of_waiting (h : Invariant t A S) (waiting : Waiting) :
    (A e → A { e with waiting := waiting }) ∧ (S e → S { e with waiting := waiting }) :=
  h.silent e _ rfl rfl

theorem of_notify (h : Invariant t A S) (notice : Notice) :
    (A e → A (e.notify notice)) ∧ (S e → S (e.notify notice)) :=
  h.silent e _ rfl rfl

/-! ### The head -/

/-- A justified checkpoint changes nothing, or else it leads to a new head and to a draft that
forgets the votes of the store. -/
theorem adoptJustified (h : Invariant t A S) (checkpoint : Checkpoint) (hA : A e) :
    (e.adoptJustified checkpoint).Holds A fun e' => S e → S e' := by
  unfold Engine.adoptJustified HeadTracker.onJustified
  split
  · -- The tracker does not change, so the votes of the store stay.
    have hSame : followTracker e.tracker.justified { e with tracker := e.tracker } = e := if_pos rfl
    show Run.Holds A _ ⟨followTracker e.tracker.justified { e with tracker := e.tracker }, none⟩
    rw [hSame]
    exact ⟨hA, fun _ hS => hS⟩
  · have hHead : (e.forgetVotes checkpoint).updateHead.Holds A S :=
      h.updateHead (h.forgetVotes checkpoint hA)
    -- The head is new already when the votes of the store are forgotten.
    refine Run.Holds.mono (Run.Holds.andThen hHead ?_) fun _ hS _ => hS
    intro e' hA' hS'
    unfold followTracker
    split
    · exact ⟨hA', fun _ => hS'⟩
    · have hVotes : ∀ c ∈ [Change.discardVotes], c.OnlyVotes := by simp [Change.OnlyVotes]
      exact ⟨h.publish [.discardVotes] hA', fun _ => h.publishVotes hVotes hA' hS'⟩

theorem refreshHead (h : Invariant t A S) (hA : A e) : e.refreshHead.Holds A S :=
  (h.adoptJustified e.store.justified hA).andThen fun _ hA' _ => h.updateHead hA'

/-! ### Attestations -/

/-- A burst that is being applied: its draft has changed nothing but votes, and the engine has
done nothing that counts. -/
structure Bursting (t : StateTransition) (e : Engine) (b : BurstProgress) : Prop where
  store_eq : b.engine.store = e.store
  tracker_eq : b.engine.tracker = e.tracker
  draft : ∃ changes : List Change, (∀ c ∈ changes, c.OnlyVotes) ∧
    b.draft = (Draft.ofStore e.store).changeAll t changes

theorem Bursting.attest {b : BurstProgress} (hb : Bursting t e b) (a : ReceivedAttestation) :
    Bursting t e (Engine.attest t b a) := by
  obtain ⟨hStore, hTracker, changes, hVotes, hDraft⟩ := hb
  have hNext : ∃ changes : List Change, (∀ c ∈ changes, c.OnlyVotes) ∧
      (b.draft.attest t .skip a.attestation).2 =
        (Draft.ofStore e.store).changeAll t changes := by
    refine ⟨changes ++ [.attestation .skip a.attestation], ?_, ?_⟩
    · intro c hc
      rcases List.mem_append.mp hc with hc | hc
      · exact hVotes c hc
      · rw [List.mem_singleton.mp hc]
        exact trivial
    · rw [Draft.changeAll, List.foldl_append, hDraft]
      rfl
  unfold Engine.attest
  split
  · exact ⟨hStore, hTracker, changes, hVotes, hDraft⟩
  · split <;> rename_i hAttest <;> rw [hAttest] at hNext
    · exact ⟨hStore, hTracker, hNext⟩
    · obtain ⟨hSameStore, hSameTracker⟩ := delayOrRefuse_silent b.engine a _
      exact ⟨hSameStore.trans hStore, hSameTracker.trans hTracker, hNext⟩
    · exact ⟨hStore, hTracker, hNext⟩

theorem bursting_foldl {b : BurstProgress} (hb : Bursting t e b)
    (attestations : List ReceivedAttestation) :
    Bursting t e (attestations.foldl (Engine.attest t) b) := by
  induction attestations generalizing b with
  | nil => exact hb
  | cons a rest ih => exact ih (hb.attest a)

theorem finishBurst (h : Invariant t A S) {b : BurstProgress} (hb : Bursting t e b) (hA : A e) :
    (Engine.finishBurst b).Holds A fun e' => S e → S e' := by
  obtain ⟨hStore, hTracker, changes, hVotes, hDraft⟩ := hb
  unfold Engine.finishBurst
  split
  · exact h.holds_of_silent hStore hTracker hA
  · -- The draft began with the store of the engine, and it has changed votes alone.
    have hSilent := h.silent e b.engine hStore hTracker
    have hPublished : A (b.engine.publish b.draft) := by
      have hBurst := h.publish changes (hSilent.1 hA)
      rwa [hStore, ← hDraft] at hBurst
    dsimp only
    -- Without votes for the tracker the head is not looked for, and need not be.
    split
    · refine ⟨hPublished, fun _ hS => ?_⟩
      have hBurst := h.publishVotes hVotes (hSilent.1 hA) (hSilent.2 hS)
      rwa [hStore, ← hDraft] at hBurst
    · exact (h.updateHead (h.recordVotes b.votes hPublished)).mono fun _ hS _ => hS

theorem processAttestations (h : Invariant t A S) (attestations : List ReceivedAttestation)
    (hA : A e) : (e.processAttestations t attestations).Holds A fun e' => S e → S e' := by
  unfold Engine.processAttestations
  split
  · exact ⟨hA, fun _ hS => hS⟩
  · refine h.finishBurst (bursting_foldl ?_ _) hA
    exact ⟨rfl, rfl, [], by simp, rfl⟩

/-! ### Blocks -/

theorem onBlock_cases (h : Invariant t A S) (block : Block) (votes : List Vote) (hA : A e) :
    A { e with tracker := (e.tracker.onBlock e.store.view block votes).2 } := by
  unfold HeadTracker.onBlock
  split
  · exact h.recordVotes votes hA
  · exact hA

theorem afterImport (h : Invariant t A S) (root : Root) (block : Block) (hA : A e) :
    (e.afterImport root block).Holds A S := by
  unfold Engine.afterImport
  split
  · exact ⟨hA, fun hOk => absurd hOk (by simp)⟩
  · split
    · exact ⟨hA, fun hOk => absurd hOk (by simp)⟩
    · rename_i votes _
      exact h.refreshHead (h.onBlock_cases block votes hA)

theorem releaseAttestations (h : Invariant t A S) (root : Root) (hA : A e) :
    (e.releaseAttestations t root).Holds A fun e' => S e → S e' := by
  have hWaiting := h.of_waiting (e := e) (e.waiting.takeUntilBlock root).2
  exact (h.processAttestations _ (hWaiting.1 hA)).mono fun _ hKeeps hS => hKeeps (hWaiting.2 hS)

/-- Whatever has changed before a block is settled, the head is right afterwards. -/
theorem settleImport (h : Invariant t A S) (root : Root) (block : Block) (hA : A e) :
    (e.settleImport t root block).run.Holds A S := by
  have hImport : ((e.afterImport root block).andThen fun e =>
      ⟨e.notify (.blockImported root), none⟩).Holds A S := by
    refine (h.afterImport root block hA).andThen fun e' hA' hS' => ?_
    have hNotified := h.of_notify (e := e') (.blockImported root)
    exact ⟨hNotified.1 hA', fun _ => hNotified.2 hS'⟩
  unfold Engine.settleImport
  dsimp only
  split
  · exact hImport
  · rename_i hOk
    generalize ((e.afterImport root block).andThen fun e =>
      ⟨e.notify (.blockImported root), none⟩) = run at hImport hOk ⊢
    have hWaiting := h.of_waiting (e := run.engine) (run.engine.waiting.takeUntilParent root).2
    exact (h.releaseAttestations root (hWaiting.1 hImport.1)).mono
      fun _ hKeeps => hKeeps (hWaiting.2 (hImport.2 hOk))

theorem importBlock (h : Invariant t A S) (b : PendingBlock) (hA : A e) :
    (e.importBlock t b).run.Holds A fun e' => S e → S e' := by
  unfold Engine.importBlock
  split
  · rename_i root d hImported
    have hDraft : d = (Draft.ofStore e.store).changeAll t [.block b.block] := by
      rw [show (Draft.ofStore e.store).changeAll t [.block b.block] =
        ((Draft.ofStore e.store).importBlock t b.block).2 from rfl, hImported]
    have hPublished : A (e.publish d) := hDraft ▸ h.publish [.block b.block] hA
    -- The tree has changed, so the head is not current before the block is settled.
    have hRecorded : A ((e.publish d).record (.blockImported b.block)) :=
      (h.silent (e.publish d) ((e.publish d).record _) rfl rfl).1 hPublished
    exact (h.settleImport root b.block hRecorded).mono fun _ hS _ => hS
  · exact h.holds_of_silent rfl rfl hA
  · rename_i reason d _
    obtain ⟨hStore, hTracker⟩ := delayOrRefuseBlock_silent (e.abandon d) b reason
    exact h.holds_of_silent hStore hTracker hA
  · exact h.holds_of_silent rfl rfl hA

theorem blocksFrom (h : Invariant t A S) {fuel : Nat} {queue : List PendingBlock} (hA : A e)
    (hS : S e) : (Engine.blocksFrom t fuel queue e).Holds A S := by
  induction fuel generalizing queue e with
  | zero =>
    cases queue with
    | nil => exact ⟨hA, fun _ => hS⟩
    | cons b queue => exact ⟨hA, fun hOk => absurd hOk (by simp [Engine.blocksFrom])⟩
  | succ fuel ih =>
    cases queue with
    | nil => exact ⟨hA, fun _ => hS⟩
    | cons b queue =>
      rw [Engine.blocksFrom]
      exact (h.importBlock b hA).andThen fun e' hA' hKeeps => ih hA' (hKeeps hS)

theorem processBlocks (h : Invariant t A S) (queue : List PendingBlock) (hA : A e) (hS : S e) :
    (e.processBlocks t queue).Holds A S :=
  h.blocksFrom hA hS

/-! ### Messages -/

theorem announceSlot (h : Invariant t A S) (previous current : Slot) (hA : A e) (hS : S e) :
    Run.Holds A S ⟨e.announceSlot previous current, none⟩ := by
  have hNotified := h.of_notify (e := e) (.slotBegan current)
  unfold Engine.announceSlot
  split
  · exact ⟨hNotified.1 hA, fun _ => hNotified.2 hS⟩
  · exact ⟨hA, fun _ => hS⟩

theorem releaseBlocks (h : Invariant t A S) (slot : Slot) (hA : A e) (hS : S e) :
    (e.releaseBlocks t slot).Holds A S := by
  have hWaiting := h.of_waiting (e := e) (e.waiting.takeUntilSlot slot).2
  exact h.processBlocks _ (hWaiting.1 hA) (hWaiting.2 hS)

theorem releaseUntilTick (h : Invariant t A S) (hA : A e) (hS : S e) :
    (e.releaseUntilTick t).Holds A S := by
  have hWaiting := h.of_waiting (e := e) e.waiting.takeUntilTick.2
  exact (h.processAttestations _ (hWaiting.1 hA)).mono fun _ hKeeps => hKeeps (hWaiting.2 hS)

theorem handleTick (h : Invariant t A S) (time : UInt64) (hA : A e) :
    (e.handleTick t time).Holds A S := by
  -- A tick may change the justified checkpoint, so only `A` is left until the head is refreshed.
  have hTicked : A (e.publish ((Draft.ofStore e.store).tick time)) := h.publish [.tick time] hA
  let previous := e.store.view.currentSlot
  let current := (e.publish ((Draft.ofStore e.store).tick time)).store.view.currentSlot
  have hAnnounced := (h.refreshHead hTicked).andThen fun _ hA' hS' =>
    h.announceSlot previous current hA' hS'
  have hBlocks := hAnnounced.andThen fun _ hA' hS' => h.releaseBlocks current hA' hS'
  exact hBlocks.andThen fun _ hA' hS' => h.releaseUntilTick hA' hS'

/-- One message. -/
theorem handle (h : Invariant t A S) (delivery : Delivery) (hA : A e) (hS : S e) :
    (e.handle t delivery).Holds A S := by
  cases delivery with
  | tick time => exact h.handleTick time hA
  | block block => exact h.processBlocks _ hA hS
  | burst attestations =>
    exact (h.processAttestations attestations hA).mono fun _ hKeeps => hKeeps hS
  | justified checkpoint =>
    exact (h.adoptJustified checkpoint hA).mono fun _ hKeeps => hKeeps hS

theorem deliver (h : Invariant t A S) {run : Run} (hRun : run.Holds A S)
    (deliveries : List Delivery) : (Engine.deliver t run deliveries).Holds A S := by
  unfold Engine.deliver
  induction deliveries generalizing run with
  | nil => exact hRun
  | cons delivery rest ih => exact ih (hRun.andThen fun e hA hS => h.handle delivery hA hS)

/-- **Runs.** An invariant that holds of an engine that has done nothing yet holds in every
run. -/
theorem runFrom (h : Invariant t A S) {s : Store} (hA : A { store := s })
    (deliveries : List Delivery) : (Engine.runFrom t s deliveries).Holds A S :=
  h.deliver (h.refreshHead hA) deliveries

end Invariant

end Engine

end ForkChoice
