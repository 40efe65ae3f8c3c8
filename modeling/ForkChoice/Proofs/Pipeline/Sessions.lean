import ForkChoice.Pipeline.Node
import ForkChoice.Proofs.Engine.Notices
import ForkChoice.Proofs.Pipeline.Schedule

/-!
# ForkChoice — the sessions of a node

A node does all that can be done after each request before it looks at the next one, and some checks
of signatures at last. The threads can do the same in the same order: when the node is at rest, so
are they, and what it does next can be put together from their steps. What holds of everything that
the threads can do therefore holds of a node.

Two things differ. The node keeps the batches of signatures that are being checked, while for the
threads these attestations are still in the channel; and the node puts no bound on what is on the
way, so the channels have to hold as many attestations as may be submitted.

* `Request`, `Node.serve` — what a node is asked for;
* `System.Mirrors` — the threads are where the node is, `System.Rests` — and both are at rest;
* `Mirrors.drain`, `Mirrors.concludeNext`, `Mirrors.readNotices`, `Mirrors.verifyPending` — parts of
  what the node does, `Mirrors.settle` — all of it;
* `Rests.tell`, `Rests.submit`, `Rests.close` — a request, and the end;
* `exists_run_of_session` — whole sessions.
-/

namespace ForkChoice

variable [SignatureScheme]

/-! ## The node -/

/-- What a node is asked for. -/
inductive Request where
  /-- The engine is told something. -/
  | tell (message : Message)
  /-- An attestation is submitted. -/
  | submit (a : Attestation) (origin : AttestationOrigin)

namespace Node

/-- A node that has done nothing yet but find the head. -/
def start [HashFunction] (s : Store) (limits : WindowLimits) (poolSize overlap : Nat) : Node where
  run := Engine.start s
  pipeline := { limits := limits, pool := { capacity := poolSize }, overlap := overlap }

/-- Does what the node is asked for. -/
def serve [HashFunction] (t : StateTransition) (n : Node) : Request → Node
  | .tell message => n.tell t message
  | .submit a origin => n.submit t a origin

variable {n : Node}

/-- If nothing went wrong, the pipeline has been changed. -/
theorem withPipeline_ok {change : Pipeline → Checked Pipeline}
    (h : (n.withPipeline change).fault = none) : n.fault = none ∧
      ∃ pipeline, change n.pipeline = .ok pipeline ∧
        n.withPipeline change = { n with pipeline := pipeline } := by
  unfold withPipeline at h ⊢
  split at h
  · rename_i hFault
    rw [hFault] at h
    cases h
  · rename_i hFault
    split at h
    · rename_i pipeline hChange
      exact ⟨hFault, pipeline, hChange, rfl⟩
    · cases h

theorem submitted_withPipeline (n : Node) (change : Pipeline → Checked Pipeline) :
    (n.withPipeline change).submitted = n.submitted := by
  unfold withPipeline
  split
  · rfl
  · split <;> rfl

/-- Taking note of the news changes nothing but the pipeline. -/
theorem readNotices_kept : n.readNotices.fault = n.fault ∧ n.readNotices.run = n.run ∧
    n.readNotices.closed = n.closed := by
  unfold readNotices withPipeline
  split <;> simp_all

/-- The end of a check of signatures leaves the batches and the window as they are. -/
theorem conclude_kept [HashFunction] (t : StateTransition) (count : Nat) (n : Node) :
    (n.conclude t count).fault = n.fault ∧ (n.conclude t count).closed = n.closed ∧
      (n.conclude t count).pipeline.batches = n.pipeline.batches ∧
        (n.conclude t count).pipeline.window = n.pipeline.window := by
  induction count generalizing n with
  | zero => exact ⟨rfl, rfl, rfl, rfl⟩
  | succ count ih =>
    have hFirst : n.pipeline.concludeNext.batches = n.pipeline.batches ∧
        n.pipeline.concludeNext.window = n.pipeline.window := by
      unfold Pipeline.concludeNext
      split
      · exact ⟨rfl, rfl⟩
      · rw [Pipeline.foldl_conclude]
        exact ⟨rfl, rfl⟩
    obtain ⟨hFault, hClosed, hBatches, hWindow⟩ := ih (n.concludeNext t)
    exact ⟨hFault, hClosed, hBatches.trans hFirst.1, hWindow.trans hFirst.2⟩

theorem submitted_conclude [HashFunction] (t : StateTransition) (count : Nat) (n : Node) :
    (n.conclude t count).submitted = n.submitted := by
  induction count generalizing n with
  | zero => rfl
  | succ count ih => exact ih (n.concludeNext t)

theorem running_concludeNext [HashFunction] (t : StateTransition) (n : Node) :
    (n.concludeNext t).pipeline.running = n.pipeline.running.tail := by
  unfold concludeNext Pipeline.concludeNext
  split
  · rename_i hNone
    rw [hNone]
    exact hNone
  · rename_i hSome
    rw [hSome, Pipeline.foldl_conclude]
    rfl

theorem running_conclude [HashFunction] (t : StateTransition) (count : Nat) (n : Node) :
    (n.conclude t count).pipeline.running = n.pipeline.running.drop count := by
  induction count generalizing n with
  | zero => rfl
  | succ count ih => rw [conclude, ih, running_concludeNext, List.drop_tail]

/-- The node with one more check, in place of what has been in the window. -/
def withLast (n : Node) (check : RunningCheck) : Node :=
  { n with pipeline := { n.pipeline with
    window := {}, running := n.pipeline.running ++ [check] } }

/-- The checks that began before end in the same way. -/
theorem conclude_withLast [HashFunction] (t : StateTransition) (n : Node) (check : RunningCheck) :
    (n.withLast check).conclude t (n.pipeline.running.length + 1) =
      ((n.conclude t n.pipeline.running.length).withLast check).concludeNext t := by
  generalize hCount : n.pipeline.running.length = count
  induction count generalizing n with
  | zero => rfl
  | succ count ih =>
    have hFirst : (n.withLast check).concludeNext t = (n.concludeNext t).withLast check := by
      cases hRunning : n.pipeline.running with
      | nil =>
        rw [hRunning] at hCount
        cases hCount
      | cons first others =>
        simp [withLast, concludeNext, Pipeline.concludeNext, hRunning, Pipeline.foldl_conclude,
          deliver]
    have hLess : (n.concludeNext t).pipeline.running.length = count := by
      rw [running_concludeNext, List.length_tail, hCount, Nat.add_sub_cancel]
    rw [conclude, hFirst, ih _ hLess]
    rfl

/-- If nothing went wrong, all batches have been checked, and then some checks of signatures have
ended. -/
theorem settle_ok [HashFunction] {t : StateTransition} (h : (n.settle t).fault = none) :
    n.fault = none ∧ ∃ pipeline,
      n.readNotices.pipeline.verifyPending t n.readNotices.run.engine.store.view 0 = .ok pipeline ∧
        n.settle t = { n.readNotices with pipeline := pipeline }.conclude t pipeline.due := by
  unfold settle at h ⊢
  dsimp only at h ⊢
  rw [(conclude_kept t _ _).1] at h
  obtain ⟨hFault, pipeline, hVerified, hNode⟩ := withPipeline_ok h
  obtain ⟨hSame, hRun, -⟩ := readNotices_kept (n := n)
  rw [hNode, hRun]
  exact ⟨hSame ▸ hFault, pipeline, hVerified, rfl⟩

theorem submitted_settle [HashFunction] (t : StateTransition) (n : Node) :
    (n.settle t).submitted = n.submitted := by
  unfold settle
  rw [submitted_conclude, submitted_withPipeline]
  exact submitted_withPipeline n _

/-- Something that went wrong is not forgotten. -/
theorem fault_of_serve [HashFunction] {t : StateTransition} {request : Request}
    (h : (n.serve t request).fault = none) : n.fault = none := by
  cases request with
  | tell message =>
    rw [serve, tell] at h
    split at h
    · exact h
    · exact (settle_ok h).1
  | submit a origin => exact (withPipeline_ok (settle_ok h).1).1

theorem fault_of_serveAll [HashFunction] {t : StateTransition} {requests : List Request}
    (h : (requests.foldl (serve t) n).fault = none) : n.fault = none := by
  induction requests generalizing n with
  | nil => exact h
  | cons request rest ih => exact fault_of_serve (ih h)

/-- At most one attestation is numbered at a time. -/
theorem submitted_serve_le [HashFunction] (t : StateTransition) (n : Node) (request : Request) :
    (n.serve t request).submitted ≤ n.submitted + 1 := by
  cases request with
  | tell message =>
    rw [serve, tell]
    split
    · exact Nat.le_succ _
    · rw [submitted_settle]
      exact Nat.le_succ _
  | submit a origin =>
    rw [serve, submit, submitted_settle]
    exact Nat.le_refl _

end Node

/-! ## The threads -/

namespace System

/-- Between two requests the threads are where the node is. -/
structure Mirrors (sys : System) (n : Node) : Prop where
  run : sys.mutator.run = n.run
  idle : n.run.failure = none → sys.inbox.messages = [] ∧ sys.mutator.tasks = []
  read : sys.noticesRead = n.noticesRead
  news : n.noticesRead ≤ n.run.engine.notices.length
  pipeline : sys.pipeline = n.pipeline.front
  channel : sys.channel = n.pipeline.unchecked
  input : sys.input = []
  arrival : sys.nextArrival.toNat = n.submitted
  closed : sys.closed = n.closed
  signatures : sys.signatures = .collecting
  fits : n.pipeline.Fits n.submitted
  room : n.submitted ≤ sys.capacity

variable {t : StateTransition} {n : Node} {sys sys' : System}

theorem Mirrors.carrying_eq (h : sys.Mirrors n) : sys.carrying n.pipeline sys.states = sys := by
  rw [carrying, ← h.pipeline, ← h.channel]

section

variable [HashFunction]

/-- What has been told stays told. -/
theorem Reaches.notices_le (h : sys.Reaches t sys') :
    sys.mutator.notices.length ≤ sys'.mutator.notices.length := by
  obtain ⟨actions, hRun⟩ := h
  refine invariant (P := fun later => sys.mutator.notices.length ≤ later.mutator.notices.length)
    (Nat.le_refl _) (fun {later _ _} hStep hLe => Nat.le_trans hLe ?_) hRun
  cases hStep with
  | work => exact (Mutator.work_continues t later.mutator).notices_le
  | collect | expire | finish =>
    rw [flush_eq]
  | _ => exact Nat.le_refl _

namespace Mirrors

/-- The engine handles what it is told. -/
theorem drain (h : sys.Mirrors n) (messages : List Message) :
    ∃ sys', Reaches t { sys with
        inbox := { sys.inbox with queue := sys.inbox.queue ++ messages } } sys' ∧
      sys'.Mirrors { n with run := n.run.andThen (·.drain t messages) } ∧
        sys'.states = sys.states ∧ sys'.capacity = sys.capacity := by
  obtain ⟨inbox, mutator, hDrain, hRun, hIdle⟩ := reaches_drainAll (t := t) h.run h.idle messages
  have hNews : n.noticesRead ≤ mutator.run.engine.notices.length := by
    refine Nat.le_trans ?_ hDrain.notices_le
    rw [Mutator.notices, h.run]
    exact h.news
  rw [hRun] at hNews
  exact ⟨_, hDrain, { h with run := hRun, idle := hIdle, news := hNews }, rfl, rfl⟩

/-- **The check that began first** ends, and the engine is told of what is valid. -/
theorem concludeNext (h : sys.Mirrors n) {first : RunningCheck} {others : List RunningCheck}
    (hRunning : n.pipeline.running = first :: others) :
    ∃ sys', sys.Reaches t sys' ∧ sys'.Mirrors (n.concludeNext t) ∧ sys'.states = sys.states ∧
      sys'.capacity = sys.capacity := by
  let verdicts := verifySignatures first.batch
  let rest := others.flatMap (·.batch) ++ n.pipeline.window.buffer
  let events := n.pipeline.events ++ verdicts.map fun verdict =>
    ⟨.signature, verdict.attestation, verdict.rejection⟩
  have hFull : first.batch.length = n.pipeline.limits.fullSize :=
    h.fits.running first (hRunning ▸ List.mem_cons_self)
  have hUnchecked : n.pipeline.unchecked = first.batch ++ rest := by
    rw [Pipeline.unchecked, hRunning, List.flatMap_cons, List.append_assoc]
  have hItems : first.batch ≠ [] := by
    rw [← List.length_pos_iff, hFull]
    exact Nat.lt_of_lt_of_le Nat.zero_lt_one (Nat.le_max_left _ _)
  have hWindow : sys.pipeline.window = {} := by
    rw [h.pipeline]
    rfl
  let reported : System := { sys with
    channel := rest
    pipeline := { n.pipeline.front with events := events }
    signatures := .collecting
    told := sys.told ++ SignatureVerdict.valid verdicts }
  have hReported : sys.Reaches t { reported with
      inbox := { sys.inbox with
        queue := sys.inbox.queue ++ (SignatureVerdict.valid verdicts).map .attestation } } := by
    have hCollect := reaches_collect (t := t) h.signatures (h.channel.trans hUnchecked) hItems (by
      rw [hWindow, h.pipeline]
      exact (Nat.zero_add _).trans hFull)
    rw [hWindow] at hCollect
    have hOutbox : sys.pipeline.outbox = [] := by
      rw [h.pipeline]
      exact h.fits.outbox
    have hConclude := hCollect.trans (reaches_conclude rfl hOutbox)
    rw [h.pipeline] at hConclude
    exact hConclude
  have hMirrors : reported.Mirrors { n with
      pipeline := { n.pipeline with running := others, events := events } } := by
    refine { h with pipeline := rfl, channel := rfl, signatures := rfl, fits := ⟨?_, ?_, ?_, ?_⟩ }
    · have hLoad := h.fits.load
      rw [hUnchecked, List.length_append] at hLoad
      show rest.length + n.pipeline.batches.attestations.length + _ ≤ _
      dsimp only
      omega
    · exact fun c hc => h.fits.running c (hRunning ▸ List.mem_cons_of_mem _ hc)
    · exact h.fits.window
    · exact h.fits.outbox
  obtain ⟨sys', hDrain, hDrained, hStates, hCapacity⟩ := hMirrors.drain (t := t)
    ((SignatureVerdict.valid verdicts).map .attestation)
  refine ⟨sys', hReported.trans hDrain, ?_, hStates, hCapacity⟩
  have hNode : n.concludeNext t = { n with
      run := n.run.andThen (·.drain t ((SignatureVerdict.valid verdicts).map .attestation))
      pipeline := { n.pipeline with running := others, events := events } } := by
    simp only [Node.concludeNext, Pipeline.concludeNext, hRunning, Pipeline.foldl_conclude,
      Node.deliver, h.fits.outbox, List.nil_append]
    rfl
  rw [hNode]
  exact hDrained

/-- Checks of signatures end one after another. -/
theorem conclude (h : sys.Mirrors n) {count : Nat} (hCount : count ≤ n.pipeline.running.length) :
    ∃ sys', sys.Reaches t sys' ∧ sys'.Mirrors (n.conclude t count) ∧ sys'.states = sys.states ∧
      sys'.capacity = sys.capacity := by
  induction count generalizing n sys with
  | zero => exact ⟨sys, .refl _, h, rfl, rfl⟩
  | succ count ih =>
    cases hRunning : n.pipeline.running with
    | nil =>
      rw [hRunning] at hCount
      exact absurd hCount (Nat.not_succ_le_zero _)
    | cons first others =>
      obtain ⟨sys', hFirst, hMirrors, hStates, hCapacity⟩ := h.concludeNext (t := t) hRunning
      have hOthers : (n.concludeNext t).pipeline.running = others := by
        simp [Node.concludeNext, Pipeline.concludeNext, hRunning, Pipeline.foldl_conclude,
          Node.deliver]
      rw [hRunning, List.length_cons] at hCount
      obtain ⟨sys'', hRest, hEnd, hStates', hCapacity'⟩ := ih hMirrors
        (hOthers ▸ Nat.le_of_succ_le_succ hCount)
      exact ⟨sys'', hFirst.trans hRest, hEnd, hStates'.trans hStates, hCapacity'.trans hCapacity⟩

/-- All news are taken note of. -/
theorem readNotices (h : sys.Mirrors n) (hTakes : sys.takes = true) (hFault : n.fault = none) :
    ∃ sys', sys.Reaches t sys' ∧ sys'.Mirrors n.readNotices ∧ sys'.capacity = sys.capacity ∧
      (sys'.states = .draining ∨
        sys'.states = sys.states ∧ n.readNotices.pipeline = n.pipeline) := by
  let news := n.run.engine.notices.drop n.noticesRead
  let preset := n.run.engine.store.preset
  have hNews : sys.mutator.notices.drop sys.noticesRead = news := by
    rw [h.read, Mutator.notices, h.run]
  have hPreset : sys.view.preset = preset := by
    rw [view, Mutator.view, h.run]
    rfl
  have hRead : sys.noticesRead + news.length = n.run.engine.notices.length := by
    rw [h.read, List.length_drop]
    exact Nat.add_sub_cancel' h.news
  have hNode : n.readNotices = { n with
      pipeline := news.foldl (Pipeline.handleNotice preset) n.pipeline
      noticesRead := n.run.engine.notices.length } := by
    simp only [Node.readNotices, Node.withPipeline, hFault]
    rfl
  obtain ⟨hFront, hUnchecked⟩ := Pipeline.foldl_handleNotice preset news n.pipeline
  refine ⟨_, reaches_hear hTakes hNews, ?_, rfl, ?_⟩
  · rw [hNode, hPreset, h.pipeline]
    exact { h with
      read := hRead
      news := Nat.le_refl _
      pipeline := hFront.symm
      channel := h.channel.trans hUnchecked.symm
      fits := h.fits.handleNotices preset news }
  · rw [hNode]
    by_cases hNone : news = []
    · rw [if_pos hNone, hNone]
      exact Or.inr ⟨rfl, rfl⟩
    · rw [if_neg hNone]
      exact Or.inl rfl

/-- All batches are checked. -/
theorem verifyPending (h : sys.Mirrors n) (hStates : sys.states = .draining)
    {pipeline : Pipeline}
    (hVerified : n.pipeline.verifyPending t n.run.engine.store.view 0 = .ok pipeline) :
    ∃ sys', sys.Reaches t sys' ∧ sys'.Mirrors { n with pipeline := pipeline } ∧
      sys'.capacity = sys.capacity ∧ sys'.states = .waiting := by
  have hView : sys.view = n.run.engine.store.view := by
    rw [view, Mutator.view, h.run]
  have hFits := h.fits.verifyPending hVerified
  rw [← hView] at hVerified
  have hPause : sys.Reaches t (sys.carrying n.pipeline .verifying) := by
    refine .act .pause ?_
    rw [← h.carrying_eq, hStates]
    rfl
  have hIdle : (sys.carrying pipeline .verifying).Reaches t (sys.carrying pipeline .waiting) := by
    refine .act .take ?_
    have hNone : pipeline.front.batches.take? = none := by
      show pipeline.batches.take? = none
      exact BatchQueue.take?_eq_none (Pipeline.batches_verifyPending hVerified)
    simp only [act, take, carrying, hNone]
  exact ⟨_, (hPause.trans (reaches_verifyBatches 0 hVerified h.fits h.room)).trans hIdle,
    { h with pipeline := rfl, channel := rfl, fits := hFits }, rfl, rfl⟩

end Mirrors

/-! ## Requests -/

/-- Between two requests both the node and the threads are at rest. -/
structure Rests (sys : System) (n : Node) : Prop extends sys.Mirrors n where
  waiting : sys.states = .waiting
  batches : n.pipeline.batches.all = []
  opened : n.closed = false

/-- **Everything that can go on** goes on. -/
theorem Mirrors.settle (h : sys.Mirrors n)
    (hReady : sys.states = .draining ∨ sys.states = .waiting ∧ n.pipeline.batches.all = [])
    (hOpen : n.closed = false) (hFault : (n.settle t).fault = none) :
    ∃ sys', sys.Reaches t sys' ∧ sys'.Rests (n.settle t) ∧ sys'.capacity = sys.capacity := by
  obtain ⟨hBefore, pipeline, hVerified, hNode⟩ := Node.settle_ok hFault
  rw [hNode]
  have hTakes : sys.takes = true := takes_iff.mpr (hReady.symm.imp_left And.left)
  obtain ⟨sys₁, hHear, hHeard, hCapacity₁, hStates₁⟩ := h.readNotices (t := t) hTakes hBefore
  have hPending : ∃ sys₂, sys₁.Reaches t sys₂ ∧
      sys₂.Mirrors { n.readNotices with pipeline := pipeline } ∧
        sys₂.capacity = sys₁.capacity ∧ sys₂.states = .waiting := by
    rcases hStates₁ with hDraining | ⟨hSame, hPipeline⟩
    · exact hHeard.verifyPending hDraining hVerified
    · rw [← hSame] at hReady
      rcases hReady with hDraining | ⟨hWaiting, hNone⟩
      · exact hHeard.verifyPending hDraining hVerified
      · -- There are no news and no batches.
        have hNothing : n.readNotices.pipeline = pipeline := by
          rw [Pipeline.verifyPending, BatchQueue.size_eq, hPipeline, hNone] at hVerified
          cases hVerified
          exact hPipeline
        exact ⟨sys₁, .refl _, hNothing ▸ hHeard, rfl, hWaiting⟩
  obtain ⟨sys₂, hVerify, hPassed, hCapacity₂, hStates₂⟩ := hPending
  have hDue : pipeline.due ≤ pipeline.running.length :=
    (List.takeWhile_sublist _).length_le
  obtain ⟨sys₃, hConclude, hConcluded, hStates₃, hCapacity₃⟩ := hPassed.conclude (t := t) hDue
  obtain ⟨-, hClosed, hBatches, -⟩ := Node.conclude_kept t pipeline.due
    { n.readNotices with pipeline := pipeline }
  refine ⟨sys₃, (hHear.trans hVerify).trans hConclude, { hConcluded with
    waiting := hStates₃.trans hStates₂, batches := ?_, opened := ?_ },
    (hCapacity₃.trans hCapacity₂).trans hCapacity₁⟩
  · rw [hBatches]
    exact Pipeline.batches_verifyPending hVerified
  · rw [hClosed]
    exact Node.readNotices_kept.2.2.trans hOpen

/-- **The engine is told** something. -/
theorem Rests.tell (h : sys.Rests n) (message : Message)
    (hFault : (n.tell t message).fault = none) :
    ∃ sys', sys.Reaches t sys' ∧ sys'.Rests (n.tell t message) ∧ sys'.capacity = sys.capacity := by
  unfold Node.tell at hFault ⊢
  rw [if_neg (by simp [h.opened])] at hFault ⊢
  obtain ⟨sys₁, hDrain, hTold, hStates, hCapacity⟩ := h.toMirrors.drain (t := t) [message]
  have hPost : sys.Reaches t (sys.post message) := .act (.message message) rfl
  obtain ⟨sys₂, hSettle, hRests, hCapacity'⟩ :=
    hTold.settle (Or.inr ⟨hStates.trans h.waiting, h.batches⟩) h.opened hFault
  exact ⟨sys₂, (hPost.trans hDrain).trans hSettle, hRests, hCapacity'.trans hCapacity⟩

/-- **An attestation is submitted.** -/
theorem Rests.submit (h : sys.Rests n) (a : Attestation) (origin : AttestationOrigin)
    (hNumber : n.submitted + 1 < UInt64.size) (hRoom : n.submitted + 1 ≤ sys.capacity)
    (hFault : (n.submit t a origin).fault = none) :
    ∃ sys', sys.Reaches t sys' ∧ sys'.Rests (n.submit t a origin) ∧
      sys'.capacity = sys.capacity := by
  unfold Node.submit at hFault ⊢
  let received : ReceivedAttestation := ⟨a, origin, sys.nextArrival⟩
  have hReceived : (⟨a, origin, UInt64.ofNat n.submitted⟩ : ReceivedAttestation) = received := by
    rw [← h.arrival, UInt64.ofNat_toNat]
  obtain ⟨-, pipeline, hIngest, hNode⟩ := Node.withPipeline_ok (Node.settle_ok hFault).1
  have hView : n.run.engine.store.view = sys.view := by
    rw [view, Mutator.view, h.run]
  rw [hReceived, hView] at hIngest
  obtain ⟨hFront, hUnchecked⟩ := Pipeline.front_ingest hIngest
  have hNext : Word.add sys.nextArrival 1 = .ok (sys.nextArrival + 1) := by
    rw [Word.add_eq_ok, UInt64.toNat_add, h.arrival]
    exact (Nat.mod_eq_of_lt hNumber).symm
  have hArrival : (sys.nextArrival + 1).toNat = n.submitted + 1 := by
    rw [← Word.add_eq_ok.mp hNext, h.arrival]
    rfl
  let taken : System := { sys with
    nextArrival := sys.nextArrival + 1
    submitted := sys.submitted ++ [received] }
  have hSubmit : sys.Reaches t { taken with input := [received] } := by
    have hFits : ¬ sys.capacity ≤ 0 := by omega
    refine .act (.submit a origin) ?_
    simp [act, System.submit, h.closed, h.opened, h.input, hFits, hNext, taken, received]
  have hLoad : Reaches t { taken with input := [received] }
      { taken with states := .entering received sys.view } := by
    refine .act .load ?_
    simp [act, load, takes, taken, h.waiting, h.input]
    rfl
  have hEnter : Reaches t { taken with states := .entering received sys.view }
      { taken with pipeline := pipeline.front, states := .draining } := by
    refine .act .enter ?_
    have hPipeline : taken.pipeline = n.pipeline.front := h.pipeline
    simp only [act, System.enter, hPipeline, hFront]
  have hEntered : Mirrors { taken with pipeline := pipeline.front, states := .draining }
      (n.enter a origin) := by
    rw [Node.enter, hNode]
    exact { h.toMirrors with
      pipeline := rfl
      channel := h.channel.trans hUnchecked.symm
      arrival := hArrival
      fits := h.fits.ingest hIngest
      room := hRoom }
  have hOpen : (n.enter a origin).closed = false := by
    rw [Node.enter, hNode]
    exact h.opened
  obtain ⟨sys', hSettle, hRests, hCapacity⟩ := hEntered.settle (Or.inl rfl) hOpen hFault
  exact ⟨sys', ((hSubmit.trans hLoad).trans hEnter).trans hSettle, hRests, hCapacity⟩

/-- **No more attestations come.** The threads end when the node has closed. -/
theorem Rests.close (h : sys.Rests n) :
    ∃ sys', sys.Reaches t sys' ∧ sys'.Joined ∧ sys'.mutator.run = (n.close t).run ∧
      sys'.pipeline.events = (n.close t).pipeline.events ∧
        sys'.pipeline.pool = (n.close t).pipeline.pool := by
  let ended : System := { sys with closed := true, states := .ended }
  have hLeave : sys.Reaches t ended := by
    refine (Reaches.act .close rfl).trans (.act .leave ?_)
    simp [act, leave, h.waiting, h.input, ended]
  have hEnded : ended.Mirrors { n with closed := true } := { h.toMirrors with closed := rfl }
  obtain ⟨sys₁, hConclude, hConcluded, hStates, -⟩ := hEnded.conclude (t := t)
    (Nat.le_refl n.pipeline.running.length)
  let settled := { n with closed := true }.conclude t n.pipeline.running.length
  have hConcluded : sys₁.Mirrors settled := hConcluded
  have hRunning : settled.pipeline.running = [] :=
    (Node.running_conclude t _ _).trans List.drop_length
  obtain ⟨-, hOpen, -, hWindow⟩ := Node.conclude_kept t n.pipeline.running.length
    { n with closed := true }
  have hWindow : settled.pipeline.window = n.pipeline.window := hWindow
  have hChannel : sys₁.channel = n.pipeline.window.buffer := by
    rw [hConcluded.channel, Pipeline.unchecked, hRunning, hWindow]
    rfl
  have hEmpty : sys₁.pipeline.window = {} := by
    rw [hConcluded.pipeline]
    rfl
  have hEvents : sys₁.pipeline.events = settled.pipeline.events := by
    rw [hConcluded.pipeline]
    rfl
  have hPool : sys₁.pipeline.pool = settled.pipeline.pool := by
    rw [hConcluded.pipeline]
    rfl
  have hClosed : sys₁.closed = true := hConcluded.closed.trans hOpen
  have hClose : n.close t = { n with pipeline := n.pipeline.close, closed := true }.conclude t
      n.pipeline.close.running.length := by
    rw [Node.close, if_neg (by simp [h.opened])]
  by_cases hBuffer : n.pipeline.window.buffer = []
  · have hSame : n.pipeline.close = n.pipeline := by
      rw [Pipeline.close, Window.close, hBuffer]
      rfl
    have hFinish : sys₁.act t .finish = some ({ sys₁ with signatures := .ended }.flush true
        (none, {})) := by
      have hPhase : sys₁.states = .ended := hStates
      simp only [act, finish, hConcluded.signatures, hChannel, hBuffer, hPhase, hEmpty]
      rfl
    rw [hClose, hSame]
    exact ⟨_, (hLeave.trans hConclude).trans (.act .finish hFinish), ⟨hClosed, hStates, rfl⟩,
      hConcluded.run, hEvents, hPool⟩
  · let verdicts := verifySignatures n.pipeline.window.buffer
    let events := settled.pipeline.events ++ verdicts.map fun verdict =>
      ⟨.signature, verdict.attestation, verdict.rejection⟩
    have hNode : n.close t = { settled with
        run := settled.run.andThen (·.drain t ((SignatureVerdict.valid verdicts).map .attestation))
        pipeline := { settled.pipeline with window := {}, running := [], events := events } } := by
      have hLast : n.pipeline.close = { n.pipeline with
          window := {}, running := n.pipeline.running ++ [⟨n.pipeline.window.buffer, 0⟩] } := by
        rw [Pipeline.close, Window.close, if_neg (by simpa using hBuffer)]
        rfl
      have hLength : n.pipeline.close.running.length = n.pipeline.running.length + 1 := by
        rw [hLast, List.length_append, List.length_singleton]
      rw [hClose, hLength, hLast]
      refine (Node.conclude_withLast t { n with closed := true } ⟨_, 0⟩).trans ?_
      show (settled.withLast _).concludeNext t = _
      simp only [Node.withLast, Node.concludeNext, Pipeline.concludeNext, hRunning,
        List.nil_append, Pipeline.foldl_conclude, Node.deliver, hConcluded.fits.outbox]
      rfl
    have hFew : sys₁.pipeline.window.buffer.length + n.pipeline.window.buffer.length <
        sys₁.pipeline.limits.fullSize := by
      rw [hEmpty, hConcluded.pipeline, ← hWindow]
      exact (Nat.zero_add _).symm ▸ hConcluded.fits.window
    obtain ⟨window, hCollect, hItems⟩ :=
      reaches_collect_few (t := t) hConcluded.signatures hChannel hFew
    rw [hEmpty] at hItems
    let collected : System := { sys₁ with
      channel := []
      pipeline := { sys₁.pipeline with window := window } }
    have hFinish : collected.Reaches t { sys₁ with
        channel := []
        pipeline := { sys₁.pipeline with window := {} }
        signatures := .concluding verdicts true } := by
      have hPhase : sys₁.states = .ended := hStates
      have hFull : window.close = (some n.pipeline.window.buffer, {}) := by
        rw [Window.close, hItems]
        exact if_neg (by simpa using hBuffer)
      refine .act .finish ?_
      simp only [act, finish, collected, hConcluded.signatures, hPhase, hFull]
      rfl
    have hOutbox : sys₁.pipeline.outbox = [] := by
      rw [hConcluded.pipeline]
      exact hConcluded.fits.outbox
    have hReported := (hCollect.trans hFinish).trans (reaches_conclude rfl hOutbox)
    let reported : System := { sys₁ with
      channel := []
      pipeline := { sys₁.pipeline with window := {}, events := events }
      signatures := .ended
      told := sys₁.told ++ SignatureVerdict.valid verdicts }
    obtain ⟨inbox, mutator, hDrain, hRun, -⟩ := reaches_drainAll (t := t)
      (show reported.mutator.run = settled.run from hConcluded.run) hConcluded.idle
      ((SignatureVerdict.valid verdicts).map .attestation)
    rw [hEvents] at hReported
    rw [hNode]
    exact ⟨_, ((hLeave.trans hConclude).trans hReported).trans hDrain, ⟨hClosed, hStates, rfl⟩,
      hRun, rfl, hPool⟩

theorem rests_start (s : Store) (limits : WindowLimits) (poolSize overlap capacity : Nat) :
    (System.start s limits poolSize capacity).Rests (Node.start s limits poolSize overlap) where
  run := rfl
  idle _ := ⟨rfl, rfl⟩
  read := rfl
  news := Nat.zero_le _
  pipeline := rfl
  channel := rfl
  input := rfl
  arrival := rfl
  closed := rfl
  signatures := rfl
  fits := ⟨Nat.zero_le _, fun _ hc => absurd hc List.not_mem_nil,
    Nat.lt_of_lt_of_le Nat.zero_lt_one (Nat.le_max_left _ _), rfl⟩
  room := Nat.zero_le _
  waiting := rfl
  batches := rfl
  opened := rfl

/-- Requests are served one after another. -/
theorem Rests.serveAll {requests : List Request} (h : sys.Rests n)
    (hNumber : n.submitted + requests.length < UInt64.size)
    (hRoom : n.submitted + requests.length ≤ sys.capacity)
    (hFault : (requests.foldl (Node.serve t) n).fault = none) :
    ∃ sys', sys.Reaches t sys' ∧ sys'.Rests (requests.foldl (Node.serve t) n) := by
  induction requests generalizing n sys with
  | nil => exact ⟨sys, .refl _, h⟩
  | cons request rest ih =>
    rw [List.length_cons] at hNumber hRoom
    have hServed : (n.serve t request).fault = none := Node.fault_of_serveAll hFault
    obtain ⟨sys₁, hFirst, hRests, hCapacity⟩ : ∃ sys₁, sys.Reaches t sys₁ ∧
        sys₁.Rests (n.serve t request) ∧ sys₁.capacity = sys.capacity := by
      cases request with
      | tell message => exact h.tell message hServed
      | submit a origin => exact h.submit a origin (by omega) (by omega) hServed
    have hNext := Node.submitted_serve_le t n request
    obtain ⟨sys₂, hRest, hEnd⟩ := ih hRests (by omega) (by omega) hFault
    exact ⟨sys₂, hFirst.trans hRest, hEnd⟩

/-- **Sessions.** What a node does in a session without faults, the threads can do: with channels
that hold enough attestations they end with the same engine, the same reports, and the same
attestations waiting for their blocks. -/
theorem exists_run_of_session {s : Store} {limits : WindowLimits} {poolSize overlap capacity : Nat}
    {requests : List Request} (hNumber : requests.length < UInt64.size)
    (hRoom : requests.length ≤ capacity)
    (hFault : (requests.foldl (Node.serve t)
      (Node.start s limits poolSize overlap)).fault = none) :
    ∃ actions sys, (System.start s limits poolSize capacity).run t actions = some sys ∧
      sys.Joined ∧
        let n := (requests.foldl (Node.serve t) (Node.start s limits poolSize overlap)).close t
        sys.mutator.run = n.run ∧ sys.pipeline.events = n.pipeline.events ∧
          sys.pipeline.pool = n.pipeline.pool := by
  have hStart := rests_start s limits poolSize overlap capacity
  obtain ⟨sys₁, hServe, hRests⟩ := hStart.serveAll
    ((Nat.zero_add requests.length).symm ▸ hNumber) ((Nat.zero_add requests.length).symm ▸ hRoom)
    hFault
  obtain ⟨sys₂, hClose, hJoined, hSame⟩ := hRests.close (t := t)
  obtain ⟨actions, hRun⟩ := hServe.trans hClose
  exact ⟨actions, sys₂, hRun, hJoined, hSame⟩

end

end System

end ForkChoice
