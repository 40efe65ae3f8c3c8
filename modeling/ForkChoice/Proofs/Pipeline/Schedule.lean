import ForkChoice.Pipeline.Node
import ForkChoice.Proofs.Engine.Notices
import ForkChoice.Proofs.Pipeline.Accounts
import ForkChoice.Proofs.Pipeline.Backlog

/-!
# ForkChoice — steps in a row

Steps of one thread that follow each other directly amount to what the engine or the pipeline does
at once: the engine drains its inbox, a batch is checked against its state and handed on,
attestations are collected until there are enough of them, and the verdicts on a batch are reported.

* `System.Reaches` — some steps lead from one to the other;
* `System.carrying` — the threads with a pipeline whose backlog is all in the channel;
* `reaches_drainAll` — messages are handled, `reaches_hear` — the news are taken note of;
* `reaches_verifyBatches` — batches are checked against their states;
* `reaches_collect`, `reaches_conclude` — signatures are checked.
-/

namespace ForkChoice

variable [SignatureScheme]

namespace System

section

variable [HashFunction]

/-- Some steps lead from one to the other. -/
def Reaches (t : StateTransition) (sys sys' : System) : Prop :=
  ∃ actions, sys.run t actions = some sys'

variable {t : StateTransition} {sys sys' sys'' : System} {action : Action} {p p' : Pipeline}

theorem Reaches.refl (sys : System) : sys.Reaches t sys :=
  ⟨[], rfl⟩

theorem Reaches.trans (h : sys.Reaches t sys') (h' : sys'.Reaches t sys'') :
    sys.Reaches t sys'' := by
  obtain ⟨actions, hRun⟩ := h
  obtain ⟨actions', hRun'⟩ := h'
  refine ⟨actions ++ actions', ?_⟩
  rw [run_append, hRun]
  exact hRun'

theorem Reaches.act (action : Action) (h : sys.act t action = some sys') : sys.Reaches t sys' :=
  ⟨[action], by rw [← List.nil_append [action], run_concat]; exact h⟩

/-! ## The engine -/

/-- The engine does some of its tasks. -/
theorem reaches_work (sys : System) {m m' : Mutator} (h : m.Reaches t m') :
    Reaches t { sys with mutator := m } { sys with mutator := m' } := by
  obtain ⟨count, rfl⟩ := h
  induction count generalizing m with
  | zero => exact .refl _
  | succ count ih =>
    rw [Function.iterate_succ_apply]
    have hFirst : Reaches t { sys with mutator := m } { sys with mutator := m.work t } :=
      .act .work rfl
    exact hFirst.trans ih

theorem reaches_drain (sys : System) (fuel : Nat) (inbox : Inbox) (e : Engine)
    (hFuel : inbox.size ≤ fuel) :
    ∃ inbox' tasks,
      Reaches t { sys with inbox := inbox, mutator := ⟨⟨e, none⟩, []⟩ }
        { sys with inbox := inbox', mutator := ⟨e.drainFrom t fuel inbox, tasks⟩ } ∧
      ((e.drainFrom t fuel inbox).failure = none → inbox'.messages = [] ∧ tasks = []) := by
  induction fuel generalizing inbox e with
  | zero =>
    rw [Inbox.size_eq, Nat.le_zero, List.length_eq_zero_iff] at hFuel
    exact ⟨inbox, [], .refl _, fun _ => ⟨hFuel, rfl⟩⟩
  | succ fuel ih =>
    rw [Engine.drainFrom]
    cases hNext : inbox.next? inbox.size with
    | none => exact ⟨inbox, [], .refl _, fun _ => ⟨Inbox.next?_eq_none hNext, rfl⟩⟩
    | some next =>
      obtain ⟨delivery, inbox'⟩ := next
      have hShorter : inbox'.size ≤ fuel := by
        have hLess := Inbox.size_lt_of_next? hNext
        omega
      have hReceive : Reaches t { sys with inbox := inbox, mutator := ⟨⟨e, none⟩, []⟩ }
          { sys with inbox := inbox', mutator := ⟨⟨e, none⟩, [delivery.task]⟩ } := by
        refine .act (.receive inbox.size) ?_
        simp [act, receive, hNext]
      obtain ⟨left, hDone, hLeft⟩ := Engine.handled_by_tasks t e delivery []
      have hHandled := hReceive.trans
        (reaches_work { sys with inbox := inbox' } hDone)
      dsimp only at hHandled ⊢
      rcases hRun : e.handle t delivery with ⟨e', failure⟩
      rw [hRun] at hHandled hLeft
      cases failure with
      | some failure => exact ⟨inbox', left, hHandled, fun hOk => by cases hOk⟩
      | none =>
        obtain ⟨inbox'', tasks, hRest, hEmpty⟩ := ih inbox' e' hShorter
        rw [hLeft rfl] at hHandled
        exact ⟨inbox'', tasks, hHandled.trans hRest, hEmpty⟩

/-- The engine handles messages unless it has failed. -/
theorem reaches_drainAll {run : Run} (hRun : sys.mutator.run = run)
    (hIdle : run.failure = none → sys.inbox.messages = [] ∧ sys.mutator.tasks = [])
    (messages : List Message) :
    ∃ inbox mutator, Reaches t { sys with
        inbox := { sys.inbox with queue := sys.inbox.queue ++ messages } }
      { sys with inbox := inbox, mutator := mutator } ∧
      mutator.run = run.andThen (·.drain t messages) ∧
        ((run.andThen (·.drain t messages)).failure = none →
          inbox.messages = [] ∧ mutator.tasks = []) := by
  obtain ⟨e, _ | failure⟩ := run
  · obtain ⟨hInbox, hTasks⟩ := hIdle rfl
    have hQueue : sys.inbox = {} := Inbox.eq_empty hInbox
    have hMutator : sys.mutator = ⟨⟨e, none⟩, []⟩ := by
      rw [← hRun, ← hTasks]
    obtain ⟨inbox, tasks, hDrain, hIdle⟩ := reaches_drain (t := t) sys messages.length
      { queue := messages } e (by simp [Inbox.size])
    refine ⟨inbox, ⟨e.drain t messages, tasks⟩, ?_, rfl, hIdle⟩
    rw [hQueue]
    rw [← hMutator] at hDrain
    exact hDrain
  · exact ⟨_, sys.mutator, .refl _, hRun, fun hOk => by cases hOk⟩

/-! ## The check against states -/

/-- All news are taken note of. -/
theorem reaches_hear {news : List Notice} (hTakes : sys.takes = true)
    (hNews : sys.mutator.notices.drop sys.noticesRead = news) :
    sys.Reaches t { sys with
      noticesRead := sys.noticesRead + news.length
      pipeline := news.foldl (Pipeline.handleNotice sys.view.preset) sys.pipeline
      states := if news = [] then sys.states else .draining } := by
  induction news generalizing sys with
  | nil => exact .refl _
  | cons notice rest ih =>
    have hFirst : sys.act t .hear = some { sys with
        noticesRead := sys.noticesRead + 1
        pipeline := sys.pipeline.handleNotice sys.view.preset notice
        states := .draining } := by
      have hNotice : sys.mutator.notices[sys.noticesRead]? = some notice := by
        rw [← Nat.add_zero sys.noticesRead, ← List.getElem?_drop, hNews]
        rfl
      simp only [act, hear, hTakes, hNotice, if_true]
    refine (Reaches.act _ hFirst).trans ?_
    have hLeft : sys.mutator.notices.drop (sys.noticesRead + 1) = rest := by
      rw [← List.drop_drop, hNews]
      rfl
    have hRest : Reaches t { sys with
        noticesRead := sys.noticesRead + 1
        pipeline := sys.pipeline.handleNotice sys.view.preset notice
        states := .draining } _ := ih rfl hLeft
    rw [ite_self, Nat.add_assoc, Nat.add_comm 1] at hRest
    rw [if_neg (List.cons_ne_nil notice rest)]
    exact hRest

/-- The threads with what a pipeline holds, and nothing collected in the window. -/
def carrying (sys : System) (p : Pipeline) (states : StatePhase) : System :=
  { sys with pipeline := p.front, channel := p.unchecked, states := states }

theorem reaches_report (now : Nat) {verdicts : List StateVerdict}
    (hRoom : p.unchecked.length + verdicts.length ≤ sys.capacity) :
    (sys.carrying p (.reporting verdicts)).Reaches t
      (sys.carrying (verdicts.foldl (Pipeline.pass now) p) .verifying) := by
  induction verdicts generalizing p with
  | nil => exact .act .report rfl
  | cons verdict rest ih =>
    rw [List.length_cons] at hRoom
    have hFirst : (sys.carrying p (.reporting (verdict :: rest))).Reaches t
        (sys.carrying (p.pass now verdict) (.reporting rest)) := by
      cases verdict with
      | error rejected => exact .act .report rfl
      | ok a =>
        obtain ⟨hFront, hUnchecked⟩ := p.pass_ok now a
        have hReport : (sys.carrying p (.reporting (.ok a :: rest))).Reaches t { sys with
            pipeline := p.front.report .state a.attestation none
            channel := p.unchecked
            states := .sending a rest } := .act .report rfl
        refine hReport.trans (.act .send ?_)
        have hFits : ¬ sys.capacity ≤ p.unchecked.length := by omega
        simp [act, send, hFits, carrying, hFront, hUnchecked]
    have hLength : (p.pass now verdict).unchecked.length ≤ p.unchecked.length + 1 := by
      cases verdict with
      | error rejected => exact Nat.le_succ _
      | ok a => simp [(p.pass_ok now a).2]
    exact hFirst.trans (ih (by omega))

/-- **A batch** is checked against its state as the pipeline checks it. -/
theorem reaches_verifyNext {count : Nat} (now : Nat)
    (hNext : p.verifyNext t sys.view now = .ok p') (hFits : p.Fits count)
    (hRoom : count ≤ sys.capacity) :
    (sys.carrying p .verifying).Reaches t (sys.carrying p' .verifying) := by
  obtain ⟨-, rfl⟩ | ⟨batch, batches, found, hTake, hFound, rfl⟩ :=
    Pipeline.verifyNext_cases hNext
  · exact .refl _
  · have hTaken : (sys.carrying p .verifying).Reaches t
        (sys.carrying { p with batches := batches } (.checking batch sys.view)) := by
      refine .act .take ?_
      have hFront : p.front.batches.take? = some (batch, batches) := hTake
      simp only [act, take, carrying, hFront]
      rfl
    have hChecked : (sys.carrying { p with batches := batches } (.checking batch sys.view)).Reaches
        t (sys.carrying { p with batches := batches } (.reporting found.verdicts)) := by
      refine .act .check ?_
      simp [act, check, carrying, hFound]
    have hElapsed : sys.carrying { p with batches := batches } (.reporting found.verdicts) =
        sys.carrying ({ p with batches := batches }.elapse found.calls.processSlots)
          (.reporting found.verdicts) := by
      rw [carrying, carrying, Pipeline.unchecked_elapse]
      rfl
    rw [hElapsed] at hChecked
    refine (hTaken.trans hChecked).trans (reaches_report now ?_)
    have hVerdicts := congrArg List.length (StoreView.verdicts_of_verifyBatch hFound)
    have hBatches : p.batches.attestations.length =
        batch.attestations.length + batches.attestations.length := by
      rw [BatchQueue.attestations, BatchQueue.all_eq_cons hTake, List.flatMap_cons,
        List.length_append]
      rfl
    have hLoad := hFits.load
    rw [List.length_map] at hVerdicts
    rw [Pipeline.unchecked_elapse, hVerdicts]
    show p.unchecked.length + _ ≤ _
    omega

/-- Batches are checked one after another. -/
theorem reaches_verifyBatches {size count : Nat} (now : Nat)
    (hVerified : p.verifyBatches t sys.view now size = .ok p') (hFits : p.Fits count)
    (hRoom : count ≤ sys.capacity) :
    (sys.carrying p .verifying).Reaches t (sys.carrying p' .verifying) := by
  induction size generalizing p with
  | zero =>
    cases hVerified
    exact .refl _
  | succ size ih =>
    simp only [Pipeline.verifyBatches, bind_eq_ok] at hVerified
    obtain ⟨middle, hNext, hRest⟩ := hVerified
    exact (reaches_verifyNext now hNext hFits hRoom).trans (ih hRest (hFits.verifyNext hNext))

/-! ## The check of signatures -/

theorem act_collect {a : VerifiedAttestation} {rest : List VerifiedAttestation}
    (hPhase : sys.signatures = .collecting) (hChannel : sys.channel = a :: rest) :
    sys.act t (.collect 0) = some ({ sys with channel := rest }.flush false
      (sys.pipeline.window.receive sys.pipeline.limits 0 a)) := by
  simp only [act, collect, hPhase, hChannel]

/-- Attestations are collected until there are enough of them. -/
theorem reaches_collect {items rest : List VerifiedAttestation}
    (hPhase : sys.signatures = .collecting) (hChannel : sys.channel = items ++ rest)
    (hItems : items ≠ [])
    (hFull : sys.pipeline.window.buffer.length + items.length = sys.pipeline.limits.fullSize) :
    sys.Reaches t { sys with
      channel := rest
      pipeline := { sys.pipeline with window := {} }
      signatures :=
        .concluding (verifySignatures (sys.pipeline.window.buffer ++ items)) false } := by
  induction items generalizing sys with
  | nil => exact absurd rfl hItems
  | cons a items ih =>
    have hFirst := act_collect (t := t) hPhase hChannel
    rw [List.length_cons, WindowLimits.fullSize] at hFull
    by_cases hLast : items = []
    · subst hLast
      rw [Window.receive_of_full _ _ _ _ (by rw [List.length_nil] at hFull; omega)] at hFirst
      exact .act _ hFirst
    · have hPos := List.length_pos_iff.mpr hLast
      obtain ⟨deadline, hMore⟩ := Window.receive_of_not_full sys.pipeline.limits 0
        sys.pipeline.window a (by omega)
      rw [hMore] at hFirst
      let collected : System := { sys with
        channel := items ++ rest
        pipeline := { sys.pipeline with
          window := ⟨sys.pipeline.window.buffer ++ [a], deadline⟩ } }
      have hLess : (sys.pipeline.window.buffer ++ [a]).length + items.length =
          sys.pipeline.limits.fullSize := by
        rw [List.length_append, List.length_singleton, WindowLimits.fullSize]
        omega
      have hRest : collected.Reaches t _ := ih hPhase rfl hLast hLess
      rw [List.append_assoc] at hRest
      exact (Reaches.act _ hFirst).trans hRest

/-- Too few attestations to go on are collected. -/
theorem reaches_collect_few {items : List VerifiedAttestation}
    (hPhase : sys.signatures = .collecting) (hChannel : sys.channel = items)
    (hFew : sys.pipeline.window.buffer.length + items.length < sys.pipeline.limits.fullSize) :
    ∃ window, sys.Reaches t { sys with
        channel := []
        pipeline := { sys.pipeline with window := window } } ∧
      window.buffer = sys.pipeline.window.buffer ++ items := by
  induction items generalizing sys with
  | nil =>
    rw [← hChannel]
    exact ⟨sys.pipeline.window, .refl _, by rw [hChannel, List.append_nil]⟩
  | cons a items ih =>
    have hFirst := act_collect (t := t) hPhase hChannel
    rw [List.length_cons] at hFew
    obtain ⟨deadline, hMore⟩ := Window.receive_of_not_full sys.pipeline.limits 0
      sys.pipeline.window a (by unfold WindowLimits.fullSize at hFew; omega)
    rw [hMore] at hFirst
    let collected : System := { sys with
      channel := items
      pipeline := { sys.pipeline with
        window := ⟨sys.pipeline.window.buffer ++ [a], deadline⟩ } }
    have hLess : (sys.pipeline.window.buffer ++ [a]).length + items.length <
        sys.pipeline.limits.fullSize := by
      rw [List.length_append, List.length_singleton]
      omega
    obtain ⟨window, hRest, hWindow⟩ := ih (show collected.signatures = .collecting from hPhase)
      rfl hLess
    refine ⟨window, (Reaches.act _ hFirst).trans hRest, ?_⟩
    rw [hWindow, List.append_assoc]
    rfl

/-- The verdicts are reported, and the engine is told of those that are valid. -/
theorem reaches_conclude {verdicts : List SignatureVerdict} {last : Bool}
    (hPhase : sys.signatures = .concluding verdicts last) (hOutbox : sys.pipeline.outbox = []) :
    sys.Reaches t { sys with
      signatures := if last then .ended else .collecting
      pipeline := { sys.pipeline with
        events := sys.pipeline.events ++ verdicts.map fun verdict =>
          ⟨.signature, verdict.attestation, verdict.rejection⟩ }
      inbox := { sys.inbox with
        queue := sys.inbox.queue ++ (SignatureVerdict.valid verdicts).map .attestation }
      told := sys.told ++ SignatureVerdict.valid verdicts } := by
  induction verdicts generalizing sys with
  | nil =>
    have hLast : sys.act t .conclude =
        some { sys with signatures := if last then .ended else .collecting } := by
      cases last <;> simp only [act, conclude, hPhase, hOutbox] <;> rfl
    simpa [SignatureVerdict.valid] using Reaches.act _ hLast
  | cons verdict rest ih =>
    have hFirst : sys.act t .conclude = some { sys with
        pipeline := sys.pipeline.conclude verdict
        signatures := .concluding rest last } := by
      simp only [act, conclude, hPhase, hOutbox]
    rw [Pipeline.conclude_eq, hOutbox, List.nil_append] at hFirst
    by_cases hValid : verdict.rejection = none
    · rw [if_pos hValid] at hFirst
      let told : System := { sys with
        pipeline := { sys.pipeline with
          events := sys.pipeline.events ++ [⟨.signature, verdict.attestation, verdict.rejection⟩]
          outbox := [] }
        signatures := .concluding rest last
        inbox := { sys.inbox with
          queue := sys.inbox.queue ++ [.attestation verdict.attestation] }
        told := sys.told ++ [verdict.attestation] }
      have hTold : sys.Reaches t told := (Reaches.act _ hFirst).trans (.act .tell rfl)
      refine hTold.trans ?_
      have hRest : told.Reaches t _ := ih rfl rfl
      simpa [told, SignatureVerdict.valid, hValid, hOutbox] using hRest
    · rw [if_neg hValid] at hFirst
      let reported : System := { sys with
        pipeline := { sys.pipeline with
          events := sys.pipeline.events ++ [⟨.signature, verdict.attestation, verdict.rejection⟩]
          outbox := [] }
        signatures := .concluding rest last }
      have hReported : sys.Reaches t reported := .act _ hFirst
      refine hReported.trans ?_
      have hRest : reported.Reaches t _ := ih rfl rfl
      simpa [reported, SignatureVerdict.valid, hValid, hOutbox] using hRest

end

end System

end ForkChoice
