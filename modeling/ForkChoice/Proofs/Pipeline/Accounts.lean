import Mathlib.Data.List.Nodup
import ForkChoice.Proofs.Pipeline.Stations
import ForkChoice.Proofs.Pipeline.Threads

/-!
# ForkChoice — the accounts of the threads

Attestations on their way lie in many places: in the channels, the pool, the batches and the window,
and in the hands of the two threads. Each place belongs to a station, so what lies there can be kept
in books, with the reports and with what has been submitted.

Every step of the threads is an entry in these books. Either it only takes attestations from one
place of a station to another one, perhaps in another order, or an attestation is submitted, or some
are reported on and go to the station where the report leads. The books are sound at the beginning,
so they are in every run.

* `StatePhase.held`, `SignaturePhase.held` — what is in the hands of a thread;
* `System.held`, `System.books` — what is at each station;
* `System.Numbered` — attestations can be told apart;
* `System.sound_step` — one entry, `System.accounts_of_run` — in every run.
-/

namespace ForkChoice

/-- What the thread has in its hands that checks signatures. -/
def SignaturePhase.held : SignaturePhase → List ReceivedAttestation
  | .concluding verdicts _ => verdicts.map (·.attestation)
  | _ => []

@[simp] theorem SignaturePhase.held_concluding (verdicts : List SignatureVerdict) (last : Bool) :
    (SignaturePhase.concluding verdicts last).held = verdicts.map (·.attestation) := rfl

variable [SignatureScheme]

/-- What the thread has in its hands that checks attestations against states. -/
def StatePhase.held : StatePhase → Station → List ReceivedAttestation
  | .entering a _, .entering => [a]
  | .checking batch _, .due => batch.attestations
  | .reporting verdicts, .due => verdicts.map StateVerdict.attestation
  | .sending _ verdicts, .due => verdicts.map StateVerdict.attestation
  | .sending a _, .checked => [a.attestation]
  | _, _ => []

@[simp] theorem StatePhase.held_draining (x : Station) : StatePhase.draining.held x = [] := rfl

namespace System

/-- The attestations at a station, wherever they lie. -/
def held (sys : System) : Station → List ReceivedAttestation
  | .entering => sys.states.held .entering ++ sys.input
  | .parked => sys.pipeline.pool.attestations
  | .due => sys.states.held .due ++ sys.pipeline.batches.attestations
  | .checked => sys.signatures.held ++
      (sys.pipeline.window.buffer ++ sys.channel).map (·.attestation) ++ sys.states.held .checked

/-- The books of the threads. -/
def books (sys : System) : Books := ⟨sys.held, sys.pipeline.events, sys.submitted⟩

/-- Attestations have different numbers, and the next one has a new one. -/
structure Numbered (sys : System) : Prop where
  distinct : (sys.submitted.map (·.arrival)).Nodup
  lt_next : ∀ a ∈ sys.submitted, a.arrival < sys.nextArrival

variable {t : StateTransition} {sys sys' : System} {s : Store} {actions : List Action}
  {action : Action}

theorem takes_iff : sys.takes = true ↔ sys.states = .waiting ∨ sys.states = .draining := by
  unfold takes
  split <;> simp_all

theorem ne_ended_of_takes (h : sys.takes = true) : sys.states ≠ .ended := by
  rcases takes_iff.mp h with hPhase | hPhase <;> simp [hPhase]

/-- A thread that takes what comes has nothing in its hands. -/
theorem held_of_takes (h : sys.takes = true) (x : Station) : sys.states.held x = [] := by
  rcases takes_iff.mp h with hPhase | hPhase <;> rw [hPhase] <;> rfl

/-! ## Entries -/

/-- An attestation is submitted, with a number that is new. -/
theorem sound_submit (h : sys.books.Sound) (hNumbered : sys.Numbered) (a : Attestation)
    (origin : AttestationOrigin) (next : UInt64) :
    (books { sys with
      input := sys.input ++ [⟨a, origin, sys.nextArrival⟩]
      nextArrival := next
      submitted := sys.submitted ++ [⟨a, origin, sys.nextArrival⟩] }).Sound := by
  refine h.submit (a := ⟨a, origin, sys.nextArrival⟩) ?_ rfl rfl fun x => .of_eq ?_
  · exact fun hOld => Nat.lt_irrefl _ (hNumbered.lt_next _ hOld)
  · cases x <;> simp [books, held]

/-- **News**: those that have waited for the block go on, or those that have waited too long are
given up. -/
theorem sound_hear (h : sys.books.Sound) (hTakes : sys.takes = true) (notice : Notice) :
    (books { sys with
      noticesRead := sys.noticesRead + 1
      pipeline := sys.pipeline.handleNotice sys.view.preset notice
      states := .draining }).Sound := by
  have hHands := held_of_takes hTakes
  cases notice with
  | blockImported root =>
    rw [Pipeline.handleNotice_blockImported]
    refine h.pass .parked .unknownBlock (fun _ => none) (some .due) _
      ⟨fun _ _ => .released, fun z => ?_, rfl, rfl⟩
    cases z with
    | parked =>
      simpa [books, held] using sys.pipeline.pool.takeForBlock_perm root
    | due =>
      simpa [books, held, hHands] using
        (BatchQueue.pushAll_perm _ _).trans List.perm_append_comm
    | entering | checked => simp [books, held, hHands]
  | slotBegan slot =>
    rw [Pipeline.handleNotice_slotBegan]
    refine h.pass .parked .unknownBlock
      (fun a => some (.unknownBlockExpired a.data.blockRoot a.data.target.epoch)) none _
      ⟨fun _ _ => .givenUp _, fun z => ?_, rfl, rfl⟩
    cases z with
    | parked =>
      simpa [books, held] using sys.pipeline.pool.prune_perm _
    | entering | due | checked => simp [books, held, hHands]

/-- **An attestation enters**, and another one may have to leave the pool. -/
theorem sound_enter (h : sys.books.Sound) {a : ReceivedAttestation} {v : StoreView}
    {pipeline : Pipeline} (hPhase : sys.states = .entering a v)
    (hIngested : Pipeline.Ingested v (sys.pipeline.elapse 1) a pipeline) :
    (books { sys with pipeline := pipeline, states := .draining }).Sound := by
  cases hIngested with
  | refused reason =>
    refine h.pass .entering .sanity (fun _ => some reason) none [a]
      ⟨fun _ _ => .refused reason, fun z => ?_, rfl, rfl⟩
    cases z <;> simp [books, held, hPhase, Pipeline.report, Pipeline.elapse, StatePhase.held]
  | known hKnown =>
    refine h.pass .entering .sanity (fun _ => none) (some .due) [a]
      ⟨fun _ _ => .known, fun z => ?_, rfl, rfl⟩
    cases z with
    | due =>
      simpa [books, held, hPhase, Pipeline.report, Pipeline.elapse, StatePhase.held] using
        (BatchQueue.push_perm _ a).trans (List.perm_append_singleton a _).symm
    | entering | parked | checked =>
      simp [books, held, hPhase, Pipeline.report, Pipeline.elapse, StatePhase.held]
  | parked hUnknown =>
    -- It goes into the pool, and then the pool may be too large.
    have hParked : (books { sys with
        pipeline := { (sys.pipeline.elapse 1).report .sanity a none with
          pool := { sys.pipeline.pool with attestations := a :: sys.pipeline.pool.attestations } }
        states := .draining }).Sound := by
      refine h.pass .entering .sanity (fun _ => none) (some .parked) [a]
        ⟨fun _ _ => .unknown, fun z => ?_, rfl, rfl⟩
      cases z with
      | parked => simpa [books, held] using (List.perm_append_singleton a _).symm
      | entering | due | checked =>
        simp [books, held, hPhase, Pipeline.report, Pipeline.elapse, StatePhase.held]
    rw [Pipeline.park_eq]
    refine hParked.pass .parked .unknownBlock
      (fun c => some (.evictedFromUnknownBlockPool c.data.blockRoot)) none _
      ⟨fun _ _ => .givenUp _, fun z => ?_, rfl, rfl⟩
    cases z with
    | parked =>
      simpa [books, held, Pipeline.report, Pipeline.elapse] using sys.pipeline.pool.insert_perm a
    | entering | due | checked => simp [books, held, Pipeline.report, Pipeline.elapse]

/-- The signatures of what goes on from the window are checked. -/
theorem sound_flush (h : sys.books.Sound) (hHands : sys.signatures.held = []) (last : Bool)
    {x : Option (List VerifiedAttestation) × Window VerifiedAttestation}
    (hWindow : x.1.getD [] ++ x.2.buffer = sys.pipeline.window.buffer) :
    (sys.flush last x).books.Sound := by
  rw [flush_eq]
  refine h.perm (fun z => ?_) rfl rfl
  cases z with
  | checked =>
    obtain ⟨_ | batch, window⟩ := x
    · simp [books, held, ← hWindow]
    · have hChecked := (verifySignatures_perm batch).append_right
        ((window.buffer ++ sys.channel).map (·.attestation) ++ sys.states.held .checked)
      simpa [books, held, hHands, ← hWindow] using hChecked
  | entering | parked | due => exact .refl _

/-- **One step** is an entry in the books. -/
theorem sound_step [HashFunction] (h : sys.books.Sound) (hNumbered : sys.Numbered)
    (hStep : Step t sys action sys') : sys'.books.Sound := by
  cases hStep with
  | submit => exact sound_submit h hNumbered _ _ _
  | close | message | receive | work | tell => exact h
  | hear hTakes hNotice => exact sound_hear h hTakes _
  | load hTakes hInput =>
    refine h.congr (fun z => ?_) rfl rfl
    rcases takes_iff.mp hTakes with hPhase | hPhase <;> cases z <;>
      simp [books, held, hPhase, hInput, StatePhase.held]
  | enter hPhase hIngested => exact sound_enter h hPhase hIngested
  | pause hPhase | idle hPhase | reported hPhase | leave hPhase | send hPhase =>
    refine h.congr (fun z => ?_) rfl rfl
    cases z <;> simp [books, held, hPhase, StatePhase.held]
  | take hPhase hBatches =>
    refine h.congr (fun z => ?_) rfl rfl
    cases z <;> simp [books, held, hPhase, StatePhase.held, BatchQueue.attestations, hBatches]
  | check hPhase hFound =>
    refine h.congr (fun z => ?_) rfl rfl
    cases z <;> simp [books, held, hPhase, StatePhase.held, StoreView.verdicts_of_verifyBatch hFound]
  | @passed a rest hPhase =>
    refine h.pass .due .state (fun _ => none) (some .checked) [a.attestation]
      ⟨fun _ _ => .fit, fun z => ?_, rfl, rfl⟩
    cases z <;>
      simp [books, held, hPhase, StatePhase.held, StateVerdict.attestation, Pipeline.report]
  | @refused rejected rest hPhase =>
    refine h.pass .due .state (fun _ => some rejected.reason) none [rejected.attestation]
      ⟨fun _ _ => .unfit _, fun z => ?_, rfl, rfl⟩
    cases z <;>
      simp [books, held, hPhase, StatePhase.held, StateVerdict.attestation, Pipeline.report]
  | @collect now a rest hPhase hChannel =>
    have hTaken : (books { sys with
        channel := rest
        pipeline := { sys.pipeline with
          window := { sys.pipeline.window with
            buffer := sys.pipeline.window.buffer ++ [a] } } }).Sound := by
      refine h.congr (fun z => ?_) rfl rfl
      cases z <;> simp [books, held, hChannel]
    exact sound_flush hTaken (by simp [hPhase, SignaturePhase.held]) false
      (Window.receive_eq _ now _ a)
  | expire hPhase =>
    exact sound_flush h (by simp [hPhase, SignaturePhase.held]) false (Window.expire_eq _)
  | finish hPhase hChannel hStates =>
    have hEnded : (books { sys with signatures := .ended }).Sound := by
      refine h.congr (fun z => ?_) rfl rfl
      cases z <;> simp [books, held, hPhase, SignaturePhase.held]
    obtain ⟨hBatch, hEmpty⟩ := Window.close_eq sys.pipeline.window
    refine sound_flush hEnded rfl true ?_
    rw [hBatch, hEmpty, List.append_nil]
  | @concluded last hPhase hOutbox =>
    refine h.congr (fun z => ?_) rfl rfl
    cases z <;> cases last <;> simp [books, held, hPhase, SignaturePhase.held]
  | @conclude verdict rest last hPhase hOutbox =>
    rw [Pipeline.conclude_eq]
    refine h.pass .checked .signature (fun _ => verdict.rejection) none [verdict.attestation]
      ⟨fun _ _ => .judged _, fun z => ?_, rfl, rfl⟩
    cases z <;> simp [books, held, hPhase, SignaturePhase.held]

/-! ## Runs -/

theorem Numbered.step [HashFunction] (h : sys.Numbered) (hStep : Step t sys action sys') :
    sys'.Numbered := by
  cases hStep with
  | @submit a origin next hClosed hNext =>
    have hLess : sys.nextArrival < next := by
      rw [UInt64.lt_iff_toNat_lt, ← Word.add_eq_ok.mp hNext]
      exact Nat.lt_succ_self _
    refine ⟨?_, fun c hc => ?_⟩
    · rw [List.map_append, List.map_singleton]
      refine h.distinct.append (List.nodup_singleton _) fun number hOld hNew => ?_
      obtain ⟨c, hc, rfl⟩ := List.mem_map.mp hOld
      exact UInt64.lt_irrefl _ (List.mem_singleton.mp hNew ▸ h.lt_next c hc)
    · rcases List.mem_append.mp hc with hOld | hNew
      · exact UInt64.lt_trans (h.lt_next c hOld) hLess
      · rw [List.mem_singleton.mp hNew]
        exact hLess
  | collect | expire | finish =>
    rw [flush_eq]
    exact ⟨h.distinct, h.lt_next⟩
  | _ => exact ⟨h.distinct, h.lt_next⟩

/-- **The books are sound** in every run. -/
theorem sound_of_run [HashFunction] {limits : WindowLimits} {poolSize capacity : Nat}
    (hRun : (start s limits poolSize capacity).run t actions = some sys) :
    sys.books.Sound ∧ sys.Numbered := by
  refine invariant (P := fun sys => sys.books.Sound ∧ sys.Numbered) ⟨⟨?_, ?_⟩, ?_⟩ ?_ hRun
  · exact fun _ ha => absurd ha List.not_mem_nil
  · refine fun a _ => ⟨rfl, fun x => ?_⟩
    cases x <;> exact List.not_mem_nil
  · exact ⟨List.nodup_nil, fun _ ha => absurd ha List.not_mem_nil⟩
  · exact fun hStep h => ⟨sound_step h.1 h.2 hStep, h.2.step hStep⟩

end System

end ForkChoice
