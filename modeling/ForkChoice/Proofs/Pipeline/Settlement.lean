import ForkChoice.Proofs.Pipeline.Accounts
import ForkChoice.Proofs.Pipeline.Attribution

/-!
# ForkChoice — what becomes of an attestation

When no more attestations are submitted and both threads have ended, nothing is left on the way: the
thread that checks states ends with empty hands, without batches, and with nothing more to take, and
the one that checks signatures ends after it, once it has emptied its channel and its window and has
told the engine of all valid attestations. So what the books still hold is held in the pool, and all
other attestations have come to an end of their way.

* `System.Tidy` — what a thread that rests or has ended has left behind;
* `System.TellsValid` — the engine is told of the attestations that are found valid;
* `System.Parked` — that an attestation has entered while its block was not known;
* `System.Settled` — what becomes of an attestation;
* `System.settlesAll_of_run` — all that have been submitted are settled.
-/

namespace ForkChoice

/-- Whether the thread that checks signatures works on its last batch, or has ended. -/
def SignaturePhase.Last : SignaturePhase → Prop
  | .collecting => False
  | .concluding _ last => last = true
  | .ended => True

section

variable [SignatureScheme]

namespace System

variable {t : StateTransition} {sys sys' : System} {s : Store} {actions : List Action}
  {action : Action} {a : ReceivedAttestation}

/-! ## The end of the threads -/

/-- What a thread that rests or has ended has left behind. -/
structure Tidy (sys : System) : Prop where
  rested : sys.states = .waiting ∨ sys.states = .ended → sys.pipeline.batches.all = []
  left : sys.states = .ended → sys.closed = true ∧ sys.input = []
  last : sys.signatures.Last →
    sys.states = .ended ∧ sys.channel = [] ∧ sys.pipeline.window.buffer = []
  told : (∀ verdicts last, sys.signatures ≠ .concluding verdicts last) →
    sys.pipeline.outbox = []

namespace Tidy

/-- The thread that checks states does something other than ending. -/
theorem of_working (h : sys.Tidy) (hBefore : sys.states ≠ .ended) (hAfter : sys'.states ≠ .ended)
    (hRested : sys'.states = .waiting → sys'.pipeline.batches.all = [])
    (hOutbox : sys'.pipeline.outbox = sys.pipeline.outbox)
    (hSignatures : sys'.signatures = sys.signatures) : sys'.Tidy where
  rested hEither := hRested (hEither.resolve_right hAfter)
  left hEnded := absurd hEnded hAfter
  last hLast := absurd (h.last (hSignatures ▸ hLast)).1 hBefore
  told hIdle := hOutbox.trans (h.told (hSignatures ▸ hIdle))

/-- The thread that checks signatures has been collecting, and may go on with a batch. -/
theorem flush (h : sys.Tidy) (hPhase : sys.signatures = .collecting)
    (x : Option (List VerifiedAttestation) × Window VerifiedAttestation) :
    (sys.flush false x).Tidy := by
  have hOutbox : sys.pipeline.outbox = [] := h.told (by simp [hPhase])
  obtain ⟨_ | batch, window⟩ := x
  · refine ⟨h.rested, h.left, fun hLast => ?_, fun _ => hOutbox⟩
    simp [System.flush, hPhase, SignaturePhase.Last] at hLast
  · refine ⟨h.rested, h.left, fun hLast => ?_, fun _ => hOutbox⟩
    simp [System.flush, SignaturePhase.Last] at hLast

/-- **One step** leaves everything in order. -/
theorem step [HashFunction] (h : sys.Tidy) (hStep : Step t sys action sys') : sys'.Tidy := by
  cases hStep with
  | submit hClosed hNext =>
    refine ⟨h.rested, fun hEnded => ?_, h.last, h.told⟩
    rw [(h.left hEnded).1] at hClosed
    cases hClosed
  | close => exact ⟨h.rested, fun hEnded => ⟨rfl, (h.left hEnded).2⟩, h.last, h.told⟩
  | message | receive | work => exact ⟨h.rested, h.left, h.last, h.told⟩
  | @hear notice hTakes hNotice =>
    refine h.of_working (ne_ended_of_takes hTakes) (by simp) (by simp) ?_ rfl
    cases notice with
    | blockImported root => rw [Pipeline.handleNotice_blockImported]
    | slotBegan slot => rw [Pipeline.handleNotice_slotBegan]
  | load hTakes hInput =>
    exact h.of_working (ne_ended_of_takes hTakes) (by simp) (by simp) rfl rfl
  | enter hPhase hIngested =>
    refine h.of_working (by simp [hPhase]) (by simp) (by simp) ?_ rfl
    cases hIngested with
    | refused reason => rfl
    | known hKnown => rfl
    | parked hUnknown =>
      rw [Pipeline.park_eq]
      rfl
  | idle hPhase hBatches =>
    exact h.of_working (by simp [hPhase]) (by simp) (fun _ => hBatches) rfl rfl
  | pause hPhase | take hPhase hBatches | check hPhase hFound | reported hPhase | passed hPhase
  | refused hPhase | send hPhase =>
    exact h.of_working (by simp [hPhase]) (by simp) (by simp) rfl rfl
  | leave hPhase hInput hClosed =>
    refine ⟨fun _ => h.rested (Or.inl hPhase), fun _ => ⟨hClosed, hInput⟩, fun hLast => ?_, h.told⟩
    have hEnded := (h.last hLast).1
    rw [hPhase] at hEnded
    cases hEnded
  | @collect now a rest hPhase hChannel =>
    have hTaken : Tidy { sys with channel := rest } := by
      refine ⟨h.rested, h.left, fun hLast => ?_, h.told⟩
      simp [hPhase, SignaturePhase.Last] at hLast
    exact hTaken.flush hPhase _
  | expire hPhase => exact h.flush hPhase _
  | finish hPhase hChannel hStates =>
    have hOutbox : sys.pipeline.outbox = [] := h.told (by simp [hPhase])
    have hEmpty := (Window.close_eq sys.pipeline.window).2
    rw [flush_eq]
    exact ⟨h.rested, h.left, fun _ => ⟨hStates, hChannel, hEmpty⟩, fun _ => hOutbox⟩
  | @concluded last hPhase hOutbox =>
    refine ⟨h.rested, h.left, fun hLast => h.last ?_, fun _ => hOutbox⟩
    cases last with
    | true => simp [hPhase, SignaturePhase.Last]
    | false => cases hLast
  | @conclude verdict rest last hPhase hOutbox =>
    rw [Pipeline.conclude_eq]
    refine ⟨h.rested, h.left, fun hLast => h.last ?_, fun hIdle => absurd rfl (hIdle rest last)⟩
    rw [hPhase]
    exact hLast
  | tell hOutbox =>
    refine ⟨h.rested, h.left, h.last, fun hIdle => ?_⟩
    have hTold := h.told hIdle
    rw [hOutbox] at hTold
    cases hTold

theorem start (limits : WindowLimits) (poolSize capacity : Nat) :
    (System.start s limits poolSize capacity).Tidy where
  rested _ := rfl
  left hEnded := by cases hEnded
  last hLast := hLast.elim
  told _ := rfl

end Tidy

/-- Only the pool still holds attestations when both threads have ended. -/
theorem held_of_joined (h : sys.Tidy) (hJoined : sys.Joined) {x : Station} (hx : x ≠ .parked) :
    sys.held x = [] := by
  obtain ⟨-, hStates, hSignatures⟩ := hJoined
  obtain ⟨-, hChannel, hWindow⟩ := h.last (by simp [hSignatures, SignaturePhase.Last])
  have hBatches := h.rested (Or.inr hStates)
  have hInput := (h.left hStates).2
  cases x with
  | parked => exact absurd rfl hx
  | entering => simp [held, hStates, StatePhase.held, hInput]
  | due => simp [held, hStates, StatePhase.held, BatchQueue.attestations, hBatches]
  | checked =>
    simp [held, hStates, StatePhase.held, hSignatures, SignaturePhase.held, hChannel, hWindow]

/-! ## What the engine is told -/

/-- The engine has been told of each attestation that has been found valid, or will be told of it
next, as often as it has been found valid. -/
def TellsValid (sys : System) : Prop :=
  ∀ a, (sys.told ++ sys.pipeline.outbox).count a =
    (reportsOn sys.pipeline.events a).count (.signature, none)

namespace TellsValid

/-- Another stage has reported something. -/
theorem of_other {stage : Stage} (h : sys.TellsValid) (hStage : stage ≠ .signature)
    (found : ReceivedAttestation → Option Rejection) (moved : List ReceivedAttestation)
    (hEvents : sys'.pipeline.events =
      sys.pipeline.events ++ moved.map fun c => ⟨stage, c, found c⟩)
    (hTold : sys'.told = sys.told) (hOutbox : sys'.pipeline.outbox = sys.pipeline.outbox) :
    sys'.TellsValid := by
  intro a
  rw [hEvents, hTold, hOutbox, count_reportsOn_append hStage.symm]
  exact h a

theorem step [HashFunction] (h : sys.TellsValid) (hStep : Step t sys action sys') :
    sys'.TellsValid := by
  cases hStep with
  | @hear notice hTakes hNotice =>
    cases notice with
    | blockImported root =>
      rw [Pipeline.handleNotice_blockImported]
      exact h.of_other (by decide) (fun _ => none) _ rfl rfl rfl
    | slotBegan slot =>
      rw [Pipeline.handleNotice_slotBegan]
      exact h.of_other (by decide) (fun a => some (.unknownBlockExpired _ _)) _ rfl rfl rfl
  | @enter a v pipeline hPhase hIngested =>
    cases hIngested with
    | refused reason => exact h.of_other (by decide) (fun _ => some reason) [a] rfl rfl rfl
    | known hKnown => exact h.of_other (by decide) (fun _ => none) [a] rfl rfl rfl
    | parked hUnknown =>
      have hEntered : TellsValid { sys with
          pipeline := (sys.pipeline.elapse 1).report .sanity a none } :=
        h.of_other (by decide) (fun _ => none) [a] rfl rfl rfl
      rw [Pipeline.park_eq]
      exact hEntered.of_other (by decide)
        (fun c => some (.evictedFromUnknownBlockPool c.data.blockRoot)) _ rfl rfl rfl
  | @passed a rest hPhase =>
    exact h.of_other (by decide) (fun _ => none) [a.attestation] rfl rfl rfl
  | @refused rejected rest hPhase =>
    exact h.of_other (by decide) (fun _ => some rejected.reason) [rejected.attestation] rfl rfl rfl
  | @conclude verdict rest last hPhase hOutbox =>
    intro a
    rw [Pipeline.conclude_eq]
    have hNew : (if verdict.rejection = none then [verdict.attestation] else []).count a =
        (reportsOn [⟨.signature, verdict.attestation, verdict.rejection⟩] a).count
          (.signature, none) := by
      rw [reportsOn_singleton]
      by_cases hSame : verdict.attestation = a <;>
        by_cases hValid : verdict.rejection = none <;> simp [hSame, hValid]
    show (sys.told ++ (sys.pipeline.outbox ++ _)).count a = _
    rw [← List.append_assoc, List.count_append, h a, hNew, ← List.count_append, ← reportsOn_append]
  | @tell a rest hOutbox =>
    intro c
    have hTold := h c
    rw [hOutbox, List.append_cons] at hTold
    exact hTold
  | collect | expire | finish =>
    rw [flush_eq]
    exact h
  | _ => exact h

end TellsValid

/-! ## Who has waited -/

/-- An attestation waits in the pool, or it has been reported on when it left the pool. -/
def HasWaited (sys : System) (a : ReceivedAttestation) : Prop :=
  a ∈ sys.pipeline.pool.attestations ∨
    ∃ found, (.unknownBlock, found) ∈ reportsOn sys.pipeline.events a

/-- In a run an attestation has entered while its block was not known. -/
def Parked [HashFunction] (t : StateTransition) (start : System) (actions : List Action)
    (a : ReceivedAttestation) : Prop :=
  ∃ before after sys v, actions = before ++ .enter :: after ∧ start.run t before = some sys ∧
    sys.states = .entering a v ∧ v.containsBlock a.data.blockRoot = false

namespace HasWaited

/-- A stage other than that of the pool has reported something. -/
theorem of_other {stage : Stage} (h : sys'.HasWaited a) (hStage : stage ≠ .unknownBlock)
    (found : ReceivedAttestation → Option Rejection) (moved : List ReceivedAttestation)
    (hEvents : sys'.pipeline.events =
      sys.pipeline.events ++ moved.map fun c => ⟨stage, c, found c⟩)
    (hPool : sys'.pipeline.pool = sys.pipeline.pool) : sys.HasWaited a := by
  unfold HasWaited at h
  rw [hEvents, hPool] at h
  refine h.imp_right fun ⟨found, hReport⟩ => ⟨found, ?_⟩
  exact (mem_reportsOn_append hReport).resolve_right fun hNew => hStage hNew.1.symm

/-- Some attestations have left the pool, and others have not come. -/
theorem of_pool (h : sys'.HasWaited a) {moved : List ReceivedAttestation}
    (found : ReceivedAttestation → Option Rejection)
    (hEvents : sys'.pipeline.events =
      sys.pipeline.events ++ moved.map fun c => ⟨.unknownBlock, c, found c⟩)
    (hPool : (moved ++ sys'.pipeline.pool.attestations).Perm sys.pipeline.pool.attestations) :
    sys.HasWaited a := by
  rcases h with hHeld | ⟨found, hReport⟩
  · exact Or.inl (hPool.subset (List.mem_append_right _ hHeld))
  · rw [hEvents] at hReport
    rcases mem_reportsOn_append hReport with hOld | ⟨-, hMoved⟩
    · exact Or.inr ⟨found, hOld⟩
    · exact Or.inl (hPool.subset (List.mem_append_left _ hMoved))

/-- **One step**: those that have waited have done so before, or enter and are parked. -/
theorem step [HashFunction] (h : sys'.HasWaited a) (hStep : Step t sys action sys') :
    sys.HasWaited a ∨ action = .enter ∧
      ∃ v, sys.states = .entering a v ∧ v.containsBlock a.data.blockRoot = false := by
  cases hStep with
  | @hear notice hTakes hNotice =>
    left
    cases notice with
    | blockImported root =>
      rw [Pipeline.handleNotice_blockImported] at h
      exact h.of_pool (fun _ => none) rfl (sys.pipeline.pool.takeForBlock_perm root)
    | slotBegan slot =>
      rw [Pipeline.handleNotice_slotBegan] at h
      exact h.of_pool (fun a => some (.unknownBlockExpired _ _)) rfl
        (sys.pipeline.pool.prune_perm _)
  | @enter c v pipeline hPhase hIngested =>
    cases hIngested with
    | refused reason =>
      exact Or.inl (h.of_other (by decide) (fun _ => some reason) [c] rfl rfl)
    | known hKnown => exact Or.inl (h.of_other (by decide) (fun _ => none) [c] rfl rfl)
    | parked hUnknown =>
      rw [Pipeline.park_eq] at h
      -- The pool, as if it could hold one attestation more.
      have hEntered : HasWaited { sys with
          pipeline := { (sys.pipeline.elapse 1).report .sanity c none with
            pool := { sys.pipeline.pool with
              attestations := c :: sys.pipeline.pool.attestations } } } a :=
        h.of_pool (fun c => some (.evictedFromUnknownBlockPool c.data.blockRoot)) rfl
          (sys.pipeline.pool.insert_perm c)
      by_cases hSame : a = c
      · subst hSame
        exact Or.inr ⟨rfl, v, hPhase, hUnknown⟩
      · have hReported : HasWaited { sys with
            pipeline := (sys.pipeline.elapse 1).report .sanity c none } a :=
          hEntered.imp_left fun hHeld => (List.mem_cons.mp hHeld).resolve_left hSame
        exact Or.inl (hReported.of_other (by decide) (fun _ => none) [c] rfl rfl)
  | @passed c rest hPhase =>
    exact Or.inl (h.of_other (by decide) (fun _ => none) [c.attestation] rfl rfl)
  | @refused rejected rest hPhase =>
    exact Or.inl (h.of_other (by decide) (fun _ => some rejected.reason) [rejected.attestation]
      rfl rfl)
  | @conclude verdict rest last hPhase hOutbox =>
    rw [Pipeline.conclude_eq] at h
    exact Or.inl (h.of_other (by decide) (fun _ => verdict.rejection) [verdict.attestation]
      rfl rfl)
  | collect | expire | finish =>
    rw [flush_eq] at h
    exact Or.inl h
  | _ => exact Or.inl h

/-- **In a run** those that have waited have been parked. -/
theorem parked [HashFunction] {limits : WindowLimits} {poolSize capacity : Nat}
    (h : sys.HasWaited a)
    (hRun : (System.start s limits poolSize capacity).run t actions = some sys) :
    Parked t (System.start s limits poolSize capacity) actions a := by
  induction actions using List.reverseRecOn generalizing sys with
  | nil =>
    cases hRun
    rcases h with hHeld | ⟨found, hReport⟩
    · exact absurd hHeld List.not_mem_nil
    · exact absurd hReport List.not_mem_nil
  | append_singleton actions action ih =>
    rw [run_concat, Option.bind_eq_some_iff] at hRun
    obtain ⟨middle, hMiddle, hLast⟩ := hRun
    rcases h.step (step_of_act hLast) with hBefore | ⟨rfl, v, hPhase, hUnknown⟩
    · obtain ⟨before, after, sys, v, rfl, hFirst, hPhase, hUnknown⟩ := ih hBefore hMiddle
      exact ⟨before, after ++ [action], sys, v, by simp, hFirst, hPhase, hUnknown⟩
    · exact ⟨actions, [], middle, v, rfl, hMiddle, hPhase, hUnknown⟩

end HasWaited

/-! ## Settlement -/

/-- What becomes of an attestation that has been submitted. -/
structure Settled (sys : System) (a : ReceivedAttestation) : Prop where
  /-- The first stage reports on it once. -/
  entered : ((reportsOn sys.pipeline.events a).map Prod.fst).count .sanity = 1
  /-- If it is rejected there, that is all. -/
  refused : ∀ reason, (.sanity, some reason) ∈ reportsOn sys.pipeline.events a →
    reportsOn sys.pipeline.events a = [(.sanity, some reason)] ∧
      a ∉ sys.told ∧ a ∉ sys.pipeline.pool.attestations
  /-- Either it is rejected, or its signature is found valid, or it is still waiting for its block,
  and only one of these, and only once. -/
  ends : (reportsOn sys.pipeline.events a).countP (·.2.isSome) +
    (reportsOn sys.pipeline.events a).count (.signature, none) +
      sys.pipeline.pool.attestations.count a = 1
  /-- The engine is told of it as often as its signature is found valid. -/
  told : sys.told.count a = (reportsOn sys.pipeline.events a).count (.signature, none)
  /-- The stages report in order, and none of them twice. -/
  order : ((reportsOn sys.pipeline.events a).map Prod.fst).Sublist
    [.sanity, .unknownBlock, .state, .signature]

/-- All attestations are settled, and those that have not been submitted are not heard of. -/
structure SettlesAll [HashFunction] (t : StateTransition) (start : System) (actions : List Action)
    (sys : System) : Prop where
  distinct : (sys.submitted.map (·.arrival)).Nodup
  settled : ∀ a ∈ sys.submitted, sys.Settled a
  others : ∀ a ∉ sys.submitted, reportsOn sys.pipeline.events a = [] ∧ a ∉ sys.told
  /-- The stage of the pool reports only on attestations that have been parked. -/
  parked : ∀ a found, (.unknownBlock, found) ∈ reportsOn sys.pipeline.events a →
    start.Parked t actions a

/-- **Conservation.** In every run in which no thread fails, whatever comes in between, each
attestation that has been submitted is settled when the threads have ended. -/
theorem settlesAll_of_run [HashFunction] {limits : WindowLimits} {poolSize capacity : Nat}
    (hRun : (start s limits poolSize capacity).run t actions = some sys) (hJoined : sys.Joined) :
    SettlesAll t (start s limits poolSize capacity) actions sys := by
  obtain ⟨hSound, hNumbered⟩ := sound_of_run hRun
  have hTidy : sys.Tidy := invariant (Tidy.start limits poolSize capacity)
    (fun hStep h => h.step hStep) hRun
  have hTells : sys.TellsValid := invariant (P := TellsValid) (fun _ => rfl)
    (fun hStep h => h.step hStep) hRun
  have hOutbox : sys.pipeline.outbox = [] := hTidy.told (by simp [hJoined.2.2])
  have hTold (a) : sys.told.count a =
      (reportsOn sys.pipeline.events a).count (.signature, none) := by
    rw [← hTells a, hOutbox, List.append_nil]
  refine ⟨hNumbered.distinct, fun a ha => ?_, fun a ha => ?_, fun a found hReport => ?_⟩
  · obtain ⟨place, hTrail, hCount⟩ := hSound.trail a ha
    -- It is in the pool, or it is nowhere any more.
    have hParked : ∀ x, place = some x → x = .parked := by
      rintro x rfl
      by_contra hElse
      have hOnce := hCount x
      rw [if_pos rfl, show sys.books.held x = [] from held_of_joined hTidy hJoined hElse] at hOnce
      cases hOnce
    have hPool : sys.pipeline.pool.attestations.count a = place.toList.length := by
      refine (hCount .parked).trans ?_
      cases place with
      | none => rfl
      | some x => rw [hParked x rfl, if_pos rfl]; rfl
    have hSanity := hTrail.count_sanity
    rw [if_neg fun hEntering => by cases hParked _ hEntering] at hSanity
    refine ⟨hSanity, fun reason hRefused => ?_, ?_, hTold a, ?_⟩
    · obtain ⟨hAll, rfl⟩ := hTrail.refused hRefused
      refine ⟨hAll, List.count_eq_zero.mp ?_, List.count_eq_zero.mp hPool⟩
      rw [hTold, show reportsOn sys.pipeline.events a = _ from hAll]
      rfl
    · rw [hPool]
      exact hTrail.ends_once
    · exact hTrail.in_order.trans (Station.stagesBefore_sublist place)
  · obtain ⟨hReports, -⟩ := hSound.others a ha
    refine ⟨hReports, List.count_eq_zero.mp ?_⟩
    rw [hTold, show reportsOn sys.pipeline.events a = [] from hReports]
    rfl
  · exact HasWaited.parked (Or.inr ⟨found, hReport⟩) hRun

end System

end

/-! ## Four votes -/

/-- A vote that is right, one without participants, one with the signature of somebody else, and one
for a block that is not known. -/
def fourVotes (s : Store) (signature : SignatureBytes) : List Attestation :=
  let vote := (firstVote s true false signature).attestation
  [vote, (firstVote s false false signature).attestation,
    (firstVote s false true signature).attestation,
    { vote with data := { vote.data with blockRoot := 0 } }]

/-- Four votes are submitted, and pass through the threads one after another. -/
def Action.verifyFour (votes : List Attestation) : List Action :=
  votes.map (.submit · .gossip) ++ [.close] ++ votes.flatMap (fun _ => [.load, .enter]) ++
    [.pause, .take, .check, .report, .send, .report, .send, .report, .take, .leave,
      .collect 0, .conclude, .tell, .conclude, .collect 0, .conclude, .conclude, .finish]

/-- Whether of four votes the engine has been told of the first one, the next two have been
rejected, by the first and by the last stage, and the fourth one is in the pool. -/
def System.endsOfFour [SignatureScheme] (sys : System) : Bool :=
  match sys.submitted with
  | [a, b, c, d] => decide (sys.told = [a] ∧
      (.sanity, some .noAggregationBits) ∈ reportsOn sys.pipeline.events b ∧
        (.signature, some .signatureInvalid) ∈ reportsOn sys.pipeline.events c ∧
          sys.pipeline.pool.attestations = [d])
  | _ => false

/-- The engine is told of the first vote, the next two are rejected by the first and by the last
stage, and the fourth one is still waiting for its block when the threads have ended. -/
theorem settlesAll_of_fourVotes :
    letI : HashFunction := Engine.linearHash
    letI : SignatureScheme := integerScheme
    ∃ (s : Store) (signature : SignatureBytes) (sys : System) (a b c d : ReceivedAttestation),
      signingNetwork = some s ∧
        let t := slotTransition s.preset
        let start := System.start s ⟨1, 0⟩ 1 4
        let actions := Action.verifyFour (fourVotes s signature)
        start.run t actions = some sys ∧ sys.Joined ∧ System.SettlesAll t start actions sys ∧
          sys.submitted = [a, b, c, d] ∧ sys.told = [a] ∧
            (.sanity, some .noAggregationBits) ∈ reportsOn sys.pipeline.events b ∧
              (.signature, some .signatureInvalid) ∈ reportsOn sys.pipeline.events c ∧
                sys.pipeline.pool.attestations = [d] := by
  let : HashFunction := Engine.linearHash
  let : SignatureScheme := integerScheme
  have hRuns : (signingNetwork.any fun s => (signatureOf s true false).any fun signature =>
      ((System.start s ⟨1, 0⟩ 1 4).run (slotTransition s.preset)
          (Action.verifyFour (fourVotes s signature))).any fun sys =>
        decide sys.Joined && sys.endsOfFour) = true := by
    decide +kernel
  simp only [Option.any_eq_true, Bool.and_eq_true, decide_eq_true_eq] at hRuns
  obtain ⟨s, hNetwork, signature, -, sys, hRun, hJoined, hEnds⟩ := hRuns
  unfold System.endsOfFour at hEnds
  split at hEnds
  · rename_i a b c d hSubmitted
    exact ⟨s, signature, sys, a, b, c, d, hNetwork, hRun, hJoined,
      System.settlesAll_of_run hRun hJoined, hSubmitted, of_decide_eq_true hEnds⟩
  · cases hEnds

end ForkChoice
