import Mathlib.Data.List.Induction
import ForkChoice.Proofs.Engine.Tasks
import ForkChoice.Proofs.Pipeline.Passing

/-!
# ForkChoice — the threads

Attestations are verified by two threads beside that of the engine. One of them lets attestations
enter, follows the news from the engine, and checks batches against states; the other one checks
signatures and tells the engine of valid attestations. They share the committed store, of which they
take a view whenever they need one, and send each other messages: attestations that have been
submitted and those that have been checked go through channels that hold a bounded number of them.

A thread is a state machine whose steps take at most one message, send at most one, or take one view
of the store, so between any two steps every other thread may do whatever it likes. Which step is
taken next is left open: the news may be heard at any time while attestations are taken, a deadline
may pass at any time, and nothing rests on one choice coming before another.

* `StatePhase`, `SignaturePhase` — where the two threads are;
* `System` — the threads and what is on the way between them, `System.start` — at the beginning;
* `Action`, `System.act` — a step, unless it is not possible or the thread fails in it, `System.Step`
  — all that a step can do;
* `System.run` — steps in a row, `System.Joined` — no more attestations are submitted, and both
  threads have ended.
-/

namespace ForkChoice

variable [HashFunction] [SignatureScheme]

/-- Where the thread is that lets attestations enter and checks them against states. -/
inductive StatePhase where
  /-- It waits for news and attestations. -/
  | waiting
  /-- It takes all that has come in the meantime. -/
  | draining
  /-- An attestation is about to enter, as the store was. -/
  | entering (a : ReceivedAttestation) (v : StoreView)
  /-- It works off the batches. -/
  | verifying
  /-- A batch is about to be checked, as the store was. -/
  | checking (batch : Batch) (v : StoreView)
  /-- It reports on the attestations of a batch. -/
  | reporting (verdicts : List StateVerdict)
  /-- It hands an attestation on before it goes on reporting. -/
  | sending (a : VerifiedAttestation) (verdicts : List StateVerdict)
  | ended

/-- Whether the thread has ended. -/
def StatePhase.isEnded : StatePhase → Bool
  | .ended => true
  | _ => false

/-- Where the thread is that checks signatures. -/
inductive SignaturePhase where
  /-- It collects attestations until there are enough of them. -/
  | collecting
  /-- It reports on a batch, which may be the last one. -/
  | concluding (verdicts : List SignatureVerdict) (last : Bool)
  | ended

/-- Whether the thread has ended. -/
def SignaturePhase.isEnded : SignaturePhase → Bool
  | .ended => true
  | _ => false

/-- The threads and what is on the way between them. -/
structure System where
  /-- How many attestations each channel holds. -/
  capacity : Nat
  mutator : Mutator
  /-- The messages for the engine. -/
  inbox : Inbox := {}
  /-- The number of notices that have been taken from the engine. -/
  noticesRead : Nat := 0
  /-- Attestations that have been submitted and not taken yet. -/
  input : List ReceivedAttestation := []
  /-- The number of the next attestation. -/
  nextArrival : UInt64 := 0
  /-- Whether no more attestations are accepted. -/
  closed : Bool := false
  /-- What the two threads keep, and what they have reported. -/
  pipeline : Pipeline
  states : StatePhase := .waiting
  /-- Attestations that have been checked against a state, for the check of signatures. -/
  channel : List VerifiedAttestation := []
  signatures : SignaturePhase := .collecting
  /-- All attestations that have been submitted. -/
  submitted : List ReceivedAttestation := []
  /-- All attestations that the engine has been told of. -/
  told : List ReceivedAttestation := []

/-- A step of one of the threads, or of those outside. -/
inductive Action where
  /-- An attestation is submitted. -/
  | submit (a : Attestation) (origin : AttestationOrigin)
  /-- No more attestations will be submitted. -/
  | close
  /-- The engine is told something from outside. -/
  | message (message : Message)
  /-- The engine takes its next message, with the attestations among the next `ready` ones if it is
  an attestation. -/
  | receive (ready : Nat)
  /-- The engine does a task. -/
  | work
  /-- News are taken note of. -/
  | hear
  /-- An attestation is taken, and a view of the store. -/
  | load
  /-- The attestation enters: it is refused, joins a batch, or has to wait for its block. -/
  | enter
  /-- There is nothing more to take at present. -/
  | pause
  /-- A batch is taken, and a view of the store; or there is none. -/
  | take
  /-- The batch is checked. -/
  | check
  /-- A report on an attestation of the batch, or there are no more. -/
  | report
  /-- The attestation is handed on. -/
  | send
  /-- The thread that checks states ends. -/
  | leave
  /-- An attestation comes to the check of signatures. -/
  | collect (now : Nat)
  /-- The attestations that have been collected have waited long enough. -/
  | expire
  /-- No more attestations will come to the check of signatures. -/
  | finish
  /-- A report on a signature, or there are no more. -/
  | conclude
  /-- The engine is told of a valid attestation. -/
  | tell

namespace System

/-- An engine that has done nothing yet but find the head, and threads that have nothing to do. -/
def start (s : Store) (limits : WindowLimits) (poolSize capacity : Nat) : System where
  capacity := capacity
  mutator := { run := Engine.start s }
  pipeline := { limits := limits, pool := { capacity := poolSize } }

/-- What can be read of the store at present. -/
def view (sys : System) : StoreView := sys.mutator.view

/-- Whether the thread that checks states takes what comes. -/
def takes (sys : System) : Bool :=
  match sys.states with
  | .waiting => true
  | .draining => true
  | _ => false

/-! ## Steps -/

/-- An attestation is numbered, and put into the channel if there is room. -/
def submit (sys : System) (a : Attestation) (origin : AttestationOrigin) : Option System :=
  if sys.closed || sys.capacity ≤ sys.input.length then none
  else
    match Word.add sys.nextArrival 1 with
    | .error _ => none
    | .ok next =>
      let received : ReceivedAttestation := ⟨a, origin, sys.nextArrival⟩
      some { sys with
        input := sys.input ++ [received]
        nextArrival := next
        submitted := sys.submitted ++ [received] }

/-- A message for the engine is put into its inbox. -/
def post (sys : System) (message : Message) : System :=
  { sys with inbox := { sys.inbox with queue := sys.inbox.queue ++ [message] } }

/-- The engine takes its next message if it has nothing to do. -/
def receive (sys : System) (ready : Nat) : Option System :=
  match sys.mutator.run.failure, sys.mutator.tasks, sys.inbox.next? ready with
  | none, [], some (delivery, inbox) =>
    some { sys with inbox := inbox, mutator := { sys.mutator with tasks := [delivery.task] } }
  | _, _, _ => none

/-- The next of the news is taken note of. -/
def hear (sys : System) : Option System :=
  if sys.takes then
    match sys.mutator.notices[sys.noticesRead]? with
    | none => none
    | some notice => some { sys with
        noticesRead := sys.noticesRead + 1
        pipeline := sys.pipeline.handleNotice sys.view.preset notice
        states := .draining }
  else none

/-- The next attestation is taken, and a view of the store. -/
def load (sys : System) : Option System :=
  match sys.input with
  | [] => none
  | a :: rest =>
    if sys.takes then some { sys with input := rest, states := .entering a sys.view } else none

/-- The attestation enters. -/
def enter (sys : System) : Option System :=
  match sys.states with
  | .entering a v =>
    match sys.pipeline.ingest v a with
    | .ok pipeline => some { sys with pipeline := pipeline, states := .draining }
    | .error _ => none
  | _ => none

/-- The thread goes on to the batches. -/
def pause (sys : System) : Option System :=
  match sys.states with
  | .draining => some { sys with states := .verifying }
  | _ => none

/-- The oldest batch is taken, and a view of the store. -/
def take (sys : System) : Option System :=
  match sys.states with
  | .verifying =>
    match sys.pipeline.batches.take? with
    | none => some { sys with states := .waiting }
    | some (batch, batches) => some { sys with
        pipeline := { sys.pipeline with batches := batches }
        states := .checking batch sys.view }
  | _ => none

/-- The batch is checked. -/
def check (t : StateTransition) (sys : System) : Option System :=
  match sys.states with
  | .checking batch v =>
    match v.verifyBatch t batch.key batch.attestations with
    | .ok found => some { sys with states := .reporting found.verdicts }
    | .error _ => none
  | _ => none

/-- The thread reports on an attestation of the batch. -/
def report (sys : System) : Option System :=
  match sys.states with
  | .reporting [] => some { sys with states := .verifying }
  | .reporting (.ok a :: rest) => some { sys with
      pipeline := sys.pipeline.report .state a.attestation none
      states := .sending a rest }
  | .reporting (.error rejected :: rest) => some { sys with
      pipeline := sys.pipeline.report .state rejected.attestation (some rejected.reason)
      states := .reporting rest }
  | _ => none

/-- The attestation is put into the channel if there is room. -/
def send (sys : System) : Option System :=
  match sys.states with
  | .sending a rest =>
    if sys.capacity ≤ sys.channel.length then none
    else some { sys with channel := sys.channel ++ [a], states := .reporting rest }
  | _ => none

/-- The thread ends if no more attestations will come. -/
def leave (sys : System) : Option System :=
  match sys.states, sys.input with
  | .waiting, [] => if sys.closed then some { sys with states := .ended } else none
  | _, _ => none

/-- The signatures are checked if a batch goes on. -/
def flush (sys : System) (last : Bool) :
    Option (List VerifiedAttestation) × Window VerifiedAttestation → System
  | (none, window) => { sys with pipeline := { sys.pipeline with window := window } }
  | (some batch, window) => { sys with
      pipeline := { sys.pipeline with window := window }
      signatures := .concluding (verifySignatures batch) last }

/-- An attestation comes at the time `now`. -/
def collect (sys : System) (now : Nat) : Option System :=
  match sys.signatures, sys.channel with
  | .collecting, a :: rest =>
    some ({ sys with channel := rest }.flush false
      (sys.pipeline.window.receive sys.pipeline.limits now a))
  | _, _ => none

/-- The time is up if there is a deadline. -/
def expire (sys : System) : Option System :=
  match sys.signatures, sys.pipeline.window.deadline with
  | .collecting, some _ => some (sys.flush false sys.pipeline.window.expire)
  | _, _ => none

/-- The signatures of what has been collected are checked if no more attestations will come. -/
def finish (sys : System) : Option System :=
  match sys.signatures, sys.channel, sys.states with
  | .collecting, [], .ended =>
    some ({ sys with signatures := .ended }.flush true sys.pipeline.window.close)
  | _, _, _ => none

/-- The thread reports on a signature, once the engine has been told of the last valid one. -/
def conclude (sys : System) : Option System :=
  match sys.signatures, sys.pipeline.outbox with
  | .concluding [] false, [] => some { sys with signatures := .collecting }
  | .concluding [] true, [] => some { sys with signatures := .ended }
  | .concluding (verdict :: rest) last, [] => some { sys with
      pipeline := sys.pipeline.conclude verdict
      signatures := .concluding rest last }
  | _, _ => none

/-- The engine is told of a valid attestation. -/
def tell (sys : System) : Option System :=
  match sys.pipeline.outbox with
  | [] => none
  | a :: rest => some { sys.post (.attestation a) with
      pipeline := { sys.pipeline with outbox := rest }
      told := sys.told ++ [a] }

/-- What a step leads to, unless it is not possible or the thread fails in it. -/
def act (t : StateTransition) (sys : System) : Action → Option System
  | .submit a origin => sys.submit a origin
  | .close => some { sys with closed := true }
  | .message message => some (sys.post message)
  | .receive ready => sys.receive ready
  | .work => some { sys with mutator := sys.mutator.work t }
  | .hear => sys.hear
  | .load => sys.load
  | .enter => sys.enter
  | .pause => sys.pause
  | .take => sys.take
  | .check => sys.check t
  | .report => sys.report
  | .send => sys.send
  | .leave => sys.leave
  | .collect now => sys.collect now
  | .expire => sys.expire
  | .finish => sys.finish
  | .conclude => sys.conclude
  | .tell => sys.tell

/-- All that a step can do. -/
inductive Step (t : StateTransition) (sys : System) : Action → System → Prop
  | submit {a : Attestation} {origin : AttestationOrigin} {next : UInt64}
    (hClosed : sys.closed = false) (hNext : Word.add sys.nextArrival 1 = .ok next) :
    Step t sys (.submit a origin) { sys with
      input := sys.input ++ [⟨a, origin, sys.nextArrival⟩]
      nextArrival := next
      submitted := sys.submitted ++ [⟨a, origin, sys.nextArrival⟩] }
  | close : Step t sys .close { sys with closed := true }
  | message (message : Message) : Step t sys (.message message) (sys.post message)
  | receive {ready : Nat} {delivery : Delivery} {inbox : Inbox}
    (hTasks : sys.mutator.tasks = []) (hNext : sys.inbox.next? ready = some (delivery, inbox)) :
    Step t sys (.receive ready) { sys with
      inbox := inbox, mutator := { sys.mutator with tasks := [delivery.task] } }
  | work : Step t sys .work { sys with mutator := sys.mutator.work t }
  | hear {notice : Notice} (hTakes : sys.takes = true)
    (hNotice : sys.mutator.notices[sys.noticesRead]? = some notice) :
    Step t sys .hear { sys with
      noticesRead := sys.noticesRead + 1
      pipeline := sys.pipeline.handleNotice sys.view.preset notice
      states := .draining }
  | load {a : ReceivedAttestation} {rest : List ReceivedAttestation} (hTakes : sys.takes = true)
    (hInput : sys.input = a :: rest) :
    Step t sys .load { sys with input := rest, states := .entering a sys.view }
  | enter {a : ReceivedAttestation} {v : StoreView} {pipeline : Pipeline}
    (hPhase : sys.states = .entering a v)
    (hIngested : Pipeline.Ingested v (sys.pipeline.elapse 1) a pipeline) :
    Step t sys .enter { sys with pipeline := pipeline, states := .draining }
  | pause (hPhase : sys.states = .draining) : Step t sys .pause { sys with states := .verifying }
  | idle (hPhase : sys.states = .verifying) (hBatches : sys.pipeline.batches.all = []) :
    Step t sys .take { sys with states := .waiting }
  | take {batch : Batch} {batches : PendingBatches} (hPhase : sys.states = .verifying)
    (hBatches : sys.pipeline.batches.all = batch :: batches.all) :
    Step t sys .take { sys with
      pipeline := { sys.pipeline with batches := batches }
      states := .checking batch sys.view }
  | check {batch : Batch} {v : StoreView} {found : StoreView.BatchVerdict}
    (hPhase : sys.states = .checking batch v)
    (hFound : v.verifyBatch t batch.key batch.attestations = .ok found) :
    Step t sys .check { sys with states := .reporting found.verdicts }
  | reported (hPhase : sys.states = .reporting []) :
    Step t sys .report { sys with states := .verifying }
  | passed {a : VerifiedAttestation} {rest : List StateVerdict}
    (hPhase : sys.states = .reporting (.ok a :: rest)) :
    Step t sys .report { sys with
      pipeline := sys.pipeline.report .state a.attestation none
      states := .sending a rest }
  | refused {rejected : RejectedAttestation} {rest : List StateVerdict}
    (hPhase : sys.states = .reporting (.error rejected :: rest)) :
    Step t sys .report { sys with
      pipeline := sys.pipeline.report .state rejected.attestation (some rejected.reason)
      states := .reporting rest }
  | send {a : VerifiedAttestation} {rest : List StateVerdict}
    (hPhase : sys.states = .sending a rest) :
    Step t sys .send { sys with channel := sys.channel ++ [a], states := .reporting rest }
  | leave (hPhase : sys.states = .waiting) (hInput : sys.input = [])
    (hClosed : sys.closed = true) : Step t sys .leave { sys with states := .ended }
  | collect {now : Nat} {a : VerifiedAttestation} {rest : List VerifiedAttestation}
    (hPhase : sys.signatures = .collecting) (hChannel : sys.channel = a :: rest) :
    Step t sys (.collect now) ({ sys with channel := rest }.flush false
      (sys.pipeline.window.receive sys.pipeline.limits now a))
  | expire (hPhase : sys.signatures = .collecting) :
    Step t sys .expire (sys.flush false sys.pipeline.window.expire)
  | finish (hPhase : sys.signatures = .collecting) (hChannel : sys.channel = [])
    (hStates : sys.states = .ended) :
    Step t sys .finish ({ sys with signatures := .ended }.flush true sys.pipeline.window.close)
  | concluded {last : Bool} (hPhase : sys.signatures = .concluding [] last)
    (hOutbox : sys.pipeline.outbox = []) :
    Step t sys .conclude { sys with signatures := if last then .ended else .collecting }
  | conclude {verdict : SignatureVerdict} {rest : List SignatureVerdict} {last : Bool}
    (hPhase : sys.signatures = .concluding (verdict :: rest) last)
    (hOutbox : sys.pipeline.outbox = []) :
    Step t sys .conclude { sys with
      pipeline := sys.pipeline.conclude verdict
      signatures := .concluding rest last }
  | tell {a : ReceivedAttestation} {rest : List ReceivedAttestation}
    (hOutbox : sys.pipeline.outbox = a :: rest) :
    Step t sys .tell { sys.post (.attestation a) with
      pipeline := { sys.pipeline with outbox := rest }
      told := sys.told ++ [a] }

variable {t : StateTransition} {sys sys' : System} {actions : List Action} {action : Action}

theorem step_of_act (h : sys.act t action = some sys') : Step t sys action sys' := by
  cases action <;> simp only [act] at h
  case submit a origin =>
    unfold submit at h
    split at h
    · cases h
    · rename_i hOpen
      rw [Bool.or_eq_true, not_or] at hOpen
      split at h <;> cases h
      rename_i hNext
      exact .submit (Bool.eq_false_iff.mpr hOpen.1) hNext
  case close => cases h; exact .close
  case message message => cases h; exact .message message
  case receive ready =>
    unfold receive at h
    split at h <;> cases h
    rename_i hTasks hNext
    exact .receive hTasks hNext
  case work => cases h; exact .work
  case hear =>
    unfold hear at h
    split at h
    · rename_i hTakes
      split at h <;> cases h
      rename_i hNotice
      exact .hear hTakes hNotice
    · cases h
  case load =>
    unfold load at h
    split at h
    · cases h
    · rename_i hInput
      split at h <;> cases h
      rename_i hTakes
      exact .load hTakes hInput
  case enter =>
    unfold enter at h
    split at h
    · rename_i hPhase
      split at h <;> cases h
      rename_i hIngest
      exact .enter hPhase (Pipeline.ingested_of_ingest hIngest)
    · cases h
  case pause =>
    unfold pause at h
    split at h <;> cases h
    rename_i hPhase
    exact .pause hPhase
  case take =>
    unfold take at h
    split at h
    · rename_i hPhase
      split at h <;> cases h <;> rename_i hTake
      · exact .idle hPhase (BatchQueue.all_eq_nil hTake)
      · exact .take hPhase (BatchQueue.all_eq_cons hTake)
    · cases h
  case check =>
    unfold check at h
    split at h
    · rename_i hPhase
      split at h <;> cases h
      rename_i hFound
      exact .check hPhase hFound
    · cases h
  case report =>
    unfold report at h
    split at h <;> cases h <;> rename_i hPhase
    · exact .reported hPhase
    · exact .passed hPhase
    · exact .refused hPhase
  case send =>
    unfold send at h
    split at h
    · rename_i hPhase
      split at h <;> cases h
      exact .send hPhase
    · cases h
  case leave =>
    unfold leave at h
    split at h
    · rename_i hPhase hInput
      split at h <;> cases h
      rename_i hClosed
      exact .leave hPhase hInput hClosed
    · cases h
  case collect now =>
    unfold collect at h
    split at h <;> cases h
    rename_i hPhase hChannel
    exact .collect hPhase hChannel
  case expire =>
    unfold expire at h
    split at h <;> cases h
    rename_i hPhase _
    exact .expire hPhase
  case finish =>
    unfold finish at h
    split at h <;> cases h
    rename_i hPhase hChannel hStates
    exact .finish hPhase hChannel hStates
  case conclude =>
    unfold conclude at h
    split at h <;> cases h <;> rename_i hPhase hOutbox
    · exact .concluded hPhase hOutbox
    · exact .concluded hPhase hOutbox
    · exact .conclude hPhase hOutbox
  case tell =>
    unfold tell at h
    split at h <;> cases h
    rename_i hOutbox
    exact .tell hOutbox

omit [HashFunction] in
theorem flush_eq (sys : System) (last : Bool)
    (x : Option (List VerifiedAttestation) × Window VerifiedAttestation) :
    sys.flush last x = { sys with
      pipeline := { sys.pipeline with window := x.2 }
      signatures := x.1.elim sys.signatures fun batch =>
        .concluding (verifySignatures batch) last } := by
  obtain ⟨_ | batch, window⟩ := x <;> rfl

/-! ## Runs -/

/-- Steps in a row, all of which are possible. -/
def run (t : StateTransition) (sys : System) (actions : List Action) : Option System :=
  actions.foldlM (act t) sys

/-- No more attestations are submitted, and the threads that verify attestations have ended. -/
def Joined (sys : System) : Prop :=
  sys.closed = true ∧ sys.states = .ended ∧ sys.signatures = .ended

omit [HashFunction] in
theorem joined_iff :
    sys.Joined ↔ (sys.closed && sys.states.isEnded && sys.signatures.isEnded) = true := by
  unfold Joined
  cases sys.states <;> cases sys.signatures <;>
    simp [StatePhase.isEnded, SignaturePhase.isEnded]

omit [HashFunction] in
instance : Decidable sys.Joined :=
  decidable_of_iff _ joined_iff.symm

@[simp] theorem run_nil : sys.run t [] = some sys :=
  rfl

theorem run_append (more : List Action) :
    sys.run t (actions ++ more) = (sys.run t actions).bind (run t · more) :=
  List.foldlM_append

theorem run_concat :
    sys.run t (actions ++ [action]) = (sys.run t actions).bind (act t · action) := by
  simp [run, List.foldlM_append]

/-- What holds at the beginning and is kept by all steps holds in all runs. -/
theorem invariant {P : System → Prop} (hStart : P sys)
    (hStep : ∀ {sys sys' action}, Step t sys action sys' → P sys → P sys')
    (hRun : sys.run t actions = some sys') : P sys' := by
  induction actions using List.reverseRecOn generalizing sys' with
  | nil =>
    cases hRun
    exact hStart
  | append_singleton actions action ih =>
    rw [run_concat, Option.bind_eq_some_iff] at hRun
    obtain ⟨middle, hMiddle, hLast⟩ := hRun
    exact hStep (step_of_act hLast) (ih hMiddle)

end System

end ForkChoice
