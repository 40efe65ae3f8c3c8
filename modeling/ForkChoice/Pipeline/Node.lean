import ForkChoice.Pipeline.Basic

/-!
# ForkChoice — engine and verification together

A node verifies the attestations that it is given and tells its engine of the valid ones; the
engine tells those who verify of imported blocks and new slots.

* `Node` — both, and what has been exchanged;
* `Node.tell` — a message to the engine, `Node.submit` — an attestation to be verified, `Node.close`
  — no more attestations; after each of them everything that can go on has gone on.
-/

namespace ForkChoice

variable [HashFunction] [SignatureScheme]

/-- An engine and those who verify attestations for it. -/
structure Node where
  run : Run
  pipeline : Pipeline
  /-- The number of notices that have been taken from the engine. -/
  noticesRead : Nat := 0
  /-- The number of attestations that have been submitted. -/
  submitted : Nat := 0
  /-- Why no more attestations are verified, if something went wrong. -/
  fault : Option Fault := none
  /-- Whether no more attestations are accepted. -/
  closed : Bool := false

namespace Node

/-- Continues with a changed pipeline, unless something went wrong. -/
def withPipeline (n : Node) (change : Pipeline → Checked Pipeline) : Node :=
  match n.fault with
  | some _ => n
  | none =>
    match change n.pipeline with
    | .ok pipeline => { n with pipeline := pipeline }
    | .error reason => { n with fault := some reason }

/-- Those who verify attestations take note of the news from the engine. -/
def readNotices (n : Node) : Node :=
  let news := n.run.engine.notices.drop n.noticesRead
  { n.withPipeline fun p => .ok (news.foldl (Pipeline.handleNotice n.run.engine.store.preset) p) with
    noticesRead := n.run.engine.notices.length }

/-- The engine is told of the valid attestations. -/
def deliver (t : StateTransition) (n : Node) : Node :=
  { n with
    run := n.run.andThen (·.drain t (n.pipeline.outbox.map Message.attestation))
    pipeline := { n.pipeline with outbox := [] } }

/-- The check of signatures that began first ends, and the engine is told of what is valid. -/
def concludeNext (t : StateTransition) (n : Node) : Node :=
  { n with pipeline := n.pipeline.concludeNext }.deliver t

/-- The first `count` checks of signatures end, one after another. -/
def conclude (t : StateTransition) : Nat → Node → Node
  | 0, n => n
  | count + 1, n => conclude t count (n.concludeNext t)

/-- Everything that can go on goes on. -/
def settle (t : StateTransition) (n : Node) : Node :=
  let n := n.readNotices.withPipeline fun p => p.verifyPending t n.run.engine.store.view 0
  n.conclude t n.pipeline.due

/-- The engine is told something. -/
def tell (t : StateTransition) (n : Node) (message : Message) : Node :=
  if n.closed then { n with run := n.run.andThen (·.drain t [message]) }
  else { n with run := n.run.andThen (·.drain t [message]) }.settle t

/-- An attestation is numbered, and enters. -/
def enter (n : Node) (a : Attestation) (origin : AttestationOrigin) : Node :=
  let received : ReceivedAttestation := ⟨a, origin, UInt64.ofNat n.submitted⟩
  { n.withPipeline (·.ingest n.run.engine.store.view received) with submitted := n.submitted + 1 }

/-- An attestation is submitted. -/
def submit (t : StateTransition) (n : Node) (a : Attestation) (origin : AttestationOrigin) : Node :=
  (n.enter a origin).settle t

/-- No more attestations will be submitted, and all checks of signatures end. -/
def close (t : StateTransition) (n : Node) : Node :=
  if n.closed then n
  else
    let n := { n with pipeline := n.pipeline.close, closed := true }
    n.conclude t n.pipeline.running.length

end Node

end ForkChoice
