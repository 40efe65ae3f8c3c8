import ForkChoice.Engine.Message
import ForkChoice.Pipeline.Sanity
import ForkChoice.Pipeline.SignatureBatch
import ForkChoice.Pipeline.UnknownBlockPool
import ForkChoice.Pipeline.Window

/-!
# ForkChoice — verification of attestations

An attestation passes through several stages before it reaches the engine: checks without a
state, a wait for the block that it votes for if that is not known, checks against a state, and
the check of its signature. Every stage reports what it finds.

* `Pipeline` — the attestations between the stages, and all reports;
* `Pipeline.ingest` — an attestation enters;
* `Pipeline.handleNotice` — news from the engine;
* `Pipeline.verifyNext` — a check against a state;
* `Pipeline.flush`, `Pipeline.concludeNext` — a check of signatures begins and ends.

A check of signatures goes on beside the other work, and is over when enough of that has been done
(`Pipeline.overlap`): attestations that enter and states that have to be advanced count.
-/

namespace ForkChoice

/-- What a stage has found out about an attestation. -/
structure PipelineEvent where
  stage : Stage
  attestation : ReceivedAttestation
  /-- Why the attestation is rejected, if it is. -/
  rejection : Option Rejection := none
  deriving DecidableEq

variable [SignatureScheme]

/-- A batch whose signatures are being checked. -/
structure RunningCheck where
  batch : List VerifiedAttestation
  /-- How much other work has been done in the meantime. -/
  meanwhile : Nat := 0

/-- The attestations between the stages, and all reports. -/
structure Pipeline where
  limits : WindowLimits
  pool : UnknownBlockPool
  /-- How much other work is done while the signatures of a batch are being checked. -/
  overlap : Nat := 0
  batches : PendingBatches := {}
  window : Window VerifiedAttestation := {}
  /-- The checks of signatures that have not ended, in the order in which they began. -/
  running : List RunningCheck := []
  /-- What the stages have found out, in order. -/
  events : List PipelineEvent := []
  /-- Valid attestations that the engine has not been told of. -/
  outbox : List ReceivedAttestation := []

namespace Pipeline

/-- Reports what a stage has found out. -/
def report (p : Pipeline) (stage : Stage) (a : ReceivedAttestation)
    (rejection : Option Rejection) : Pipeline :=
  { p with events := p.events ++ [⟨stage, a, rejection⟩] }

/-! ## Entering -/

/-- Lets an attestation for an unknown block wait, perhaps in place of an older one. -/
def park (p : Pipeline) (a : ReceivedAttestation) : Pipeline :=
  match p.pool.insert a with
  | (none, pool) => { p with pool := pool }
  | (some evicted, pool) =>
    { p with pool := pool }.report .unknownBlock evicted
      (some (.evictedFromUnknownBlockPool evicted.data.blockRoot))

/-- Puts an attestation into its batch if its block is known, and lets it wait else. -/
def dispatch (v : StoreView) (p : Pipeline) (a : ReceivedAttestation) : Pipeline :=
  if v.containsBlock a.data.blockRoot then { p with batches := p.batches.push a } else p.park a

/-- The running checks go on while other work is done. -/
def elapse (p : Pipeline) (work : Nat) : Pipeline :=
  { p with running := p.running.map fun c => { c with meanwhile := c.meanwhile + work } }

/-- An attestation enters. -/
def ingest (v : StoreView) (p : Pipeline) (a : ReceivedAttestation) : Checked Pipeline :=
  let p := p.elapse 1
  match a.attestation.checkSanity v.preset v.currentEpoch v.finalized.epoch with
  | .ok () => .ok ((p.report .sanity a none).dispatch v a)
  | .error (.error reason) => .ok (p.report .sanity a (some reason))
  | .error (.fault reason) => .error reason

/-! ## News -/

/-- An attestation goes on whose block has been imported. -/
def release (p : Pipeline) (a : ReceivedAttestation) : Pipeline :=
  let p := p.report .unknownBlock a none
  { p with batches := p.batches.push a }

/-- An attestation is given up whose block has not been imported in time. -/
def expire (p : Pipeline) (a : ReceivedAttestation) : Pipeline :=
  p.report .unknownBlock a (some (.unknownBlockExpired a.data.blockRoot a.data.target.epoch))

/-- Takes note of an imported block or a new slot. -/
def handleNotice (preset : Preset) (p : Pipeline) : Notice → Pipeline
  | .blockImported root =>
    let (released, pool) := p.pool.takeForBlock root
    released.foldl release { p with pool := pool }
  | .slotBegan slot =>
    let (expired, pool) := p.pool.prune (Word.satSub (preset.epochAt slot) 1)
    expired.foldl expire { p with pool := pool }

/-! ## Signatures -/

/-- Reports on the signature of an attestation, and lets it go on if the signature is valid. -/
def conclude (p : Pipeline) (verdict : SignatureVerdict) : Pipeline :=
  match verdict.result with
  | .ok () =>
    let p := p.report .signature verdict.attestation none
    { p with outbox := p.outbox ++ [verdict.attestation] }
  | .error reason => p.report .signature verdict.attestation (some reason)

/-- The check of the signatures begins if a batch goes on. -/
def flush (p : Pipeline) : Option (List VerifiedAttestation) × Window VerifiedAttestation → Pipeline
  | (none, window) => { p with window := window }
  | (some batch, window) => { p with window := window, running := p.running ++ [⟨batch, 0⟩] }

/-- The check that began first ends. -/
def concludeNext (p : Pipeline) : Pipeline :=
  match p.running with
  | [] => p
  | first :: others => (verifySignatures first.batch).foldl conclude { p with running := others }

/-- How many of the running checks have lasted long enough. -/
def due (p : Pipeline) : Nat :=
  (p.running.takeWhile fun c => decide (p.overlap ≤ c.meanwhile)).length

/-! ## States -/

/-- Reports on an attestation that has been checked against a state. -/
def pass (now : Nat) (p : Pipeline) : StateVerdict → Pipeline
  | .ok verified =>
    let p := p.report .state verified.attestation none
    p.flush (p.window.receive p.limits now verified)
  | .error rejected => p.report .state rejected.attestation (some rejected.reason)

/-- Checks the oldest batch against its state. -/
def verifyNext [HashFunction] (t : StateTransition) (v : StoreView) (now : Nat) (p : Pipeline) :
    Checked Pipeline :=
  match p.batches.take? with
  | none => .ok p
  | some (batch, batches) => do
    let verdict ← v.verifyBatch t batch.key batch.attestations
    let p := { p with batches := batches }.elapse verdict.calls.processSlots
    return verdict.verdicts.foldl (pass now) p

/-- Checks `count` batches against their states, all as the store is now. -/
def verifyBatches [HashFunction] (t : StateTransition) (v : StoreView) (now : Nat) :
    Nat → Pipeline → Checked Pipeline
  | 0, p => .ok p
  | count + 1, p => do verifyBatches t v now count (← p.verifyNext t v now)

/-- Checks all batches against their states. -/
def verifyPending [HashFunction] (t : StateTransition) (v : StoreView) (now : Nat)
    (p : Pipeline) : Checked Pipeline :=
  p.verifyBatches t v now p.batches.size

/-- No more attestations will come. -/
def close (p : Pipeline) : Pipeline := p.flush p.window.close

end Pipeline

end ForkChoice
