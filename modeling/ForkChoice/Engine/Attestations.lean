import ForkChoice.Engine.Basic

/-!
# ForkChoice — attestations reach the store

Attestations that have been received together form a burst. They are applied in the order in
which they were first observed, in one draft, and the head is found once for all of them. Their
signatures have been checked before they reach the engine.

* `Engine.attest` — one attestation of a burst: applied, refused, or made to wait;
* `Engine.processAttestations` — a burst.
-/

namespace ForkChoice

/-- A burst that is being applied: the engine, the draft, and the votes so far. -/
structure BurstProgress where
  engine : Engine
  draft : Draft
  votes : List Vote := []
  failure : Option Fault := none

namespace Engine

variable [HashFunction] [SignatureScheme]

/-- Lets an attestation wait if the reason for not applying it may pass, and refuses it else. -/
def delayOrRefuse (e : Engine) (a : ReceivedAttestation) (reason : StoreError) : Engine :=
  match reason with
  | .earlyForkChoiceConsideration .. => { e with waiting := e.waiting.delayUntilTick a }
  | .unknownBlockRoot root => { e with waiting := e.waiting.delayUntilBlock root a }
  | .unknownTargetRoot root => { e with waiting := e.waiting.delayUntilBlock root a }
  | reason => e.record (.attestationRefused a reason)

/-- Applies one attestation to the draft of its burst. -/
def attest (t : StateTransition) (b : BurstProgress) (a : ReceivedAttestation) : BurstProgress :=
  match b.failure with
  | some _ => b
  | none =>
    match b.draft.attest t .skip a.attestation with
    | (.ok indices, d) =>
      { b with
        engine := b.engine.record (.attestationApplied a)
        draft := d
        votes := b.votes ++ [(indices, a.data.message)] }
    | (.error (.error reason), d) =>
      { b with engine := b.engine.delayOrRefuse a reason, draft := d }
    | (.error (.fault reason), d) => { b with draft := d, failure := some reason }

/-- Collects votes in order. -/
def recordVotes (e : Engine) (votes : List Vote) : Engine :=
  { e with tracker := e.tracker.recordAll votes }

/-- Makes the draft of a burst visible and follows the votes. -/
def finishBurst (b : BurstProgress) : Run :=
  match b.failure with
  | some reason => ⟨b.engine.abandon b.draft, some (.fault reason)⟩
  | none =>
    let e := b.engine.publish b.draft
    if b.votes.isEmpty then ⟨e, none⟩ else (e.recordVotes b.votes).updateHead

/-- The order in which attestations were first observed. -/
def byArrival (attestations : List ReceivedAttestation) : List ReceivedAttestation :=
  attestations.mergeSort fun a a' => decide (a.arrival ≤ a'.arrival)

/-- Applies a burst of attestations. -/
def processAttestations (t : StateTransition) (e : Engine)
    (attestations : List ReceivedAttestation) : Run :=
  if attestations.isEmpty then ⟨e, none⟩
  else finishBurst ((byArrival attestations).foldl (attest t)
    { engine := e, draft := Draft.ofStore e.store })

end Engine

end ForkChoice
