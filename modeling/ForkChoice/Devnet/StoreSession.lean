import ForkChoice.Devnet.Scenario
import ForkChoice.Engine.HeadTracker
import ForkChoice.Pipeline.SignatureBatch

/-!
# ForkChoice — working with a store

A store with at most one open draft, and a head tracker of its own.

* `StoreSession.change` — an operation on the open draft, or on one for this operation alone;
* `StoreSession.readings` — what can be read: from the open draft if there is one;
* `StoreSession.verifyAttestations` — the checks of a batch against a state and of signatures;
* `StoreSession.track` — an operation of the head tracker.
-/

namespace ForkChoice

namespace Devnet

/-- A store with at most one open draft, and a head tracker. -/
structure StoreSession where
  scenario : Scenario
  store : Store
  draft : Option Draft := none
  tracker : HeadTracker := {}
  /-- The applications of the rules of transition outside the open draft. -/
  closedCalls : TransitionCalls := {}
  /-- The number of attestations that have been given a number. -/
  numbered : Nat := 0

namespace StoreSession

/-- What can be read. -/
def readings (s : StoreSession) : StoreView :=
  match s.draft with
  | some d => d.view
  | none => s.store.view

/-- How often the rules of transition have been applied. -/
def calls (s : StoreSession) : TransitionCalls :=
  match s.draft with
  | some d => s.closedCalls.add d.calls
  | none => s.closedCalls

/-- Commits the open draft. -/
def commit (s : StoreSession) : StoreSession :=
  match s.draft with
  | some d => { s with store := d.commit, draft := none, closedCalls := s.calls }
  | none => s

/-- Gives the open draft up. -/
def rollback (s : StoreSession) : StoreSession :=
  { s with draft := none, closedCalls := s.calls }

/-- Opens a draft; one that is open is given up. -/
def begin (s : StoreSession) : StoreSession :=
  { s.rollback with draft := some (Draft.ofStore s.store) }

/-- An operation on the open draft, or on one for this operation alone, which is committed even
if the operation fails. -/
def change {α : Type} (s : StoreSession) (operation : Draft → Outcome StoreError α × Draft) :
    Outcome StoreError α × StoreSession :=
  match s.draft with
  | some d =>
    let (result, d) := operation d
    (result, { s with draft := some d })
  | none =>
    let (result, d) := operation (Draft.ofStore s.store)
    (result, { s with draft := some d }.commit)

/-- Time passes. -/
def tick (s : StoreSession) (time : UInt64) : Outcome StoreError Unit × StoreSession :=
  s.change fun d => (.ok (), d.tick time)

/-- All votes in the store are forgotten. -/
def discardVotes (s : StoreSession) : Outcome StoreError Unit × StoreSession :=
  s.change fun d => (.ok (), d.discardVotes)

/-- An operation of the head tracker, which reads the store. -/
def track (s : StoreSession)
    (operation : StoreView → HeadTracker → Outcome StoreError Unit × HeadTracker) :
    Outcome StoreError Unit × StoreSession :=
  let (result, tracker) := operation s.readings s.tracker
  (result, { s with tracker := tracker })

/-- The tracker collects the votes in a block if they count. -/
def trackBlock (s : StoreSession) (block : Block) (votes : List Vote) : Bool × StoreSession :=
  let (accepted, tracker) := s.tracker.onBlock s.readings block votes
  (accepted, { s with tracker := tracker })

/-- The attestation as it is checked, with a number if it has none. -/
def number (s : StoreSession) (a : Attestation) (arrival : Option UInt64) :
    ReceivedAttestation × StoreSession :=
  (⟨a, .test, arrival.getD (UInt64.ofNat s.numbered)⟩, { s with numbered := s.numbered + 1 })

/-- The attestations as they are checked. -/
def numberAll (s : StoreSession) :
    List (Attestation × Option UInt64) → List ReceivedAttestation × StoreSession
  | [] => ([], s)
  | (a, arrival) :: rest =>
    let (first, s) := s.number a arrival
    (s.numberAll rest).map (first :: ·) id

section

variable [HashFunction] [SignatureScheme]

/-- The block joins the tree. -/
def importBlock (s : StoreSession) (b : Block) : Outcome StoreError ImportResult × StoreSession :=
  s.change (·.importBlock s.scenario.transition b)

/-- An attestation changes votes. -/
def attest (s : StoreSession) (check : SignatureCheck) (a : Attestation) :
    Outcome StoreError (List ValidatorIndex) × StoreSession :=
  s.change (·.attest s.scenario.transition check a)

/-- What the checks of a batch find out. -/
structure BatchReport where
  states : List StateVerdict
  signatures : List SignatureVerdict

/-- Checks a batch against a state, and the signatures of those attestations that pass. -/
def verifyAttestations (s : StoreSession) (key : BatchKey) (batch : List ReceivedAttestation) :
    Checked (BatchReport × StoreSession) := do
  let verdict ← s.readings.verifyBatch s.scenario.transition key batch
  let passed := verdict.verdicts.filterMap Except.toOption
  return (⟨verdict.verdicts, verifySignatures passed⟩,
    { s with closedCalls := s.closedCalls.add verdict.calls })

end

end StoreSession

end Devnet

end ForkChoice
