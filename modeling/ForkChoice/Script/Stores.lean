import ForkChoice.Devnet.StoreSession
import ForkChoice.Script.Scenarios

/-!
# ForkChoice — scripts for a store

A script that changes a store, asks what it holds, and follows the head with a tracker of its own.

* `storeChange` — the steps that change the store;
* `storeQuestion` — the questions;
* `trackerStep` — the steps of the head tracker;
* `verifyStep` — the checks of a batch of attestations;
* `storeStep` — one step;
* `storeScript` — the whole script.
-/

namespace ForkChoice

namespace Script

open Devnet

/-- The result of a step, and the store after it. -/
def changeReply (result : Value) (s : StoreSession) : Value :=
  .object [("result", result), ("view", viewValue s.readings), ("calls", callsValue s.calls)]

/-- The result of an import. -/
def importValue : ImportResult → Value
  | .imported root => .list [.text "Imported", write root]
  | .alreadyKnown root => .list [.text "AlreadyKnown", write root]

/-- The reply to an operation of the store. -/
def afterChange {α : Type} (f : α → Value) (r : Outcome StoreError α × StoreSession) :
    Reply (Value × StoreSession) := do
  return (changeReply (← inReply f r.1) r.2, r.2)

/-- The reply to an operation without a result. -/
def afterSilentChange (r : Outcome StoreError Unit × StoreSession) :
    Reply (Value × StoreSession) :=
  afterChange (fun _ => .null) r

/-! ## The head tracker -/

/-- The result of a step of the head tracker, the tracker after it, and which heads it has
published. -/
def trackerReply (result : Value) (before after : StoreSession) : Value :=
  let h := after.tracker
  .object [("result", result), ("head", write h.head), ("justified", checkpointValue h.justified),
    ("votes", votesValue h.votes),
    ("events", .list ((h.published.drop before.tracker.published.length).map headEventValue))]

/-- A step of the head tracker. -/
def trackerStep (s : StoreSession) (v : Value) (verb : String) : Reply (Value × StoreSession) := do
  let c := s.scenario
  let tracked (r : Outcome StoreError Unit × StoreSession) : Reply (Value × StoreSession) := do
    return (trackerReply (← inReply (fun _ => .null) r.1) s r.2, r.2)
  match verb with
  | "p_attest" =>
    let (indices, message) ← voteIn c v
    tracked (s.track fun view h => h.onAttestation view indices message)
  | "p_record" =>
    let (indices, message) ← voteIn c v
    tracked (s.track fun _ h => (.ok (), h.recordVotes indices message))
  | "p_justified" =>
    let checkpoint ← field v "checkpoint" (checkpointIn c)
    tracked (s.track fun view h => h.onJustified view checkpoint)
  | "p_update" => tracked (s.track fun view h => h.updateHead view)
  | "p_block" =>
    let b ← field v "block" (blockIn c)
    let (accepted, after) := s.trackBlock b.block (← fieldOr v "votes" (listOf (voteIn c)) [])
    return (trackerReply (.bool accepted) s after, after)
  | _ => meaningless "do"

section

variable [HashFunction]

/-! ## Questions -/

/-- The root of a state that is there. -/
def stateRootValue (p : Preset) : Option BeaconState → Reply Value
  | some state => do return write (← state.treeRoot p)
  | none => .ok .null

/-- What is known of the block with a root. -/
def blockReply (p : Preset) (view : StoreView) (root : Root) : Reply Value := do
  let children := (view.children root).mergeSort fun a b => decide (a ≤ b)
  return .object [("block", write ((view.block? root).map fun b => b.slot)),
    ("state", ← stateRootValue p (view.state? root)),
    ("contains", .bool (view.containsBlock root)), ("children", write children),
    ("anchor", write view.anchorRoot), ("genesis_time", write view.genesisTime)]

/-- The answer to a question about the store. -/
def storeQuestion (s : StoreSession) (v : Value) (verb : String) : Reply Value := do
  let c := s.scenario
  let view := s.readings
  match verb with
  | "committed" => return .object (storeFields s.store)
  | "head" =>
    let votes ← match ← field? v "votes" (listOf (indexedVoteIn c)) with
      | some votes => pure (LatestMessages.empty.extend votes)
      | none => pure s.store.latestMessages
    return write (← view.head votes)
  | "ancestor" =>
    let root ← field v "root" (rootIn c)
    return write (← view.ancestor root (← field v "slot" plain))
  | "contains" => blockReply c.preset view (← field v "root" (rootIn c))
  | "checkpoint_state" =>
    match view.checkpointState? (← field v "checkpoint" (checkpointIn c)) with
    | some state => return .list [write state.slot, write (← state.treeRoot c.preset)]
    | none => return .null
  | "latest" =>
    let indices : List ValidatorIndex ← field v "indices" plain
    return .list (indices.map fun index => optional messageValue (view.latestMessage? index))
  | "positions" =>
    let b ← field v "at" (blockIn c)
    let slot ← field v "slot" plain
    let index ← fieldOr v "index" plain 0
    let committee ← b.state.committee c.preset slot index
    let validators ← field v "validators" plain
    let positions ← committeePositions c.preset b.state slot index validators
    return .object [("committee", write committee), ("positions", write positions)]
  | _ => meaningless "do"

variable [SignatureScheme]

/-! ## Checks -/

/-- Reads an attestation and its number, if one is given. -/
def numberedIn (c : Scenario) (v : Value) : Reply (Attestation × Option UInt64) := do
  return (← attestationIn c v, ← field? v "arrival" plain)

/-- What the check against a state has found out. -/
def stateVerdictValue : StateVerdict → Value
  | .ok a => .object [("arrival", write a.attestation.arrival),
      ("indices", write a.attestingIndices),
      ("public_key", write (SignatureScheme.writeKey a.publicKey)),
      ("signing_root", write a.signingRoot)]
  | .error rejected => report rejected.reason

/-- What the check of a signature has found out. -/
def signatureVerdictValue (verdict : SignatureVerdict) : Value :=
  .list [write verdict.attestation.arrival,
    .text (match verdict.result with
      | .ok () => "valid"
      | .error reason => reason.name)]

/-- Checks a batch against a state, and then the signatures. -/
def verifyBatch (s : StoreSession) (batch : List ReceivedAttestation) (v : Value) :
    Reply (Value × StoreSession) := do
  let first := (batch.head?.map (·.batchKey)).getD default
  let target ← fieldOr v "target" (checkpointIn s.scenario) first.target
  let root ← fieldOr v "root" (rootIn s.scenario) first.blockRoot
  let (found, s) ← s.verifyAttestations ⟨target, root⟩ batch
  let signatures := found.signatures.mergeSort fun a b =>
    decide (a.attestation.arrival ≤ b.attestation.arrival)
  return (.object [("state", .list (found.states.map stateVerdictValue)),
    ("signatures", .list (signatures.map signatureVerdictValue)), ("calls", callsValue s.calls)], s)

/-- Reads attestations and checks them. Those that are made keep their numbers even if a later one
cannot be made. -/
def verifyStep (s : StoreSession) (v : Value) : Reply Value × StoreSession :=
  let check (s : StoreSession) (made : Readings (Attestation × Option UInt64)) :=
    let (batch, s) := s.numberAll made.items
    orUnchanged (fun s v => do made.outcome; verifyBatch s batch v) s v
  onElements "atts" (numberedIn s.scenario) check s v

/-! ## Changes -/

/-- The time that a step names, perhaps by its slot. -/
def timeIn (s : StoreSession) (v : Value) : Reply UInt64 := do
  match ← field? v "slot" plain with
  | some slot => orReport (Tick.unixSeconds ⟨slot⟩ s.scenario.config s.readings.genesisTime)
  | none => field v "time" plain

/-- A step that changes the store, or any other step. -/
def storeChange (s : StoreSession) (v : Value) (verb : String) : Reply (Value × StoreSession) := do
  let c := s.scenario
  let done (s : StoreSession) : Reply (Value × StoreSession) := .ok (changeReply .null s, s)
  match verb with
  | "begin" => done s.begin
  | "commit" => done s.commit
  | "rollback" => done s.rollback
  | "tick" => afterSilentChange (s.tick (← timeIn s v))
  | "block" => afterChange importValue (s.importBlock (← field v "block" (blockIn c)).block)
  | "attest" =>
    let a ← field v "att" (attestationIn c)
    afterChange write (s.attest (performIf (← fieldOr v "verify" plain false)) a)
  | "discard" => afterSilentChange s.discardVotes
  | verb =>
    if verb.startsWith "p_" then trackerStep s v verb
    else return (← storeQuestion s v verb, s)

/-- One step of a script. -/
def storeStep (s : StoreSession) (v : Value) : Reply Value × StoreSession :=
  match verb v with
  | .ok "verify_state" => verifyStep s v
  | _ =>
    let step (s : StoreSession) (v : Value) :=
      buildOr s.scenario (fun c => { s with scenario := c }) v (storeChange s v)
    orUnchanged step s v

/-- The replies of a script for a store. -/
def storeScript (v : Value) : Reply Value := do
  let c ← scenarioOf v
  let store ← c.anchorStore (← limitsOf v)
  let s : StoreSession := { scenario := c, store := store }
  return .list (runSteps storeStep s (← stepsOf v)).1

end

end Script

end ForkChoice
