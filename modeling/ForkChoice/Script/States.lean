import ForkChoice.Script.Reader
import ForkChoice.Script.Writer

/-!
# ForkChoice — scripts for one state

A script that asks questions about one state and makes it move on. Operations that move the state
on may leave a changed state even if they fail.

* `stateQuestion` — the questions;
* `stateStep` — the questions and the operations;
* `stateScript` — the whole script.
-/

namespace ForkChoice

namespace Script

open Devnet

/-- Reads an epoch that is given relative to a state. -/
def relativeEpoch (v : Value) : Reply RelativeEpoch := do
  let name : String ← plain v
  match name with
  | "previous" => return .previous
  | "current" => return .current
  | "next" => return .next
  | _ => misshapen

/-- Reads what a signature is under. -/
def signatureKind (v : Value) : Reply SignatureKind := do
  let name : String ← plain v
  match name with
  | "attestation" => return .attestation
  | "block" => return .block
  | "multi" => return .multi
  | _ => misshapen

/-- Reads when slots are processed in front of a block. -/
def slotPolicy (v : Value) : Reply SlotPolicy := do
  let name : String ← plain v
  match name with
  | "if_needed" => return .ifNeeded
  | "always" => return .always
  | "never" => return .never
  | _ => misshapen

/-- The reply to a check that succeeds. -/
def validReply (result : Except ValidationError Unit) : Reply Value := do
  orReport result
  return .text "valid"

/-- A state and the network that it belongs to. -/
structure StateScene where
  preset : Preset
  config : Config
  state : BeaconState

namespace StateScene

/-- Every name stands for the one state. -/
def context (c : StateScene) : SpecContext where
  preset := c.preset
  config := c.config
  state? _ := some c.state
  root? _ := none

section

variable [HashFunction]

/-- What is told of the state. -/
def view (c : StateScene) : Reply Value := do
  let s := c.state
  return .object [("slot", write s.slot), ("root", write (← s.treeRoot c.preset)),
    ("header_slot", write s.latestBlockHeader.slot),
    ("header_state_root", write s.latestBlockHeader.stateRoot),
    ("latest_block_root", write (← latestBlockRoot c.preset s))]

/-- The attestation that a step is about. -/
def attestation (c : StateScene) (v : Value) : Reply Attestation :=
  field v "att" (Script.attestation c.context)

/-- The block that a step is about: a given one or one without attestations, with some changes. -/
def block (c : StateScene) (v : Value) : Reply Block := do
  let base ← match part? v "block" with
    | some b => document b
    | none => do
      let slot ← field v "slot" plain
      let graffiti ← fieldOr v "graffiti" root 0
      pure (← buildBlock c.preset c.state slot graffiti []).1
  (← fieldOr v "tweak" blockPatch {}).apply c.context base

end

section

variable [HashFunction] [SignatureScheme]

/-- Answers a question about committees and validators. -/
def registryQuestion (c : StateScene) (v : Value) (verb : String) : Reply Value := do
  let p := c.preset
  let s := c.state
  match verb with
  | "public_key" =>
    let key ← s.publicKey (← field v "index" plain)
    return .object [("bytes", write key), ("valid", .bool (SignatureScheme.readKey? key).isSome)]
  | "active" =>
    return write (s.activeIndices (← s.absoluteEpoch p (← field v "relative" relativeEpoch)))
  | "active_at" =>
    let epoch ← field v "epoch" plain
    return write (s.validators.toList.map fun x => x.isActive epoch)
  | "committee_count" =>
    return write (← s.committeesPerSlot p (← field v "relative" relativeEpoch))
  | "committee" =>
    return write (← s.committee p (← field v "slot" plain) (← fieldOr v "index" plain 0))
  | "proposer" => return write (← s.proposer p)
  | "proposer_from" =>
    let indices ← field v "indices" plain
    return write (← proposerIndex p s.validators indices (← field v "seed" root))
  | "positions" =>
    let validators ← field v "validators" plain
    let index ← fieldOr v "index" plain 0
    return write (← committeePositions p s (← field v "slot" plain) index validators)
  | _ => meaningless "do"

/-- Answers a question about epochs, history and domains. -/
def historyQuestion (c : StateScene) (v : Value) (verb : String) : Reply Value := do
  let p := c.preset
  let s := c.state
  match verb with
  | "view" => c.view
  | "epochs" =>
    return .list [write (s.previousEpoch p), write (s.currentEpoch p), write (← s.nextEpoch p)]
  | "absolute_epoch" =>
    return write (← s.absoluteEpoch p (← field v "relative" relativeEpoch))
  | "attestation_epoch" =>
    return .text (← s.attestationEpoch p (← field v "epoch" plain)).name
  | "relative_epoch" => return .text (← s.relativeEpoch p (← field v "epoch" plain)).name
  | "block_root" => return write (← s.blockRootAt p (← field v "slot" plain))
  | "randao_mix" => return write (← s.randaoMix p (← field v "epoch" plain))
  | "domain" =>
    let use ← field v "domain_type" document
    return write (s.domain p c.config use (← field? v "epoch" plain))
  | verb => c.registryQuestion v verb

/-- Answers a question about attestations and signatures. -/
def question (c : StateScene) (v : Value) (verb : String) : Reply Value := do
  let p := c.preset
  let s := c.state
  match verb with
  | "attesting" =>
    let a ← c.attestation v
    return write (← s.attestingIndices p a.data a.aggregationBits)
  | "indexed" =>
    let x ← s.indexed p (← c.attestation v)
    return .object [("indices", write x.attestingIndices), ("root", write (← x.treeRoot))]
  | "attestation" =>
    let a ← c.attestation v
    return .object [("root", write (← a.treeRoot)), ("value", write a)]
  | "attestation_data" =>
    let index ← fieldOr v "index" plain 0
    let d ← attestationData p s (← field v "slot" plain) index
    return .object [("value", write d), ("root", write d.treeRoot),
      ("signing_root", write (d.signingRoot p c.config s))]
  | "validate" =>
    let a ← c.attestation v
    let x : IndexedAttestation ← match ← field? v "indices" plain with
      | some indices => pure ⟨indices, a.data, a.signature⟩
      | none => s.indexed p a
    let check := performIf (← fieldOr v "verify" plain false)
    validReply (x.validate p c.config s check (← fieldOr v "received" plain false))
  | "sign" =>
    let a ← c.attestation v
    let key ← (← field v "key" keySpec).resolve
    let message := Bytes.ofBitVec (a.data.signingRoot p c.config s)
    return write (key.sign message).toBytes
  | "verify" =>
    let a ← c.attestation v
    let key ← s.publicKey (← field v "index" plain)
    let message := a.data.signingRoot p c.config s
    validReply (SignatureCheck.perform.one message a.signature key .attestation)
  | "verify_singular" =>
    let message ← field v "message" root
    let signature ← (← field v "signature" signatureSpec).resolve
    let key ← s.publicKey (← field v "index" plain)
    let check := performIf (!(← fieldOr v "null" plain false))
    let kind ← fieldOr v "kind" signatureKind .attestation
    validReply (check.one message signature key kind)
  | "verify_aggregate" =>
    let message ← field v "message" root
    let signature ← (← field v "signature" signatureSpec).resolve
    let indices : List UInt64 ← field v "indices" plain
    let keys ← orReport (indices.mapM s.readKey)
    let check := performIf (!(← fieldOr v "null" plain false))
    let kind ← fieldOr v "kind" signatureKind .attestation
    validReply (check.all message signature (fun _ => .ok keys) kind)
  | verb => c.historyQuestion v verb

/-- The reply after an operation that may have changed the state even if it has failed. -/
def after (c : StateScene) (r : Progress) : Reply Value × BeaconState :=
  match ofOutcome r.result with
  | .ok () => ({ c with state := r.state }.view, r.state)
  | .error halt => (.error halt, r.state)

/-- An operation that moves the state on, or none if the step asks for none. -/
def operation (c : StateScene) (v : Value) (verb : String) :
    Reply (Option (Reply Value × BeaconState)) := do
  let p := c.preset
  let s := c.state
  match verb with
  | "process_slots" => return some (c.after (s.processSlots p (← field v "slot" plain)))
  | "process_slot" =>
    let s ← s.processSlot p
    return some ({ c with state := s }.view, s)
  | "header" => return some (c.after (s.processHeader p (← c.block v)))
  | "transition" =>
    let policy ← fieldOr v "slots" slotPolicy .ifNeeded
    let trust ← fieldOr v "trust" plain false
    return some (c.after (s.applyBlock p (← c.block v) policy trust))
  | "set" =>
    let changes := laterChanges v
    let (s, made) := StateChange.applyAll p s changes.items
    return some (do ofOutcome made; changes.outcome; return .null, s)
  | _ => return none

/-- One step of a script. -/
def step (c : StateScene) (v : Value) : Reply Value × BeaconState :=
  match verb v with
  | .error halt => (.error halt, c.state)
  | .ok verb =>
    match c.operation v verb with
    | .error halt => (.error halt, c.state)
    | .ok (some result) => result
    | .ok none => (c.question v verb, c.state)

end

end StateScene

/-- The replies of a script for one state. -/
def stateScript [HashFunction] [SignatureScheme] (v : Value) : Reply Value := do
  let p ← presetOf v
  let config ← configOf p v
  let s ← stateOf p config v
  let step (s : BeaconState) (v : Value) := StateScene.step ⟨p, config, s⟩ v
  return .list (runSteps step s (← stepsOf v)).1

end Script

end ForkChoice
