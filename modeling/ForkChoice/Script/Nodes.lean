import ForkChoice.Pipeline.Node
import ForkChoice.Script.Engines

/-!
# ForkChoice — scripts for a node

A script that submits attestations for verification next to an engine that imports blocks.

* `NodeSession.act` — does what a step asks for, `NodeSession.submit` — submits attestations;
* `nodeScript` — the whole script.
-/

namespace ForkChoice

namespace Script

open Devnet

variable [HashFunction] [SignatureScheme]

/-- A node, the scenario that it is told of, and how many events have been told. -/
structure NodeSession where
  scenario : Scenario
  node : Node
  events : Nat := 0

/-- The order of events: by attestation, and for each one by stage. -/
def eventOrder (a b : PipelineEvent) : Bool :=
  decide (a.attestation.arrival < b.attestation.arrival)
    || (a.attestation.arrival == b.attestation.arrival && (compare a.stage b.stage).isLE)

namespace NodeSession

/-- Does what a step asks for. -/
def act (s : NodeSession) (v : Value) (verb : String) : Reply (Value × Node) := do
  let t := s.scenario.transition
  match verb with
  | "start" => return (.null, s.node)
  | "slot" =>
    let store := s.node.run.engine.store
    match Tick.unixSeconds ⟨← field v "slot" plain⟩ store.config store.genesisTime with
    | .ok time => return (.null, s.node.tell t (.tick time))
    | .error reason => return (report reason, s.node)
  | "block" =>
    let b ← field v "block" (blockIn s.scenario)
    return (.null, s.node.tell t (.block b.block))
  | "finish" => return (.null, s.node.close t)
  | _ => meaningless "do"

/-- The result of a step, what the stages have found out, and the committed store. -/
def reply (s : NodeSession) (result : Value) : Value :=
  let e := s.node.run.engine
  let news := (s.node.pipeline.events.drop s.events).mergeSort eventOrder
  .object ([("result", result), ("events", .list (news.map pipelineEventValue)),
    ("head", optional headEventValue e.tracker.published.getLast?)] ++ storeFields e.store)

/-- The reply to a step after which the node is `node`; its events have been told of then. -/
def tell (s : NodeSession) (result : Value) (node : Node) : Value × NodeSession :=
  let s := { s with node := node }
  (s.reply result, { s with events := node.pipeline.events.length })

/-- Submits attestations. Those in front of one that cannot be made stay submitted, and are told of
with the next step. -/
def submit (s : NodeSession) (made : Readings (Attestation × AttestationOrigin)) :
    Reply Value × NodeSession :=
  if s.node.closed ∧ ¬ made.items.isEmpty then
    (s.tell (errorValue "Error" "attestation verifier has been stopped") s.node).map .ok id
  else
    let t := s.scenario.transition
    let node := made.items.foldl (fun n (a, origin) => n.submit t a origin) s.node
    match made.outcome with
    | .ok () => (s.tell .null node).map .ok id
    | .error halt => (.error halt, { s with node := node })

/-- Reads an attestation and the way on which it comes. -/
def submittedIn (c : Scenario) (v : Value) : Reply (Attestation × AttestationOrigin) := do
  return (← attestationIn c v, ← attestationOrigin (rootIn c) v)

/-- One step of a script. -/
def step (s : NodeSession) (v : Value) : Reply Value × NodeSession :=
  match verb v with
  | .ok "submit" => onElements "atts" (submittedIn s.scenario) submit s v
  | _ =>
    let step (s : NodeSession) (v : Value) : Reply (Value × NodeSession) :=
      buildOr s.scenario (fun c => { s with scenario := c }) v fun verb => do
        let (result, node) ← s.act v verb
        return s.tell result node
    orUnchanged step s v

end NodeSession

/-- How much other work is done while the signatures of several attestations are being checked. -/
def batchOverlap : Nat := 2

/-- The node that a script begins with. It waits for the check of a batch of one attestation. -/
def nodeOf (v : Value) (run : Run) : Reply Node := do
  let size : Nat ← fieldOr v "batch_size" plain 1
  let limits : WindowLimits := ⟨size, 3600 * nanosPerSecond⟩
  let pool : UnknownBlockPool := { capacity := ← fieldOr v "pool_size" plain 1024 }
  let overlap := if size ≤ 1 then 0 else batchOverlap
  return { run := run, pipeline := { limits := limits, pool := pool, overlap := overlap } }

/-- How the work of those ends who verify attestations. -/
def verifierValue : Option Fault → Value
  | none => .text "stopped"
  | some fault => write ["attestation-state thread panicked", fault.message]

/-- The replies of a script for a node, and how its parts end when no more attestations come. -/
def nodeScript (v : Value) : Reply Value := do
  let engine ← engineOf v
  let s : NodeSession := ⟨engine.scenario, ← nodeOf v engine.run, 0⟩
  let (answers, s) := runSteps NodeSession.step s (← stepsOf v)
  let node := s.node.close s.scenario.transition
  return .object [("steps", .list answers), ("verifier", verifierValue node.fault),
    ("end", endingValue node.run.failure)]

end Script

end ForkChoice
