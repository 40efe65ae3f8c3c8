import ForkChoice.Devnet.EngineSession
import ForkChoice.Script.Scenarios

/-!
# ForkChoice — scripts for an engine

A script that sends messages to an engine, and is told after every step what has become of them.

* `engineStep` — sends what a step asks for;
* `Observer` — who is told of new heads, imported blocks and new slots;
* `engineScript` — the whole script, with replies about the engine after every step;
* `queuedScript` — the whole script, with one reply about the engine at the end.
-/

namespace ForkChoice

namespace Script

open Devnet

/-- How the work of an engine ends. -/
def endingValue (failure : Option (Failure StoreError)) : Value :=
  match failureTexts failure with
  | [] => .text "stopped"
  | texts => write texts

/-- The time in nanoseconds at which scripts are played. -/
def playTime : Nat := 1700000000 * nanosPerSecond

/-- Reads a slot, or why the run of ticks is interrupted. -/
def tickSpec : Value → Reply TickSpec
  | .text reason => .ok (.interruption reason)
  | v => do return .slot (← plain v)

section

variable [HashFunction]

/-- Reads an attestation, the way on which it comes, and its number. -/
def receivedIn (s : EngineSession) (v : Value) : Reply (ReceivedAttestation × EngineSession) := do
  let a ← attestationIn s.scenario v
  let origin ← attestationOrigin (rootIn s.scenario) v
  return s.number a origin (← field? v "arrival" plain)

/-- Reads attestations that come one after another. -/
def receivedAllIn (s : EngineSession) : List Value → Reply (List Message × EngineSession)
  | [] => .ok ([], s)
  | v :: rest => do
    let (first, s) ← receivedIn s v
    let (others, s) ← receivedAllIn s rest
    return (.attestation first :: others, s)

variable [SignatureScheme]

/-- The engine that a script begins with. -/
def engineOf (v : Value) : Reply EngineSession := do
  EngineSession.start (← scenarioOf v) (← limitsOf v)

/-- Sends a block, attestations, perhaps the start of a slot, and more attestations at once. If the
slot has no time, that is the result, and everything else is sent. -/
def sendBurst (s : EngineSession) (v : Value) : Reply (Value × EngineSession) := do
  let b ← field v "block" (blockIn s.scenario)
  let (first, s) ← receivedAllIn s (← fieldOr v "atts" (listOf pure) [])
  let (more, s) ← receivedAllIn s (← fieldOr v "more" (listOf pure) [])
  let send (ticks : List Message) := s.send (.block b.block :: first ++ ticks ++ more)
  match ← field? v "slot" plain with
  | none => return (.null, send [])
  | some slot =>
    match s.startOfSlot slot with
    | .ok time => return (.null, send [.tick time])
    | .error failure => return (← inReply (fun _ => .null) (.error failure : Attempt Unit), send [])

/-- Sends what a step asks for. -/
def engineStep (s : EngineSession) (v : Value) (verb : String) :
    Reply (Value × EngineSession) := do
  let ticked (r : Attempt Unit × EngineSession) : Reply (Value × EngineSession) := do
    return (← inReply (fun _ => .null) r.1, r.2)
  match verb with
  | "start" | "close" => return (.null, s)
  | "tick" => return (.null, s.send [.tick (← field v "time" plain)])
  | "slot" => ticked (s.sendTicks [.slot (← field v "slot" plain)])
  | "ticks" => ticked (s.sendTicks (← field v "ticks" (listOf tickSpec)))
  | "block" =>
    let b ← field v "block" (blockIn s.scenario)
    return (.null, s.send [.block b.block])
  | "justified" =>
    return (.null, s.send [.justified (← field v "checkpoint" (checkpointIn s.scenario))])
  | "attest" =>
    let (a, s) ← field v "att" (receivedIn s)
    return (.null, s.send [.attestation a])
  | "run_clock" =>
    match awaitableTick s.store.config s.store.genesisTime playTime with
    | .ok _ => return (.text "limit", s)
    | .error reason => return (report reason, s)
  | "burst" => sendBurst s v
  | _ => meaningless "do"

end

/-! ## Observers -/

/-- Who is told of what happens, and how much of it has been told. -/
structure Observer where
  hearsHeads : Bool := true
  hearsNotices : Bool := true
  heads : Nat := 0
  notices : Nat := 0

namespace Observer

/-- The observer that a script asks for. -/
def ofScript (v : Value) : Reply Observer := do
  let sinks : String ← fieldOr v "sinks" plain "all"
  return { hearsHeads := sinks ≠ "none", hearsNotices := sinks = "all" }

/-- An observer who is told of nothing any more. -/
def deaf (o : Observer) : Observer := { o with hearsHeads := false, hearsNotices := false }

/-- The changes of the head that are new to the observer. -/
def newHeads (o : Observer) (e : Engine) : List HeadEvent :=
  if o.hearsHeads then e.tracker.published.drop o.heads else []

/-- The notices that are new to the observer. -/
def newNotices (o : Observer) (e : Engine) : List Notice :=
  if o.hearsNotices then e.notices.drop o.notices else []

/-- The observer after it has been told of everything. -/
def caughtUp (o : Observer) (e : Engine) : Observer :=
  { o with heads := e.tracker.published.length, notices := e.notices.length }

end Observer

/-- An engine and who is told of what happens. -/
structure ObservedEngine where
  session : EngineSession
  observer : Observer

namespace ObservedEngine

/-- The result of a step, what has happened, and the committed store. -/
def reply (s : ObservedEngine) (result : Value) : Value :=
  let e := s.session.run.engine
  .object ([("result", result), ("heads", .list ((s.observer.newHeads e).map headEventValue)),
    ("messages", .list ((s.observer.newNotices e).map noticeValue))] ++ storeFields e.store)

/-- One step of a script. -/
def step [HashFunction] [SignatureScheme] (s : ObservedEngine) (v : Value) :
    Reply (Value × ObservedEngine) :=
  let put (c : Scenario) : ObservedEngine := { s with session := { s.session with scenario := c } }
  buildOr s.session.scenario put v fun verb => do
    let (result, session) ← engineStep s.session v verb
    let observer := if verb = "close" then s.observer.deaf else s.observer
    let s : ObservedEngine := ⟨session, observer⟩
    return (s.reply result, { s with observer := observer.caughtUp session.run.engine })

end ObservedEngine

/-! ## Scripts -/

section

variable [HashFunction] [SignatureScheme]

/-- The replies of a script for an engine, and how the work of the engine ends. -/
def engineScript (v : Value) : Reply Value := do
  let s : ObservedEngine := ⟨← engineOf v, ← Observer.ofScript v⟩
  let (answers, s) := runSteps (orUnchanged ObservedEngine.step) s (← stepsOf v)
  return .object [("steps", .list answers), ("end", endingValue s.session.run.failure)]

/-- The replies of a script for an engine of which only the end is seen. -/
def queuedScript (v : Value) : Reply Value := do
  let step (s : EngineSession) (v : Value) : Reply (Value × EngineSession) :=
    buildOr s.scenario (fun c => { s with scenario := c }) v (engineStep s v)
  let (answers, s) := runSteps (orUnchanged step) (← engineOf v) (← stepsOf v)
  match s.run.failure with
  | some _ => .error .fault
  | none =>
    let e := s.run.engine
    return .object [("steps", .list answers),
      ("heads", .list (e.tracker.published.map headEventValue)),
      ("view", viewValue e.store.view), ("blocks", natural e.store.blockCount),
      ("calls", callsValue e.calls)]

end

end Script

end ForkChoice
