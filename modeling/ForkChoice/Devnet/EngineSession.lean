import ForkChoice.Devnet.Scenario
import ForkChoice.Engine.Message

/-!
# ForkChoice — working with an engine

An engine that is told of the blocks of a scenario and of attestations, slot by slot.

* `EngineSession.start` — begins with the first block;
* `EngineSession.send` — messages that arrive together;
* `EngineSession.startOfSlot` — the time at which a slot starts;
* `EngineSession.end` — how the work of the engine ends.
-/

namespace ForkChoice

namespace Devnet

/-- An engine and the scenario that it is told of. -/
structure EngineSession where
  scenario : Scenario
  run : Run
  /-- The number of attestations that have been sent. -/
  sent : Nat := 0

/-- Why an engine stops, the outermost reason first; nothing if it is told to. -/
def failureTexts : Option (Failure StoreError) → List String
  | none => []
  | some (.error reason) => ["mutator failed", reason.message]
  | some (.fault reason) => ["mutator panicked", reason.message]

/-- The slot, or why the run of ticks is interrupted. -/
inductive TickSpec where
  | slot (slot : Slot)
  | interruption (text : String)

namespace EngineSession

/-- The committed store. -/
def store (s : EngineSession) : Store := s.run.engine.store

/-- The time at which a slot starts. -/
def startOfSlot (s : EngineSession) (slot : Slot) : Attempt UInt64 :=
  .ofClock (Tick.unixSeconds ⟨slot⟩ s.store.config s.store.genesisTime)

section

variable [HashFunction] [SignatureScheme]

/-- Begins with the first block of a scenario. -/
def start (c : Scenario) (limits : StoreLimits) : Attempt EngineSession := do
  let run := Engine.start (← c.anchorStore limits)
  match run.failure with
  | some failure => .error (failure.map .store)
  | none => return { scenario := c, run := run }

/-- Sends messages that arrive together. -/
def send (s : EngineSession) (messages : List Message) : EngineSession :=
  { s with run := s.run.andThen (·.drain s.scenario.transition messages) }

/-- The start of a slot comes. -/
def sendSlot (s : EngineSession) (slot : Slot) : Attempt EngineSession := do
  return s.send [.tick (← s.startOfSlot slot)]

/-- The starts of slots come one after another, up to an interruption. -/
def sendTicks (s : EngineSession) : List TickSpec → Attempt Unit × EngineSession
  | [] => (.ok (), s)
  | .interruption text :: _ => (Outcome.fail (.interrupted text), s)
  | .slot slot :: rest =>
    match s.sendSlot slot with
    | .ok s => s.sendTicks rest
    | .error failure => (.error failure, s)

/-- The attestation as it reaches the engine, with a number if it has none. -/
def number (s : EngineSession) (a : Attestation) (origin : AttestationOrigin)
    (arrival : Option UInt64) : ReceivedAttestation × EngineSession :=
  (⟨a, origin, arrival.getD (UInt64.ofNat s.sent)⟩, { s with sent := s.sent + 1 })

end

end EngineSession

end Devnet

end ForkChoice
