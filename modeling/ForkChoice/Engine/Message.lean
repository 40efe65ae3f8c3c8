import ForkChoice.Engine.Blocks

/-!
# ForkChoice — messages to the engine

* `Message` — what the engine is told;
* `Inbox` — the messages that are to be handled: attestations in a row that are there already
  are handled as one burst;
* `Engine.handle` — one message or burst, `Engine.drain` — all that there is.
-/

namespace ForkChoice

/-- What the engine is told. -/
inductive Message where
  | tick (time : UInt64)
  | block (block : Block)
  | attestation (attestation : ReceivedAttestation)
  | justified (checkpoint : Checkpoint)

/-- What the engine handles at once: a message, or attestations in a row. -/
inductive Delivery where
  | tick (time : UInt64)
  | block (block : Block)
  | burst (attestations : List ReceivedAttestation)
  | justified (checkpoint : Checkpoint)

/-! ## The inbox -/

/-- The messages that are to be handled. -/
structure Inbox where
  /-- A message that has ended a burst; it is the next one. -/
  held : Option Message := none
  queue : List Message := []

namespace Inbox

/-- The next message. -/
def receive? (i : Inbox) : Option (Message × Inbox) :=
  match i.held with
  | some message => some (message, { i with held := none })
  | none =>
    match i.queue with
    | [] => none
    | message :: rest => some (message, { i with queue := rest })

/-- Takes those attestations that are next among the first `ready` messages of a queue; the
message that comes after them is held if it is among these messages, too. -/
def gather : Nat → List Message → List ReceivedAttestation × Inbox
  | 0, queue => ([], { queue := queue })
  | _ + 1, [] => ([], {})
  | ready + 1, .attestation a :: rest =>
    let (attestations, inbox) := gather ready rest
    (a :: attestations, inbox)
  | _ + 1, message :: rest => ([], { held := some message, queue := rest })

/-- What is handled next, if `ready` further messages can be received without waiting. -/
def next? (ready : Nat) (i : Inbox) : Option (Delivery × Inbox) :=
  match i.receive? with
  | none => none
  | some (.tick time, i) => some (.tick time, i)
  | some (.block block, i) => some (.block block, i)
  | some (.justified checkpoint, i) => some (.justified checkpoint, i)
  | some (.attestation a, i) =>
    let (attestations, i) := gather ready i.queue
    some (.burst (a :: attestations), i)

/-- The number of messages. -/
def size (i : Inbox) : Nat := (if i.held.isSome then 1 else 0) + i.queue.length

end Inbox

/-! ## Handling -/

namespace Engine

variable [HashFunction] [SignatureScheme]

/-- Tells of a new slot. -/
def announceSlot (previous current : Slot) (e : Engine) : Engine :=
  if previous < current then e.notify (.slotBegan current) else e

/-- Takes the blocks that have waited for slots up to `slot`, and imports them. -/
def releaseBlocks (t : StateTransition) (slot : Slot) (e : Engine) : Run :=
  let (due, waiting) := e.waiting.takeUntilSlot slot
  { e with waiting := waiting }.processBlocks t (due.map PendingBlock.retry)

/-- Takes the attestations that have waited for a tick, and applies them. -/
def releaseUntilTick (t : StateTransition) (e : Engine) : Run :=
  let (released, waiting) := e.waiting.takeUntilTick
  { e with waiting := waiting }.processAttestations t released

/-- Moves on in time, and lets go on what has waited for it. -/
def handleTick (t : StateTransition) (e : Engine) (time : UInt64) : Run :=
  let previous := e.store.view.currentSlot
  let e := e.publish ((Draft.ofStore e.store).tick time)
  let current := e.store.view.currentSlot
  ((e.refreshHead.andThen fun e => ⟨e.announceSlot previous current, none⟩).andThen
    (releaseBlocks t current)).andThen (releaseUntilTick t)

/-- Handles a message or a burst. -/
def handle (t : StateTransition) (e : Engine) : Delivery → Run
  | .tick time => e.handleTick t time
  | .block block => e.processBlocks t [{ block := block }]
  | .burst attestations => e.processAttestations t attestations
  | .justified checkpoint => e.adoptJustified checkpoint

/-- Handles what is in the inbox, of which everything can be received without waiting. -/
def drainFrom (t : StateTransition) : Nat → Inbox → Engine → Run
  | 0, _, e => ⟨e, none⟩
  | fuel + 1, inbox, e =>
    match inbox.next? inbox.size with
    | none => ⟨e, none⟩
    | some (delivery, inbox) => (e.handle t delivery).andThen (drainFrom t fuel inbox)

/-- Handles messages that have all arrived before the first one is handled. -/
def drain (t : StateTransition) (e : Engine) (messages : List Message) : Run :=
  drainFrom t messages.length { queue := messages } e

end Engine

end ForkChoice
