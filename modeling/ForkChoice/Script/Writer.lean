import ForkChoice.Engine.Basic
import ForkChoice.Pipeline.Basic
import ForkChoice.Script.Reply

/-!
# ForkChoice — what replies consist of

The parts of replies that are common to several kinds of script.
-/

namespace ForkChoice

namespace Script

/-- A number. -/
def natural (n : Nat) : Value := .integer n

/-- A checkpoint as a list of its parts. -/
def checkpointValue (c : Checkpoint) : Value := .list [write c.epoch, write c.root]

/-- A vote as a list of its parts. -/
def messageValue (m : LatestMessage) : Value := .list [write m.epoch, write m.root]

/-- A value, or nothing. -/
def optional {α : Type} (f : α → Value) : Option α → Value
  | some a => f a
  | none => .null

/-- All votes, each with the index of the validator. -/
def votesValue (m : LatestMessages) : Value :=
  .list (m.toList.map fun (index, message) =>
    .list [write index, write message.epoch, write message.root])

/-- The announcement of a new head. -/
def headEventValue (e : HeadEvent) : Value :=
  .list [write e.root, write e.stateRoot, write e.slot]

/-- The times and checkpoints that can be read from a store. -/
def viewValue (v : StoreView) : Value :=
  .object [("time", write v.time), ("slot", write v.currentSlot),
    ("epochs", .list [write v.previousEpoch, write v.currentEpoch]),
    ("justified", checkpointValue v.justified),
    ("best_justified", checkpointValue v.bestJustified),
    ("finalized", checkpointValue v.finalized), ("finalized_slot", write v.finalizedSlot)]

/-- What is told of a committed store. -/
def storeFields (s : Store) : List (String × Value) :=
  [("view", viewValue s.view), ("blocks", natural s.blockCount),
    ("latest", votesValue s.latestMessages)]

/-- How often the rules of transition have been applied. -/
def callsValue (c : TransitionCalls) : Value :=
  .list [natural c.processSlots, natural c.applyBlock]

/-- What those who verify attestations are told. -/
def noticeValue : Notice → Value
  | .blockImported root => .list [.text "block", write root]
  | .slotBegan slot => .list [.text "slot", write slot]

/-- What a stage has found out about an attestation. -/
def pipelineEventValue (e : PipelineEvent) : Value :=
  .list [write e.attestation.arrival, .text e.stage.name, optional report e.rejection]

end Script

end ForkChoice
