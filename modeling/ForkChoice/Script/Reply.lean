import ForkChoice.Devnet.AttestationSpec
import ForkChoice.Pipeline.Rejection
import ForkChoice.Wire.Config
import ForkChoice.Wire.Container

/-!
# ForkChoice — requests and replies

A script is a document that asks for something to be done, and the reply is a document, too. An
error is a reply that names the kind of error and gives its text. After a fault, or a request
without a meaning, nothing more is done.

* `Halt`, `Reply` — why something is not done, and what comes of asking for it;
* `Reportable` — the errors that can be replied;
* `field`, `field?`, `fieldOr` — the parts of a request;
* `Readings` — what has been read before something could not be read;
* `runSteps` — the replies to several steps, each of which is done on what the last one left.
-/

namespace ForkChoice

namespace Script

open Devnet

/-- Why something is not done. -/
inductive Halt where
  /-- An error, which is the reply. -/
  | reply (value : Value)
  /-- The request has no meaning, perhaps because of the part of that name. -/
  | meaningless (part : Option String)
  | fault

/-- What comes of asking for something. -/
abbrev Reply := Except Halt

/-! ## Errors -/

/-- The reply that names an error. -/
def errorValue (kind message : String) : Value :=
  .object [("error", .text kind), ("message", .text message)]

/-- The reply to what ends in a fault. -/
def faultValue : Value := .object [("error", .text "panic")]

/-- The reply to a document of the wrong form. -/
def unreadableValue : Value := .object [("error", .text "Deserialize")]

/-- The reply that a halt amounts to. -/
def Halt.value : Halt → Value
  | .reply value => value
  | .meaningless part => errorValue "BadInput" (part.getD "")
  | .fault => faultValue

/-- A request that has no meaning because of the part of that name. -/
def meaningless {α : Type} (part : String) : Reply α := .error (.meaningless (some part))

/-- A document of a form that has no meaning. -/
def misshapen {α : Type} : Reply α := .error (.meaningless none)

/-- Names the part of a request that has no meaning, unless a part of that is named already. -/
def Reply.inPart {α : Type} (part : String) : Reply α → Reply α
  | .error (.meaningless none) => meaningless part
  | r => r

/-- The errors that can be replied. -/
class Reportable (ε : Type) where
  /-- What comes of an error. -/
  halt : ε → Halt

export Reportable (halt)

/-- The reply to an error. -/
def report {ε : Type} [Reportable ε] (e : ε) : Value := (halt e).value

/-- An error that is replied by its kind and its text. -/
def halted (kind message : String) : Halt := .reply (errorValue kind message)

instance : Reportable SignatureError := ⟨fun e => halted e.name e.message⟩
instance : Reportable TooLong := ⟨fun e => halted "TooLong" e.message⟩
instance : Reportable ClockError := ⟨fun e => halted e.name e.message⟩
instance : Reportable QueryError := ⟨fun e => halted "Error" e.message⟩
instance : Reportable TransitionError := ⟨fun e => halted e.name e.message⟩
instance : Reportable Rejection := ⟨fun e => halted e.name e.message⟩
instance : Reportable BitListTextError := ⟨fun e => halted "Deserialize" e.message⟩

instance : Reportable ValidationError where
  halt
    | .signature e => halt e
    | e => halted "Error" e.message

/-- What is said of an error of the store beside its kind and its text. -/
def storeErrorDetails : StoreError → List (String × Value)
  | .invalidAttestation _ source => [("source", .text source.message)]
  | .transition cause => [("cause", .text cause.name)]
  | _ => []

instance : Reportable StoreError where
  halt e := .reply (.object ([("error", .text e.name), ("message", .text e.message),
    ("delayable", .bool e.isDelayable), ("missing", write e.missingBlock?)] ++ storeErrorDetails e))

instance : Reportable BuildError where
  halt
    | .transition e => halt e
    | e => halted "Error" e.message

instance : Reportable ScenarioError where
  halt
    | .build e => halt e
    | .tooLong e => halt e
    | .signature e => halt e
    | .clock e => halt e
    | .store e => halt e
    | .validation e => halt e
    | .interrupted text => halted "Error" text
    | .unreadable => .reply unreadableValue
    | .unknownBlock _ => .meaningless (some "block")
    | .unfit part => .meaningless (some part)

instance : MonadLift (Except Fault) (Except Halt) where
  monadLift
    | .ok a => .ok a
    | .error _ => .error .fault

/-- An error is the reply, and a fault ends everything. -/
def ofOutcome {ε α : Type} [Reportable ε] : Outcome ε α → Reply α
  | .ok a => .ok a
  | .error (.error e) => .error (halt e)
  | .error (.fault _) => .error .fault

instance : MonadLift (Except (Failure QueryError)) (Except Halt) := ⟨ofOutcome⟩
instance : MonadLift (Except (Failure BuildError)) (Except Halt) := ⟨ofOutcome⟩
instance : MonadLift (Except (Failure StoreError)) (Except Halt) := ⟨ofOutcome⟩
instance : MonadLift (Except (Failure ScenarioError)) (Except Halt) := ⟨ofOutcome⟩

/-- An error is the reply. -/
def orReport {ε α : Type} [Reportable ε] : Except ε α → Reply α
  | .ok a => .ok a
  | .error e => .error (halt e)

/-- An error is reported as a part of the reply. -/
def inReply {ε α : Type} [Reportable ε] (f : α → Value) : Outcome ε α → Reply Value
  | .ok a => .ok (f a)
  | .error (.error e) => .ok (report e)
  | .error (.fault _) => .error .fault

/-! ## Parts of a request -/

/-- A part of a request, if it is there. -/
def part? (v : Value) (key : String) : Option Value :=
  match v with
  | .object fields => Value.find? key fields
  | _ => none

/-- A part of a request. -/
def part (v : Value) (key : String) : Reply Value :=
  match part? v key with
  | some value => .ok value
  | none => meaningless key

/-- Reads a part of a request. -/
def field {α : Type} (v : Value) (key : String) (read : Value → Reply α) : Reply α := do
  (read (← part v key)).inPart key

/-- Reads a part of a request, if it is there. -/
def field? {α : Type} (v : Value) (key : String) (read : Value → Reply α) : Reply (Option α) :=
  match part? v key with
  | some value => do return some (← (read value).inPart key)
  | none => .ok none

/-- Reads a part of a request, or takes `default` if it is not there. -/
def fieldOr {α : Type} (v : Value) (key : String) (read : Value → Reply α) (default : α) :
    Reply α := do
  return (← field? v key read).getD default

/-- Reads an object of the chain. -/
def document {α : Type} [Wire α] (v : Value) : Reply α :=
  match read? v with
  | some a => .ok a
  | none => .error (.reply unreadableValue)

/-- Reads a value whose form is taken for granted. -/
def plain {α : Type} [Wire α] (v : Value) : Reply α :=
  match read? v with
  | some a => .ok a
  | none => misshapen

/-- Reads a list. -/
def listOf {α : Type} (read : Value → Reply α) : Value → Reply (List α)
  | .list values => values.mapM read
  | _ => misshapen

/-- Reads a list of two. -/
def pairOf {α β : Type} (readFirst : Value → Reply α) (readSecond : Value → Reply β) :
    Value → Reply (α × β)
  | .list [a, b] => do return (← readFirst a, ← readSecond b)
  | _ => misshapen

/-! ## What comes before something unreadable -/

/-- What has been read in order, up to something that cannot be read, and why that cannot. -/
structure Readings (α : Type) where
  items : List α := []
  outcome : Reply Unit := .ok ()

namespace Readings

variable {α β : Type}

/-- Reads on unless something could not be read. -/
def append (a b : Readings α) : Readings α :=
  match a.outcome with
  | .ok () => ⟨a.items ++ b.items, b.outcome⟩
  | .error _ => a

instance : Append (Readings α) := ⟨append⟩

/-- What has been read at once, or nothing. -/
def ofReply : Reply (List α) → Readings α
  | .ok items => ⟨items, .ok ()⟩
  | .error halt => ⟨[], .error halt⟩

/-- Reads something for every element of a list. -/
def each (read : β → Readings α) (values : List β) : Readings α :=
  values.foldr (fun v rest => read v ++ rest) {}

/-- Reads the elements of a list. -/
def elements (read : Value → Reply α) (values : List Value) : Readings α :=
  each (fun v => ofReply ((read v).map ([·]))) values

/-- Reads a part of a request, if it is there. -/
def ofField? (v : Value) (key : String) (read : Value → Reply β) (f : β → α) : Readings α :=
  ofReply ((field? v key read).map fun b => (b.map f).toList)

/-- Reads the elements of a list that is a part of a request, if it is there. -/
def ofList? (v : Value) (key : String) (read : Value → Readings α) : Readings α :=
  match fieldOr v key (listOf pure) [] with
  | .ok values => each read values
  | .error halt => ⟨[], .error halt⟩

end Readings

/-! ## Steps -/

/-- The replies to steps, up to one that ends everything, and what the steps leave. -/
def runSteps {σ : Type} (step : σ → Value → Reply Value × σ) : σ → List Value → List Value × σ
  | s, [] => ([], s)
  | s, v :: rest =>
    match step s v with
    | (.error (.reply reply), s) => ((runSteps step s rest).map (reply :: ·) id)
    | (.error halt, s) => ([halt.value], s)
    | (.ok reply, s) => ((runSteps step s rest).map (reply :: ·) id)

/-- A step that changes nothing if it fails. -/
def orUnchanged {σ : Type} (step : σ → Value → Reply (Value × σ)) (s : σ) (v : Value) :
    Reply Value × σ :=
  match step s v with
  | .ok (reply, s) => (.ok reply, s)
  | .error halt => (.error halt, s)

/-- A step on the elements of a list. If one of them cannot be read, the step is done on those in
front of it, and is told why there are no more. -/
def onElements {σ α : Type} (key : String) (read : Value → Reply α)
    (step : σ → Readings α → Reply Value × σ) (s : σ) (v : Value) : Reply Value × σ :=
  match field v key (listOf pure) with
  | .error halt => (.error halt, s)
  | .ok values => step s (.elements read values)

/-- The steps of a script. -/
def stepsOf (v : Value) : Reply (List Value) := field v "steps" (listOf pure)

/-- What a step asks for. -/
def verb (v : Value) : Reply String := field v "do" plain

/-- The replies to the steps of a script that begins with `s`, none of which changes anything if it
fails. -/
def replies {σ : Type} (v : Value) (s : σ) (step : σ → Value → Reply (Value × σ)) :
    Reply Value := do
  return .list (runSteps (orUnchanged step) s (← stepsOf v)).1

end Script

end ForkChoice
