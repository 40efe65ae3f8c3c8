import ForkChoice.Clock
import ForkChoice.Devnet.Building
import ForkChoice.Store.Error

/-!
# ForkChoice — what becomes of descriptions

Something that is described cannot always be made or done.

* `ScenarioError` — why not;
* `Attempt` — the outcome.
-/

namespace ForkChoice

namespace Devnet

/-- Why something that is described cannot be made or done. -/
inductive ScenarioError where
  | build (reason : BuildError)
  | tooLong (reason : TooLong)
  | signature (reason : SignatureError)
  | clock (reason : ClockError)
  | store (reason : StoreError)
  | validation (reason : ValidationError)
  | interrupted (text : String)
  | unreadable
  | unknownBlock (name : String)
  /-- A part of a description is missing, or does not fit the rest. -/
  | unfit (part : String)

/-- The outcome of something that is described. -/
abbrev Attempt (α : Type) := Outcome ScenarioError α

namespace Attempt

/-- An error in building is an error of the scenario. -/
def ofBuild {α : Type} (outcome : Outcome BuildError α) : Attempt α := outcome.mapError .build

/-- An error of a question about a state is an error of the scenario. -/
def ofQuery {α : Type} (outcome : Outcome QueryError α) : Attempt α :=
  outcome.mapError fun reason => .build (.query reason)

/-- An error with a signature is an error of the scenario. -/
def ofSignature {α : Type} : Except SignatureError α → Attempt α
  | .ok a => .ok a
  | .error reason => Outcome.fail (.signature reason)

/-- An error of the clock is an error of the scenario. -/
def ofClock {α : Type} : Except ClockError α → Attempt α
  | .ok a => .ok a
  | .error reason => Outcome.fail (.clock reason)

end Attempt

end Devnet

end ForkChoice
