/-!
# ForkChoice — reports of threads

What is reported when a thread ends other than by plan.

* `PanicPayload` — what a thread leaves that panics, `PanicPayload.message` — its text;
* `panicLine` — the line that is logged;
* `ThreadResult.errors` — the texts of what went wrong, the outermost first.
-/

namespace ForkChoice

/-- What a thread leaves that panics. -/
inductive PanicPayload where
  | text (message : String)
  | other
  deriving Repr, DecidableEq

/-- The text for what a thread leaves that panics. -/
def PanicPayload.message : PanicPayload → String
  | .text message => message
  | .other => "panic with payload of unknown type"

/-- The name of a thread, which may have none. -/
def threadName (name : Option String) : String := name.getD "<unnamed>"

/-- The line that is logged for a thread that panics. -/
def panicLine (thread : Option String) (payload : PanicPayload) : String :=
  "thread " ++ threadName thread ++ " panicked: " ++ payload.message

/-- How a thread ends. -/
inductive ThreadResult (α : Type) where
  | finished (value : α)
  | failed (message : String)
  | panicked (payload : PanicPayload)
  deriving Repr, DecidableEq

/-- The value of a thread, or the texts of what went wrong, the outermost first. -/
def ThreadResult.join {α : Type} (thread : Option String) : ThreadResult α → Except (List String) α
  | .finished value => .ok value
  | .failed message => .error ["thread " ++ threadName thread ++ " failed", message]
  | .panicked payload => .error [payload.message]

end ForkChoice
