/-!
# ForkChoice — checked computation

Quantities of the chain (slots, epochs, indices, balances, times) are 64-bit words, and a sum or
product that does not fit is never wrapped: the computation stops with a **fault**. A fault is
not an answer of the domain, so it is kept apart from the errors that an operation reports.

* `Fault` — why a computation could not be carried out;
* `Checked α` — a value or a fault;
* `Outcome ε α` — a value, an error `ε` of the domain, or a fault;
* `Word.add`, `Word.sub`, `Word.mul` — arithmetic that faults where the result does not fit,
  `Word.satSub`, `Word.satMul` — arithmetic that stops at the nearest bound.
-/

namespace ForkChoice

/-- Why a computation could not be carried out. -/
inductive Fault where
  | addOverflow
  | subOverflow
  | mulOverflow
  | outOfBounds (length index : Nat)
  | violated (statement : String)
  deriving Repr, DecidableEq, Inhabited

/-- The text that reports a fault. -/
def Fault.message : Fault → String
  | .addOverflow => "attempt to add with overflow"
  | .subOverflow => "attempt to subtract with overflow"
  | .mulOverflow => "attempt to multiply with overflow"
  | .outOfBounds length index =>
    s!"index out of bounds: the len is {length} but the index is {index}"
  | .violated statement => statement

/-- A value, or the fault that prevented it. -/
abbrev Checked (α : Type) := Except Fault α

/-- What an operation reports in place of a value: an error of the domain, or a fault. -/
inductive Failure (ε : Type) where
  | fault (reason : Fault)
  | error (reason : ε)
  deriving Repr, DecidableEq, Inhabited

/-- A value, an error of the domain, or a fault. -/
abbrev Outcome (ε α : Type) := Except (Failure ε) α

namespace Failure

variable {ε ε' : Type}

/-- Rewords the error of the domain and leaves a fault as it is. -/
def map (f : ε → ε') : Failure ε → Failure ε'
  | .fault reason => .fault reason
  | .error reason => .error (f reason)

end Failure

namespace Checked

/-- A fault is a possible outcome of every operation. -/
def toOutcome {ε α : Type} : Checked α → Outcome ε α
  | .ok a => .ok a
  | .error reason => .error (.fault reason)

/-- The element at `index`, which callers take to be there. -/
def getAt {α : Type} (xs : Array α) (index : Nat) : Checked α :=
  match xs[index]? with
  | some x => .ok x
  | none => .error (.outOfBounds xs.size index)

/-- `xs` with the element at `index`, which callers take to be there, replaced. -/
def setAt {α : Type} (xs : Array α) (index : Nat) (x : α) : Checked (Array α) :=
  if index < xs.size then .ok (xs.setIfInBounds index x)
  else .error (.outOfBounds xs.size index)

/-- Goes on only if `condition` holds. -/
def require (condition : Bool) (statement : String) : Checked Unit :=
  if condition then .ok () else .error (.violated statement)

end Checked

instance {ε : Type} : MonadLift (Except Fault) (Except (Failure ε)) where
  monadLift := Checked.toOutcome

namespace Outcome

variable {ε ε' α : Type}

/-- The outcome of an operation that reports `reason`. -/
def fail (reason : ε) : Outcome ε α := .error (.error reason)

/-- Rewords the error that an operation reports. -/
def mapError (f : ε → ε') : Outcome ε α → Outcome ε' α
  | .ok a => .ok a
  | .error failure => .error (failure.map f)

/-- Gives `reason` in place of whatever error an operation reports. -/
def orFail (reason : ε') (outcome : Outcome ε α) : Outcome ε' α :=
  outcome.mapError fun _ => reason

end Outcome

/-! ## Words -/

namespace Checked

/-- The sum of two numbers, which has to fit into a word. -/
def sum (a b : Nat) : Checked Nat :=
  if a + b < UInt64.size then .ok (a + b) else .error .addOverflow

/-- The product of two numbers, which has to fit into a word. -/
def product (a b : Nat) : Checked Nat :=
  if a * b < UInt64.size then .ok (a * b) else .error .mulOverflow

end Checked

namespace Word

/-- The greatest word. -/
def greatest : UInt64 := 18446744073709551615

/-- The sum, which has to fit. -/
def add (a b : UInt64) : Checked UInt64 :=
  if a.toNat + b.toNat < UInt64.size then .ok (a + b) else .error .addOverflow

/-- The difference, which must not be negative. -/
def sub (a b : UInt64) : Checked UInt64 :=
  if b ≤ a then .ok (a - b) else .error .subOverflow

/-- The product, which has to fit. -/
def mul (a b : UInt64) : Checked UInt64 :=
  if a.toNat * b.toNat < UInt64.size then .ok (a * b) else .error .mulOverflow

/-- The difference, or zero where it would be negative. -/
def satSub (a b : UInt64) : UInt64 :=
  if b ≤ a then a - b else 0

/-- The product, or the greatest word where it does not fit. -/
def satMul (a b : UInt64) : UInt64 :=
  if a.toNat * b.toNat < UInt64.size then a * b else greatest

/-- The sum if it fits. -/
def add? (a b : UInt64) : Option UInt64 :=
  if a.toNat + b.toNat < UInt64.size then some (a + b) else none

/-- The difference if it is not negative. -/
def sub? (a b : UInt64) : Option UInt64 :=
  if b ≤ a then some (a - b) else none

/-- The product if it fits. -/
def mul? (a b : UInt64) : Option UInt64 :=
  if a.toNat * b.toNat < UInt64.size then some (a * b) else none

end Word

end ForkChoice
