import ForkChoice.Proofs.Outcome

/-!
# ForkChoice — where faults come from

A fault is not an answer, so the first question about an operation is whether it can end with one.
An operation that binds others faults if the first of them does, or a later one after those before
it have given their values; reporting an error, rewording it and checking a condition never fault.
With these lemmas the question about an operation becomes one about the checked computations in it.

* `Failure.fault?`, `Outcome.fault?` — the fault with which an operation ends;
* `Outcome.fault?_bind`, `Outcome.fault?_guard` — operations with several parts;
* `Outcome.bind_faultless` — an operation none of whose parts faults.
-/

namespace ForkChoice

variable {ε ε' α β : Type}

/-- The fault, if a failure is one. -/
def Failure.fault? : Failure ε → Option Fault
  | .fault reason => some reason
  | .error _ => none

@[simp] theorem Failure.fault?_map (f : ε → ε') (failure : Failure ε) :
    (failure.map f).fault? = failure.fault? := by
  cases failure <;> rfl

namespace Outcome

/-- The fault with which an operation ends, if it ends with one. -/
def fault? : Outcome ε α → Option Fault
  | .error failure => failure.fault?
  | .ok _ => none

theorem fault?_eq_some {x : Outcome ε α} {reason : Fault} :
    x.fault? = some reason ↔ x = .error (.fault reason) := by
  obtain (_ | _) | _ := x <;> simp [fault?, Failure.fault?]

theorem fault?_ne_some {x : Outcome ε α} {reason : Fault} (h : x.fault? = none) :
    ¬x.fault? = some reason := by
  rw [h]
  exact nofun

@[simp] theorem fault?_ok (a : α) : fault? (.ok a : Outcome ε α) = none :=
  rfl

@[simp] theorem fault?_pure (a : α) : (pure a : Outcome ε α).fault? = none :=
  rfl

@[simp] theorem fault?_fail (reason : ε) : (fail reason : Outcome ε α).fault? = none :=
  rfl

@[simp] theorem fault?_error (failure : Failure ε) :
    fault? (.error failure : Outcome ε α) = failure.fault? :=
  rfl

@[simp] theorem fault?_mapError (f : ε → ε') (x : Outcome ε α) :
    (x.mapError f).fault? = x.fault? := by
  obtain (_ | _) | _ := x <;> rfl

@[simp] theorem fault?_toOutcome {c : Checked α} {reason : Fault} :
    (c.toOutcome : Outcome ε α).fault? = some reason ↔ c = .error reason := by
  rw [fault?_eq_some]
  cases c <;> simp [Checked.toOutcome]

theorem fault?_guard {p : Prop} [Decidable p] {reason : ε} {x : Outcome ε α} {fault : Fault} :
    (if p then fail reason else x).fault? = some fault ↔ ¬p ∧ x.fault? = some fault := by
  split <;> simp_all

/-- A binding faults where its first part does, or else where its second one does. -/
theorem fault?_bind {x : Outcome ε α} {f : α → Outcome ε β} {fault : Fault} :
    (x >>= f).fault? = some fault ↔
      x.fault? = some fault ∨ ∃ a, x = .ok a ∧ (f a).fault? = some fault := by
  simp only [fault?_eq_some, bind_eq_error]

theorem guard_faultless {p : Prop} [Decidable p] {reason : ε} {x : Outcome ε α}
    (h : ¬p → x.fault? = none) : (if p then fail reason else x).fault? = none := by
  split
  · rfl
  · rename_i hPasses
    exact h hPasses

/-- An operation does not fault if its parts do not. -/
theorem bind_faultless {x : Outcome ε α} {f : α → Outcome ε β} (hFirst : x.fault? = none)
    (hRest : ∀ a, x = .ok a → (f a).fault? = none) : (x >>= f).fault? = none := by
  cases x with
  | error failure => exact hFirst
  | ok a => exact hRest a rfl

end Outcome

end ForkChoice
