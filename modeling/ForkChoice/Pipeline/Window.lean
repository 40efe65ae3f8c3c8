/-!
# ForkChoice — the batching window

Items are collected until there are enough of them or the first one has waited long enough.

* `Window` — the items, and when they have to go on;
* `Window.receive`, `Window.expire`, `Window.close` — an item comes, the time is up, no more items
  will come; each may give a batch that goes on.
-/

namespace ForkChoice

/-- How many items go on at once, and how long the first of them waits. -/
structure WindowLimits where
  maxSize : Nat
  maxDelay : Nat
  deriving Repr, DecidableEq, Inhabited

/-- Items that are waiting to go on. -/
structure Window (α : Type) where
  buffer : List α := []
  /-- When the items have to go on, if there are any. -/
  deadline : Option Nat := none
  deriving Repr, DecidableEq, Inhabited

namespace Window

variable {α : Type}

/-- An item comes at the time `now`. -/
def receive (limits : WindowLimits) (now : Nat) (w : Window α) (x : α) :
    Option (List α) × Window α :=
  let deadline := if w.buffer.isEmpty then some (now + limits.maxDelay) else w.deadline
  let buffer := w.buffer ++ [x]
  if limits.maxSize ≤ buffer.length then (some buffer, {}) else (none, ⟨buffer, deadline⟩)

/-- The time is up, if there is a deadline. -/
def expire (w : Window α) : Option (List α) × Window α :=
  match w.deadline with
  | some _ => (some w.buffer, {})
  | none => (none, w)

/-- No more items will come. -/
def close (w : Window α) : Option (List α) × Window α :=
  if w.buffer.isEmpty then (none, w) else (some w.buffer, {})

end Window

end ForkChoice
