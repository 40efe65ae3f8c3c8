import Mathlib.Data.List.Forall2
import Mathlib.Data.List.Perm.Basic
import ForkChoice.Checked

/-!
# ForkChoice — what a bound computation amounts to

An operation that binds others gives a value only if all of them do, and its failure is the
failure of the first that fails. These lemmas take a `do` block apart without unfolding the monad:

* `bind_eq_ok`, `bind_eq_error` — one binding;
* `Outcome.guard_eq_ok`, `Outcome.guard_eq_error` — a check in front of the rest;
* `Checked.toOutcome_eq_ok`, `mapError_eq_ok`, `Outcome.mapError_eq_ok` — a computation that is
  lifted or whose failure is reworded;
* `mapM_eq_ok_iff`, `mapM_eq_ok_map` — a list of computations that all succeed,
  `exists_of_mapM_eq_error` — one that fails.
-/

namespace ForkChoice

variable {ε ε' α β : Type}

theorem ok_bind {a : α} {f : α → Except ε β} : (Except.ok a >>= f) = f a :=
  rfl

/-- A binding gives a value if both parts do. -/
theorem bind_eq_ok {x : Except ε α} {f : α → Except ε β} {b : β} :
    x >>= f = .ok b ↔ ∃ a, x = .ok a ∧ f a = .ok b := by
  cases x <;> simp [bind, Except.bind]

/-- A binding fails if its first part does, or else its second one. -/
theorem bind_eq_error {x : Except ε α} {f : α → Except ε β} {e : ε} :
    x >>= f = .error e ↔ x = .error e ∨ ∃ a, x = .ok a ∧ f a = .error e := by
  cases x <;> simp [bind, Except.bind]

theorem mapError_eq_ok {f : ε → ε'} {x : Except ε α} {a : α} :
    x.mapError f = .ok a ↔ x = .ok a := by
  cases x with
  | error e => exact ⟨nofun, nofun⟩
  | ok b =>
    show Except.ok b = Except.ok a ↔ Except.ok b = Except.ok a
    rw [Except.ok.injEq, Except.ok.injEq]

@[simp] theorem pure_eq_ok {a b : α} : (pure a : Except ε α) = .ok b ↔ a = b :=
  Except.ok.injEq a b ▸ Iff.rfl

@[simp] theorem pure_ne_error {a : α} {e : ε} : (pure a : Except ε α) ≠ .error e :=
  nofun

namespace Checked

@[simp] theorem liftM_eq (c : Checked α) :
    (liftM c : Except (Failure ε) α) = (c.toOutcome : Outcome ε α) :=
  rfl

@[simp] theorem toOutcome_eq_ok {c : Checked α} {a : α} :
    (c.toOutcome : Outcome ε α) = .ok a ↔ c = .ok a := by
  cases c <;> simp [toOutcome]

end Checked

namespace Outcome

@[simp] theorem fail_ne_ok {reason : ε} {a : α} : (fail reason : Outcome ε α) ≠ .ok a :=
  nofun

@[simp] theorem fail_eq_error {reason : ε} {e : Failure ε} :
    (fail reason : Outcome ε α) = .error e ↔ e = .error reason := by
  rw [fail, Except.error.injEq, eq_comm]

/-- What comes after a check that reports `reason` is reached only if the check passes. -/
@[simp] theorem guard_eq_ok {p : Prop} [Decidable p] {reason : ε} {x : Outcome ε α} {a : α} :
    (if p then fail reason else x) = .ok a ↔ ¬ p ∧ x = .ok a := by
  split <;> simp_all

/-- Either the check fails, or what comes after it does. -/
theorem guard_eq_error {p : Prop} [Decidable p] {reason : ε} {x : Outcome ε α} {e : Failure ε} :
    (if p then fail reason else x) = .error e ↔ (p ∧ e = .error reason) ∨ (¬ p ∧ x = .error e) := by
  split <;> simp_all

@[simp] theorem mapError_eq_ok {f : ε → ε'} {x : Outcome ε α} {a : α} :
    x.mapError f = .ok a ↔ x = .ok a := by
  cases x <;> simp [mapError]

/-- An error is reworded, but a fault is not. -/
theorem orFail_eq_fault {reason : ε'} {x : Outcome ε α} {fault : Fault} :
    x.orFail reason = .error (.fault fault) ↔ x = .error (.fault fault) := by
  obtain (_ | _) | _ := x <;> simp [orFail, mapError, Failure.map]

end Outcome

/-! ## Lists of computations -/

section

variable {f : α → Except ε β} {xs xs' : List α} {ys : List β}

/-- A list of computations succeeds if each of them does. -/
theorem mapM_eq_ok_iff : xs.mapM f = .ok ys ↔ List.Forall₂ (fun x y => f x = .ok y) xs ys := by
  induction xs generalizing ys with
  | nil =>
    rw [List.mapM_nil, pure_eq_ok, List.forall₂_nil_left_iff]
    exact eq_comm
  | cons x xs ih =>
    simp only [List.mapM_cons, bind_eq_ok, pure_eq_ok, ih]
    constructor
    · rintro ⟨y, hy, ys, hys, rfl⟩
      exact .cons hy hys
    · intro h
      cases h with
      | cons hy hys => exact ⟨_, hy, _, hys, rfl⟩

theorem mem_of_mapM_eq_ok {y : β} (h : xs.mapM f = .ok ys) (hMem : y ∈ ys) :
    ∃ x ∈ xs, f x = .ok y := by
  rw [mapM_eq_ok_iff] at h
  induction h with
  | nil => exact absurd hMem List.not_mem_nil
  | @cons x y' xs ys hy _ ih =>
    rcases List.mem_cons.mp hMem with rfl | hMem
    · exact ⟨x, List.mem_cons_self, hy⟩
    · obtain ⟨x', hx', hFound⟩ := ih hMem
      exact ⟨x', List.mem_cons_of_mem _ hx', hFound⟩

/-- A list of computations fails only if one of them does. -/
theorem exists_of_mapM_eq_error {e : ε} (h : xs.mapM f = .error e) : ∃ x ∈ xs, f x = .error e := by
  induction xs with
  | nil => cases h
  | cons x xs ih =>
    rw [List.mapM_cons, bind_eq_error] at h
    rcases h with hFirst | ⟨y, -, hRest⟩
    · exact ⟨x, List.mem_cons_self, hFirst⟩
    · rcases bind_eq_error.mp hRest with hRest | ⟨ys, -, hEnd⟩
      · obtain ⟨x', hMem, hFails⟩ := ih hRest
        exact ⟨x', List.mem_cons_of_mem _ hMem, hFails⟩
      · exact absurd hEnd pure_ne_error

/-- In another order the same computations have the same results in another order. -/
theorem mapM_perm (h : xs.mapM f = .ok ys) (hPerm : xs'.Perm xs) :
    ∃ ys', xs'.mapM f = .ok ys' ∧ ys'.Perm ys := by
  obtain ⟨ys', hEach, hys'⟩ := List.perm_comp_forall₂ hPerm (mapM_eq_ok_iff.mp h)
  exact ⟨ys', mapM_eq_ok_iff.mpr hEach, hys'⟩

/-- Computations of which none fails give what they give, in order. -/
theorem mapM_eq_ok_map {g : α → β} (h : ∀ x ∈ xs, f x = .ok (g x)) :
    xs.mapM f = .ok (xs.map g) := by
  rw [mapM_eq_ok_iff, List.forall₂_map_right_iff, List.forall₂_same]
  exact h

end

end ForkChoice
