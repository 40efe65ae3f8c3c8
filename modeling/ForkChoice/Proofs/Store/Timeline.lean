import Mathlib.Data.List.Induction
import Mathlib.Logic.Relation
import ForkChoice.Proofs.Store.Frame

/-!
# ForkChoice — one draft after another

What a store shows changes along a line: an operation changes the open draft, and after a commit
the next draft begins with what has been committed. A draft that is given up leaves the store as it
was when the draft began, so the line goes on from there and the draft is not on it. What is shown
in any history lies on a line that begins with the store.

* `Draft.Next`, `Draft.Later` — what comes next, and what comes later;
* `Draft.Next.cases` — an import, a tick, or a change of nothing but votes and states at
  checkpoints;
* `Store.shows_iff_later` — what is shown is what lies on a line.
-/

namespace ForkChoice

open StoreView

section

variable [HashFunction] [SignatureScheme]

/-- What can come next: an operation on the draft, also one that fails, or its commit, after which
the next draft begins. -/
inductive Draft.Next (t : StateTransition) (d : Draft) : Draft → Prop
  | changed (c : Change) : Next t d (d.change t c)
  | committed : Next t d (Draft.ofStore d.commit)

/-- What comes later on the same line. -/
abbrev Draft.Later (t : StateTransition) : Draft → Draft → Prop :=
  Relation.ReflTransGen (Draft.Next t)

variable {t : StateTransition} {s : Store} {d d' : Draft} {v : StoreView}

namespace Draft

/-- Only an import adds blocks, and only an import or a tick moves a checkpoint. -/
theorem Next.cases (h : Next t d d') :
    (∃ b, d' = (d.importBlock t b).2) ∨ (∃ time, d' = d.tick time) ∨ SameChain d.view d'.view := by
  cases h with
  | changed c =>
    cases c with
    | tick time => exact Or.inr (Or.inl ⟨time, rfl⟩)
    | block b => exact Or.inl ⟨b, rfl⟩
    | attestation check a => exact Or.inr (Or.inr (d.attest_sameChain t check a))
    | discardVotes => exact Or.inr (Or.inr d.discardVotes_sameChain)
  | committed =>
    refine Or.inr (Or.inr ?_)
    rw [ofStore_view]
    exact d.commit_sameChain

theorem later_changeAll (d : Draft) (changes : List Change) :
    Later t d (d.changeAll t changes) := by
  unfold changeAll
  induction changes generalizing d with
  | nil => exact .refl
  | cons c rest ih => exact .head (.changed c) (ih (d.change t c))

end Draft

namespace Store

/-- A committed store is on the line: drafts that have been given up do not matter. -/
theorem later_after (s : Store) (history : List Transaction) :
    Draft.Later t (Draft.ofStore s) (Draft.ofStore (s.after t history)) := by
  induction history using List.reverseRecOn with
  | nil => exact .refl
  | append_singleton history x ih =>
    rw [s.after_concat, transact]
    split
    · exact (ih.trans (Draft.later_changeAll _ x.changes)).tail .committed
    · exact ih

/-- What lies on a line can be shown in the course of a history. -/
theorem exists_history_of_later (h : Draft.Later t (Draft.ofStore s) d) :
    ∃ history changes, d = (Draft.ofStore (s.after t history)).changeAll t changes := by
  induction h with
  | refl => exact ⟨[], [], rfl⟩
  | tail _ hNext ih =>
    obtain ⟨history, changes, rfl⟩ := ih
    cases hNext with
    | changed c => exact ⟨history, changes ++ [c], (Draft.changeAll_concat t _ changes c).symm⟩
    | committed =>
      refine ⟨history ++ [⟨changes, true⟩], [], ?_⟩
      rw [s.after_concat]
      rfl

/-- **Lines and histories.** What can be shown in a history, in a committed store or in an open
draft, is what lies on a line that begins with the store. -/
theorem shows_iff_later : s.Shows t v ↔ ∃ d, Draft.Later t (Draft.ofStore s) d ∧ d.view = v := by
  constructor
  · rintro ⟨history, rfl | ⟨changes, rfl⟩⟩
    · exact ⟨_, s.later_after history, Draft.ofStore_view _⟩
    · exact ⟨_, (s.later_after history).trans (Draft.later_changeAll _ changes), rfl⟩
  · rintro ⟨d, h, rfl⟩
    obtain ⟨history, changes, rfl⟩ := exists_history_of_later h
    exact ⟨history, Or.inr ⟨changes, rfl⟩⟩

end Store

end

end ForkChoice
