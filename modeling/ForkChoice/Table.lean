import Std.Data.TreeMap
import ForkChoice.Chain.Attestation

/-!
# ForkChoice — tables

Finite maps whose entries are kept in the order of their keys: roots, checkpoints and words.

* `Table` — the maps;
* the order of checkpoints — by epoch, then by root.
-/

namespace ForkChoice

/-- A finite map in the order of its keys. -/
abbrev Table (κ : Type) [Ord κ] (β : Type) := Std.TreeMap κ β compare

/-- The order of checkpoints: by epoch, then by root. -/
instance : Ord Checkpoint := ⟨compareLex (compareOn Checkpoint.epoch) (compareOn Checkpoint.root)⟩

instance : Std.TransCmp (compare : Checkpoint → Checkpoint → Ordering) :=
  inferInstanceAs (Std.TransCmp (compareLex (compareOn Checkpoint.epoch) (compareOn Checkpoint.root)))

instance : Std.LawfulEqCmp (compare : Checkpoint → Checkpoint → Ordering) where
  eq_of_compare {a b} h := by
    obtain ⟨e, r⟩ := a
    obtain ⟨e', r'⟩ := b
    have h : (compare e e').then (compare r r') = .eq := h
    rw [Ordering.then_eq_eq] at h
    rw [Std.LawfulEqCmp.eq_of_compare h.1, Std.LawfulEqCmp.eq_of_compare h.2]

end ForkChoice
