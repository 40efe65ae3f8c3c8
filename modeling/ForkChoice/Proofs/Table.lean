import ForkChoice.Table

/-!
# ForkChoice — entries of tables

What is found in a table after an entry was added or another table laid over it, with equality of
keys in place of their order.
-/

namespace ForkChoice.Table

variable {κ β : Type} [Ord κ] [Std.TransOrd κ]

theorem getElem?_insert [Std.LawfulEqOrd κ] [DecidableEq κ] (t : Table κ β) (k a : κ) (b : β) :
    (t.insert k b)[a]? = if k = a then some b else t[a]? := by
  rw [Std.TreeMap.getElem?_insert]
  simp only [Std.LawfulEqCmp.compare_eq_iff_eq]

theorem getElem?_union (t t' : Table κ β) (a : κ) : (t ∪ t')[a]? = (t'[a]? <|> t[a]?) := by
  rw [Std.TreeMap.getElem?_union]
  cases t'[a]? <;> rfl

end ForkChoice.Table
