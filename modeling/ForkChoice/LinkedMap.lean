/-!
# ForkChoice — linked maps

Maps whose entries are linked in an order, from the front to the back. It is the order in which the
entries were added, and some operations move an entry to the back while others leave it where it
is. Which map is used is a parameter: no more is needed of it than what is listed here.

* `LinkedMap` — the operations, `Place` — where a value can be changed;
* `Linked` — a map as the list of its entries.
-/

namespace ForkChoice

/-- The place of a value in a map: the value, and the map that has another value there. -/
structure Place (M β : Type) where
  value : β
  put : β → M

/-- Maps with keys in `κ` and values in `β` whose entries are linked in an order. -/
class LinkedMap (M : Type) (κ β : outParam Type) where
  /-- The map without entries. -/
  empty : M
  /-- The entries, from the front to the back. -/
  entries : M → List (κ × β)
  /-- The number of entries. -/
  size : M → Nat
  /-- Whether there are no entries. -/
  isEmpty : M → Bool
  /-- The place of the value of a key, if the key has one. Its entry stays where it is. -/
  getMut? : M → κ → Option (Place M β)
  /-- Gives a key a value. Its entry is the last one then. -/
  insert : M → κ → β → M
  /-- The place of the value of a key, which is `initial` if the key has had none. Its entry is the
  last one then. -/
  entry : M → κ → (initial : β) → Place M β
  /-- Takes the first entry out, if there is one. -/
  popFront? : M → Option ((κ × β) × M)

/-! ## Lists of entries -/

/-- A map as the list of its entries, no two of which have the same key. -/
structure Linked (κ β : Type) where
  entries : List (κ × β)
  nodup : (entries.map Prod.fst).Nodup

namespace Linked

variable {κ β : Type}

/-- The map without entries. -/
def empty : Linked κ β := ⟨[], List.nodup_nil⟩

instance : Inhabited (Linked κ β) := ⟨empty⟩

/-- Takes the first entry out. -/
def popFront? (m : Linked κ β) : Option ((κ × β) × Linked κ β) :=
  match m with
  | ⟨[], _⟩ => none
  | ⟨first :: rest, h⟩ => some (first, ⟨rest, (List.nodup_cons.mp h).2⟩)

variable [DecidableEq κ]

/-- The value of a key. -/
def value? (m : Linked κ β) (key : κ) : Option β :=
  (m.entries.find? fun e => e.1 = key).map Prod.snd

theorem keys_replaced (entries : List (κ × β)) (key : κ) (value : β) :
    (entries.map fun e => if e.1 = key then (key, value) else e).map Prod.fst =
      entries.map Prod.fst := by
  rw [List.map_map]
  refine List.map_congr_left fun e _ => ?_
  by_cases h : e.1 = key <;> simp [h]

/-- Changes the value of a key that has one. -/
def replace (m : Linked κ β) (key : κ) (value : β) : Linked κ β where
  entries := m.entries.map fun e => if e.1 = key then (key, value) else e
  nodup := by
    rw [keys_replaced]
    exact m.nodup

theorem nodup_moved {entries : List (κ × β)} (h : (entries.map Prod.fst).Nodup) (key : κ)
    (value : β) :
    ((entries.filter (fun e => decide (e.1 ≠ key)) ++ [(key, value)]).map Prod.fst).Nodup := by
  rw [List.map_append, List.nodup_append]
  refine ⟨(List.filter_sublist.map Prod.fst).nodup h, List.pairwise_singleton _ key, ?_⟩
  -- What has been kept has another key.
  intro other hOther last hLast
  obtain ⟨e, he, rfl⟩ := List.mem_map.mp hOther
  rw [List.mem_singleton.mp hLast]
  exact of_decide_eq_true (List.mem_filter.mp he).2

/-- Gives a key a value, as the last entry. -/
def putLast (m : Linked κ β) (key : κ) (value : β) : Linked κ β where
  entries := m.entries.filter (fun e => decide (e.1 ≠ key)) ++ [(key, value)]
  nodup := nodup_moved m.nodup key value

instance : LinkedMap (Linked κ β) κ β where
  empty := empty
  entries := entries
  size m := m.entries.length
  isEmpty m := m.entries.isEmpty
  getMut? m key := (m.value? key).map fun value => ⟨value, m.replace key⟩
  insert := putLast
  entry m key initial := ⟨(m.value? key).getD initial, m.putLast key⟩
  popFront? := popFront?

end Linked

end ForkChoice
