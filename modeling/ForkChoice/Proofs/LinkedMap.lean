import ForkChoice.LinkedMap

/-!
# ForkChoice — what linked maps keep

All that is used of a linked map is what its operations do to the entries and their order. A key has
one entry. A value that is changed in its place leaves its entry where it is; an entry that is
inserted, or that is asked for as an entry, comes last, whether the key has had one before or not;
and it is the first entry that is taken out.

* `LinkedMap.Lawful` — these laws, of whichever map;
* `LinkedMap.Lawful.entries_insert_new` — an entry with a new key;
* `LinkedMap.Lawful.perm_of_mem` — an entry moves, and the others stay;
* the laws of `Linked`.
-/

namespace ForkChoice

variable {M κ β : Type}

/-- The entries behind one have other keys. -/
theorem key_ne_of_nodup {first : κ × β} {rest : List (κ × β)}
    (h : ((first :: rest).map Prod.fst).Nodup) : ∀ e ∈ rest, e.1 ≠ first.1 := by
  intro e he hSame
  exact (List.nodup_cons.mp h).1 (List.mem_map.mpr ⟨e, he, hSame⟩)

/-- An entry moves behind all others. -/
theorem perm_moved [DecidableEq κ] {entries : List (κ × β)} {key : κ} {value : β}
    (hNodup : (entries.map Prod.fst).Nodup) (h : (key, value) ∈ entries) :
    entries.Perm (entries.filter (fun e => decide (e.1 ≠ key)) ++ [(key, value)]) := by
  induction entries with
  | nil => cases h
  | cons first rest ih =>
    have hOther := key_ne_of_nodup hNodup
    -- Either it is the first one that moves, and nothing else goes, or it is one behind it.
    rcases List.mem_cons.mp h with rfl | hRest
    · have hStay : rest.filter (fun e => decide (e.1 ≠ key)) = rest :=
        List.filter_eq_self.mpr fun e he => decide_eq_true (hOther e he)
      rw [List.filter_cons_of_neg (by simp), hStay]
      exact (List.perm_append_singleton _ rest).symm
    · have hFirst : first.1 ≠ key := (hOther _ hRest).symm
      rw [List.filter_cons_of_pos (by simpa using hFirst)]
      exact (ih (List.nodup_cons.mp hNodup).2 hRest).cons first

namespace LinkedMap

/-- What the operations of a linked map do to its entries. -/
class Lawful (M : Type) {κ β : Type} [DecidableEq κ] [LinkedMap M κ β] : Prop where
  /-- A key has one entry. -/
  nodup_keys : ∀ m : M, ((entries m).map Prod.fst).Nodup
  entries_empty : entries (empty : M) = []
  size_eq : ∀ m : M, size m = (entries m).length
  isEmpty_eq : ∀ m : M, isEmpty m = (entries m).isEmpty
  /-- The value of a key can be changed if the key has an entry, -/
  getMut?_eq_none : ∀ {m : M} {key : κ}, getMut? m key = none → ∀ e ∈ entries m, e.1 ≠ key
  getMut?_eq_some : ∀ {m : M} {key : κ} {place : Place M β}, getMut? m key = some place →
    (key, place.value) ∈ entries m
  /-- which stays where it is. -/
  entries_put : ∀ {m : M} {key : κ} {place : Place M β}, getMut? m key = some place →
    ∀ value, entries (place.put value) =
      (entries m).map fun e => if e.1 = key then (key, value) else e
  /-- An entry that is inserted comes last, and an older one with its key goes. -/
  entries_insert : ∀ (m : M) (key : κ) (value : β), entries (insert m key value) =
    (entries m).filter (fun e => decide (e.1 ≠ key)) ++ [(key, value)]
  /-- An entry that is asked for as such has the value that is there, or else the given one, -/
  entry_old : ∀ {m : M} {key : κ} {value : β}, (key, value) ∈ entries m →
    ∀ initial, (entry m key initial).value = value
  entry_new : ∀ {m : M} {key : κ}, (∀ e ∈ entries m, e.1 ≠ key) →
    ∀ initial : β, (entry m key initial).value = initial
  /-- and comes last. -/
  entries_entry : ∀ (m : M) (key : κ) (initial value : β),
    entries ((entry m key initial).put value) =
      (entries m).filter (fun e => decide (e.1 ≠ key)) ++ [(key, value)]
  /-- It is the first entry that is taken out, if there is one. -/
  popFront?_eq_none : ∀ {m : M}, popFront? m = none → entries m = []
  popFront?_eq_some : ∀ {m rest : M} {first : κ × β}, popFront? m = some (first, rest) →
    entries m = first :: entries rest

namespace Lawful

variable [DecidableEq κ] [LinkedMap M κ β] [Lawful M]

/-- An entry with a key that has had none comes behind all others. -/
theorem entries_insert_new {m : M} {key : κ} (h : ∀ e ∈ entries m, e.1 ≠ key) (value : β) :
    entries (insert m key value) = entries m ++ [(key, value)] := by
  rw [entries_insert, List.filter_eq_self.mpr]
  intro e he
  exact decide_eq_true (h e he)

/-- An entry that moves to the back leaves the others in place. -/
theorem perm_of_mem {m : M} {key : κ} {value : β} (h : (key, value) ∈ entries m) :
    (entries m).Perm ((entries m).filter (fun e => decide (e.1 ≠ key)) ++ [(key, value)]) :=
  perm_moved (nodup_keys m) h

end Lawful

end LinkedMap

/-! ## Lists of entries -/

namespace Linked

variable [DecidableEq κ] {m : Linked κ β} {key : κ} {value : β}

theorem value?_eq_none : m.value? key = none ↔ ∀ e ∈ m.entries, e.1 ≠ key := by
  rw [value?, Option.map_eq_none_iff, List.find?_eq_none]
  simp

theorem value?_eq_some : m.value? key = some value ↔ (key, value) ∈ m.entries := by
  obtain ⟨entries, hNodup⟩ := m
  rw [value?]
  dsimp only
  induction entries with
  | nil => simp
  | cons first rest ih =>
    by_cases hKey : first.1 = key
    · -- The first entry is the only one with its key.
      have hOther : (key, value) ∉ rest := by
        intro hMem
        exact key_ne_of_nodup hNodup _ hMem hKey.symm
      rw [List.find?_cons_of_pos (by simpa using hKey), Option.map_some, Option.some.injEq,
        List.mem_cons, or_iff_left hOther]
      constructor
      · rintro rfl
        exact Prod.ext hKey.symm rfl
      · intro hSame
        rw [← hSame]
    · have hOther : (key, value) ≠ first := by
        rintro rfl
        exact hKey rfl
      rw [List.find?_cons_of_neg (by simpa using hKey), List.mem_cons, or_iff_right hOther]
      exact ih (List.nodup_cons.mp hNodup).2

/-- A list of entries is a linked map. -/
instance : LinkedMap.Lawful (Linked κ β) where
  nodup_keys := nodup
  entries_empty := rfl
  size_eq _ := rfl
  isEmpty_eq _ := rfl
  getMut?_eq_none := by
    intro m key hNone
    exact value?_eq_none.mp (Option.map_eq_none_iff.mp hNone)
  getMut?_eq_some := by
    intro m key place hSome
    obtain ⟨value, hValue, rfl⟩ := Option.map_eq_some_iff.mp hSome
    exact value?_eq_some.mp hValue
  entries_put := by
    intro m key place hSome value
    obtain ⟨_, -, rfl⟩ := Option.map_eq_some_iff.mp hSome
    rfl
  entries_insert _ _ _ := rfl
  entry_old := by
    intro m key value hMem initial
    show (m.value? key).getD initial = value
    rw [value?_eq_some.mpr hMem]
    rfl
  entry_new := by
    intro m key hNew initial
    show (m.value? key).getD initial = initial
    rw [value?_eq_none.mpr hNew]
    rfl
  entries_entry _ _ _ _ := rfl
  popFront?_eq_none := by
    rintro ⟨_ | ⟨first, rest⟩, hNodup⟩ hNone
    · rfl
    · cases hNone
  popFront?_eq_some := by
    rintro ⟨_ | ⟨first, rest⟩, hNodup⟩ _ _ hSome
    · cases hSome
    · cases hSome
      rfl

/-- An entry that is asked for as such moves to the back, and one whose value is changed in its place
does not. -/
example :
    let m : Linked Nat Char := LinkedMap.insert (LinkedMap.insert LinkedMap.empty 1 'a') 2 'b'
    (LinkedMap.getMut? m 1).map (fun place => (place.put 'c').entries) =
        some [(1, 'c'), (2, 'b')] ∧
      ((LinkedMap.entry m 1 'a').put 'c').entries = [(2, 'b'), (1, 'c')] := by
  decide

end Linked

end ForkChoice
