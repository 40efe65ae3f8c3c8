import Mathlib.Data.List.Basic
import ForkChoice.Proofs.Table

/-!
# ForkChoice — lists and tables of groups

A queue can be kept as one list, or as a table that has a list for each key. Both are the same for
those who look at one key, and for those who count. They are also the same for those who go through
all members in the order of their keys: the table gives them group by group, and the list has to be
sorted in a stable way. A list in the order of its keys is determined by its groups, so the two
ways cannot differ.

* `sortByKey`, `filter_sortByKey` — stable sorting, which does not change the groups;
* `eq_of_sameGroups` — a list in the order of its keys is determined by its groups;
* `flatMap_groups` — sorting by going through the groups;
* `Table.Groups` — a table that holds the groups of a list, `Groups.push`, `Groups.erase`,
  `Groups.filter` — its changes;
* `Groups.members_eq`, `Groups.total_eq` — all members, and their number.
-/

namespace ForkChoice

variable {κ α : Type} {key : α → κ} {l l' : List α} {k : κ} {x : α}

/-! ## Groups -/

section

variable [DecidableEq κ]

theorem mem_iff_of_sameGroups
    (hGroups : ∀ k, (l.filter fun x => key x = k) = l'.filter fun x => key x = k) :
    x ∈ l ↔ x ∈ l' := by
  have hGroup : x ∈ (l.filter fun y => key y = key x) ↔ x ∈ l'.filter fun y => key y = key x := by
    rw [hGroups]
  simpa using hGroup

/-- In the group of one key there is nothing with another one. -/
theorem filter_group (key : α → κ) (l : List α) (k k' : κ) :
    ((l.filter fun x => key x = k').filter fun x => key x = k) =
      if k' = k then l.filter (fun x => key x = k) else [] := by
  rw [List.filter_filter]
  split
  · rename_i hSame
    rw [hSame]
    simp only [Bool.and_self]
  · rename_i hOther
    rw [List.filter_eq_nil_iff]
    rintro x - hx
    simp only [Bool.and_eq_true, decide_eq_true_eq] at hx
    exact hOther (hx.2.symm.trans hx.1)

theorem flatMap_only {keys : List κ} (hKeys : keys.Nodup) (k : κ) (l : List α) :
    (keys.flatMap fun k' => if k' = k then l else []) = if k ∈ keys then l else [] := by
  induction keys with
  | nil => rfl
  | cons k' rest ih =>
    rw [List.nodup_cons] at hKeys
    rw [List.flatMap_cons, ih hKeys.2]
    by_cases hSame : k' = k
    · rw [← hSame]
      simp [hKeys.1]
    · simp [hSame, Ne.symm hSame]

end

variable [Ord κ]

/-! ## Lists in the order of keys -/

/-- Whether the key of one member is not after that of another one. -/
def keyLE (key : α → κ) (x y : α) : Bool := (compare (key x) (key y)).isLE

/-- The members of a list in the order of their keys, and those with the same key as they were. -/
def sortByKey (key : α → κ) (l : List α) : List α := l.mergeSort (keyLE key)

section

variable [Std.TransOrd κ]

theorem keyLE_trans (x y z : α) (hxy : keyLE key x y = true) (hyz : keyLE key y z = true) :
    keyLE key x z = true :=
  Std.TransCmp.isLE_trans hxy hyz

theorem keyLE_total (x y : α) : (keyLE key x y || keyLE key y x) = true := by
  rw [Bool.or_eq_true]
  unfold keyLE
  cases hOrder : compare (key x) (key y) with
  | lt => exact Or.inl rfl
  | eq => exact Or.inl rfl
  | gt =>
    rw [Std.OrientedCmp.lt_of_gt hOrder]
    exact Or.inr rfl

theorem keyLE_of_eq {y : α} (h : key x = key y) : keyLE key x y = true := by
  rw [keyLE, h]
  exact Std.ReflCmp.isLE_rfl

theorem pairwise_sortByKey (key : α → κ) (l : List α) :
    (sortByKey key l).Pairwise fun x y => keyLE key x y = true :=
  List.pairwise_mergeSort keyLE_trans keyLE_total l

theorem pairwise_group [DecidableEq κ] (key : α → κ) (l : List α) (k : κ) :
    (l.filter fun x => key x = k).Pairwise fun x y => keyLE key x y = true := by
  refine List.pairwise_of_forall_mem_list fun x hx y hy => keyLE_of_eq ?_
  rw [List.mem_filter, decide_eq_true_eq] at hx hy
  rw [hx.2, hy.2]

/-- **Stable sorting** does not change what there is with a given key. -/
theorem filter_sortByKey [DecidableEq κ] (key : α → κ) (l : List α) (k : κ) :
    (sortByKey key l).filter (fun x => key x = k) = l.filter fun x => key x = k := by
  -- A part of the list that is in order stays a part of it, and so does the group of the key.
  have hPart : (l.filter fun x => key x = k).Sublist (sortByKey key l) :=
    List.sublist_mergeSort keyLE_trans keyLE_total (pairwise_group key l k) List.filter_sublist
  have hGroup := hPart.filter fun x => decide (key x = k)
  rw [List.filter_filter] at hGroup
  simp only [Bool.and_self] at hGroup
  exact (hGroup.eq_of_length (((List.mergeSort_perm l _).filter _).length_eq.symm)).symm

/-- **Groups determine the list** if it is in the order of keys. -/
theorem eq_of_sameGroups [Std.LawfulEqOrd κ] [DecidableEq κ]
    (hl : l.Pairwise fun x y => keyLE key x y = true)
    (hl' : l'.Pairwise fun x y => keyLE key x y = true)
    (hGroups : ∀ k, (l.filter fun x => key x = k) = l'.filter fun x => key x = k) : l = l' := by
  -- The other list has to begin with the same member, and what is left of both has the same groups.
  induction l generalizing l' with
  | nil =>
    exact (List.eq_nil_iff_forall_not_mem.mpr fun x hx =>
      List.not_mem_nil ((mem_iff_of_sameGroups hGroups).mpr hx)).symm
  | cons x rest ih =>
    cases l' with
    | nil =>
      exact absurd ((mem_iff_of_sameGroups hGroups).mp List.mem_cons_self) List.not_mem_nil
    | cons y rest' =>
      rw [List.pairwise_cons] at hl hl'
      have hLE : keyLE key x y = true := by
        rcases List.mem_cons.mp ((mem_iff_of_sameGroups hGroups).mpr List.mem_cons_self) with
          rfl | hLater
        · exact keyLE_of_eq rfl
        · exact hl.1 y hLater
      have hGE : keyLE key y x = true := by
        rcases List.mem_cons.mp ((mem_iff_of_sameGroups hGroups).mp List.mem_cons_self) with
          rfl | hLater
        · exact keyLE_of_eq rfl
        · exact hl'.1 x hLater
      have hKey : key x = key y :=
        Std.LawfulEqCmp.eq_of_compare (Std.OrientedCmp.isLE_antisymm hLE hGE)
      -- Both are the first ones in the group of the least key.
      have hFirst := hGroups (key x)
      rw [List.filter_cons_of_pos (by simp), List.filter_cons_of_pos (by simp [hKey]),
        List.cons.injEq] at hFirst
      obtain ⟨rfl, -⟩ := hFirst
      refine congrArg (x :: ·) (ih hl.2 hl'.2 fun k => ?_)
      have hBoth := hGroups k
      rw [List.filter_cons, List.filter_cons] at hBoth
      split at hBoth
      · exact (List.cons.inj hBoth).2
      · exact hBoth

/-! ## Sorting by groups -/

/-- **Sorting by groups.** Going through the groups in the order of the keys is sorting. -/
theorem flatMap_groups [Std.LawfulEqOrd κ] [DecidableEq κ] {keys : List κ}
    (hKeys : keys.Pairwise fun k k' => compare k k' = .lt) (hAll : ∀ x ∈ l, key x ∈ keys) :
    (keys.flatMap fun k => l.filter fun x => key x = k) = sortByKey key l := by
  refine eq_of_sameGroups ?_ (pairwise_sortByKey key l) fun k => ?_
  · refine List.pairwise_flatMap.mpr ⟨fun k _ => pairwise_group key l k,
      hKeys.imp fun {k k'} hLess x hx y hy => ?_⟩
    rw [List.mem_filter, decide_eq_true_eq] at hx hy
    rw [keyLE, hx.2, hy.2, hLess]
    rfl
  · have hNodup : keys.Nodup := hKeys.imp fun {k k'} hLess hSame => by
      rw [hSame, Std.ReflOrd.compare_self] at hLess
      exact absurd hLess (by simp)
    rw [filter_sortByKey, List.filter_flatMap]
    simp only [filter_group]
    rw [flatMap_only hNodup]
    split
    · rfl
    · rename_i hUnknown
      refine (List.filter_eq_nil_iff.mpr fun x hx hKey => hUnknown ?_).symm
      rw [← of_decide_eq_true hKey]
      exact hAll x hx

end

/-! ## Tables of groups -/

namespace Table

variable {β : Type} {value : α → β} {t : Table κ (List β)}

/-- What a table has for a key. -/
def group (t : Table κ (List β)) (k : κ) : List β := (t[k]?).getD []

/-- Adds a member at the end of a group. -/
def push (t : Table κ (List β)) (k : κ) (y : β) : Table κ (List β) := t.insert k (t.group k ++ [y])

/-- All members, group by group in the order of keys. -/
def members (t : Table κ (List β)) : List β := t.toList.flatMap Prod.snd

/-- The number of members. -/
def total (t : Table κ (List β)) : Nat :=
  t.toList.foldl (fun count entry => count + entry.2.length) 0

omit [Ord κ] in
theorem foldl_count (entries : List (κ × List β)) (count : Nat) :
    entries.foldl (fun count entry => count + entry.2.length) count =
      count + (entries.flatMap Prod.snd).length := by
  induction entries generalizing count with
  | nil => rfl
  | cons entry rest ih =>
    rw [List.foldl_cons, ih, List.flatMap_cons, List.length_append, Nat.add_assoc]

theorem length_members : t.members.length = t.total := by
  rw [total, foldl_count, Nat.zero_add]
  rfl

variable [DecidableEq κ]

/-- The table holds the values of the members of a list, grouped by their keys. -/
def Groups (key : α → κ) (value : α → β) (l : List α) (t : Table κ (List β)) : Prop :=
  ∀ k, t.group k = (l.filter fun x => key x = k).map value

namespace Groups

theorem empty : Groups key value [] (∅ : Table κ (List β)) := fun _ => rfl

variable [Std.TransOrd κ] [Std.LawfulEqOrd κ]

/-- A member that comes last in the list comes last in its group. -/
theorem push (h : Groups key value l t) (x : α) :
    Groups key value (l ++ [x]) (t.push (key x) (value x)) := by
  intro k
  have hInsert : (t.push (key x) (value x)).group k =
      if key x = k then t.group (key x) ++ [value x] else t.group k := by
    rw [group, Table.push, getElem?_insert]
    split <;> rfl
  rw [hInsert, List.filter_append, List.map_append, ← h k]
  split
  · rename_i hKey
    rw [hKey, List.filter_cons_of_pos (by simpa using hKey)]
    rfl
  · rename_i hKey
    rw [List.filter_cons_of_neg (by simpa using hKey)]
    exact (List.append_nil _).symm

/-- Some groups. -/
theorem filter (h : Groups key value l t) (condition : κ → Bool) :
    Groups key value (l.filter fun x => condition (key x)) (t.filter fun k _ => condition k) := by
  intro k
  have hGroup : Table.group (t.filter fun k _ => condition k) k =
      if condition k then t.group k else [] := by
    rw [group, Std.TreeMap.getElem?_filter']
    cases hFound : t[k]? with
    | none => simp [group, hFound]
    | some found =>
      rw [Option.filter_some]
      split <;> simp [group, hFound]
  rw [hGroup, h k, List.filter_filter]
  split
  · rename_i hCondition
    refine congrArg (List.map value) (List.filter_congr fun x _ => ?_)
    by_cases hKey : key x = k <;> simp [hKey, hCondition]
  · rename_i hCondition
    rw [List.filter_eq_nil_iff.mpr, List.map_nil]
    intro x _ hBoth
    rw [Bool.and_eq_true, decide_eq_true_eq] at hBoth
    exact hCondition (hBoth.1 ▸ hBoth.2)

/-- All groups but one. -/
theorem erase (h : Groups key value l t) (k : κ) :
    Groups key value (l.filter fun x => !decide (key x = k)) (t.erase k) := by
  intro k'
  have hGroup : Table.group (t.erase k) k' = if k = k' then [] else t.group k' := by
    rw [group, Std.TreeMap.getElem?_erase]
    simp only [Std.LawfulEqCmp.compare_eq_iff_eq]
    split <;> rfl
  rw [hGroup, h k', List.filter_filter]
  split
  · rename_i hSame
    rw [List.filter_eq_nil_iff.mpr, List.map_nil]
    intro x _ hBoth
    simp [hSame] at hBoth
  · rename_i hOther
    refine congrArg (List.map value) (List.filter_congr fun x _ => ?_)
    by_cases hKey : key x = k'
    · simp [hKey, Ne.symm hOther]
    · simp [hKey]

/-- **All members** of the groups are those of the list in the order of their keys. -/
theorem members_eq (h : Groups key value l t) : t.members = (sortByKey key l).map value := by
  have hKnown : ∀ x ∈ l, key x ∈ t.keys := by
    intro x hx
    have hMember : value x ∈ t.group (key x) := by
      rw [h (key x)]
      exact List.mem_map_of_mem (List.mem_filter.mpr ⟨hx, decide_eq_true rfl⟩)
    rw [Std.TreeMap.mem_keys, Std.TreeMap.mem_iff_isSome_getElem?]
    cases hFound : t[key x]? with
    | none => simp [group, hFound] at hMember
    | some found => rfl
  have hGroups : ∀ entry ∈ t.toList,
      entry.2 = (l.filter fun x => key x = entry.1).map value := by
    intro entry hEntry
    rw [← h entry.1, group, Std.TreeMap.mem_toList_iff_getElem?_eq_some.mp hEntry]
    rfl
  rw [← flatMap_groups Std.TreeMap.ordered_keys hKnown, List.map_flatMap,
    ← Std.TreeMap.map_fst_toList_eq_keys, List.flatMap_map, members]
  exact List.flatMap_congr hGroups

/-- **The number** of members. -/
theorem total_eq (h : Groups key value l t) : t.total = l.length := by
  rw [← length_members, h.members_eq, List.length_map, sortByKey]
  exact (List.mergeSort_perm l _).length_eq

end Groups

end Table

end ForkChoice
