import Mathlib.Algebra.BigOperators.Group.List.Lemmas
import Mathlib.Data.Set.Card
import ForkChoice.Proofs.Store.Ancestry

/-!
# ForkChoice — the votes for a block

The support of a block is computed from counts of votes by root, and from a walk up to the slot of
the block for each of these roots. It is the number of those validators whose latest message is
for the block or for a descendant of it: a vote is counted for every block on its chain, and for
none that is not known.

* `StoreView.supporters`, `StoreView.weight` — these validators, and their number;
* `getElem?_tally` — what the counts by root are;
* `sum_voteCounts` — counting by root counts validators;
* `Descending.support_eq_weight` — the support of a block, where the walks are not too long.
-/

namespace ForkChoice

/-! ## Counting by root -/

namespace LatestMessages

variable {m : LatestMessages}

/-- The votes with one more vote counted. -/
def count (counts : Table Root Nat) (vote : ValidatorIndex × LatestMessage) : Table Root Nat :=
  counts.alter vote.2.root fun n => some (n.getD 0 + 1)

/-- The roots that are voted for, once for each validator. -/
def votedRoots (m : LatestMessages) : List Root :=
  m.toList.map fun vote => vote.2.root

theorem mem_votedRoots {root : Root} :
    root ∈ m.votedRoots ↔ ∃ index message, m.get? index = some message ∧ message.root = root := by
  have hEntry : ∀ index message, (index, message) ∈ m.toList ↔ m.get? index = some message :=
    fun _ _ => Std.TreeMap.mem_toList_iff_getElem?_eq_some
  simp [votedRoots, hEntry]

theorem getElem?_tally (votes : List (ValidatorIndex × LatestMessage)) (counts : Table Root Nat)
    (root : Root) :
    (votes.foldl count counts)[root]? =
      if root ∈ votes.map (fun vote => vote.2.root) then
        some (counts[root]?.getD 0 + (votes.map fun vote => vote.2.root).count root)
      else counts[root]? := by
  induction votes generalizing counts with
  | nil => simp
  | cons vote rest ih =>
    have hCount : (count counts vote)[root]? =
        if vote.2.root = root then some (counts[vote.2.root]?.getD 0 + 1) else counts[root]? := by
      rw [count, Std.TreeMap.getElem?_alter]
      simp only [Std.LawfulEqCmp.compare_eq_iff_eq]
    rw [List.foldl_cons, ih, hCount, List.map_cons, List.count_cons]
    -- The first vote is for the root in question, or it does not change the count of it.
    by_cases h : vote.2.root = root
    · subst h
      by_cases hRest : vote.2.root ∈ rest.map fun vote => vote.2.root
      · simp [hRest]
        omega
      · simp [hRest, List.count_eq_zero_of_not_mem hRest]
    · have hMem : root ∈ vote.2.root :: rest.map (fun vote => vote.2.root) ↔
          root ∈ rest.map fun vote => vote.2.root := by
        simp [Ne.symm h]
      simp only [h, hMem, if_false, beq_iff_eq, Nat.add_zero]

/-- An entry of the counts is a root that is voted for with the number of its votes. -/
theorem mem_voteCounts {e : Root × Nat} :
    e ∈ m.voteCounts ↔ e.1 ∈ m.votedRoots ∧ e.2 = m.votedRoots.count e.1 := by
  obtain ⟨root, n⟩ := e
  have hTally : (root, n) ∈ m.voteCounts ↔ (m.toList.foldl count ∅)[root]? = some n :=
    Std.TreeMap.mem_toList_iff_getElem?_eq_some
  rw [hTally, getElem?_tally]
  show _ ↔ root ∈ m.votedRoots ∧ n = m.votedRoots.count root
  unfold votedRoots
  by_cases h : root ∈ m.toList.map fun vote => vote.2.root
  · simp [h, eq_comm]
  · simp [h]

theorem nodup_map_fst_toList {κ β : Type} [Ord κ] [Std.TransOrd κ] [Std.LawfulEqOrd κ]
    (t : Table κ β) : (t.toList.map Prod.fst).Nodup := by
  rw [List.Nodup, List.pairwise_map]
  refine Std.TreeMap.distinct_keys_toList.imp ?_
  intro a b hDistinct hSame
  exact hDistinct (Std.LawfulEqCmp.compare_eq_iff_eq.mpr hSame)

/-- **Counting by root counts validators**, whatever is counted. -/
theorem sum_voteCounts (P : Root → Prop) [DecidablePred P] :
    (m.voteCounts.map fun e => if P e.1 then e.2 else 0).sum =
      m.votedRoots.countP fun root => P root := by
  -- The roots of the counts are those that are voted for, each of them once.
  have hNodup : (m.voteCounts.map Prod.fst).Nodup := nodup_map_fst_toList _
  have hPerm : (m.voteCounts.map Prod.fst).Perm m.votedRoots.dedup := by
    rw [List.perm_ext_iff_of_nodup hNodup m.votedRoots.nodup_dedup]
    intro root
    rw [List.mem_dedup, List.mem_map]
    constructor
    · rintro ⟨e, he, rfl⟩
      exact (mem_voteCounts.mp he).1
    · intro hRoot
      exact ⟨(root, m.votedRoots.count root), mem_voteCounts.mpr ⟨hRoot, rfl⟩, rfl⟩
  have hCounts : (m.voteCounts.map fun e => if P e.1 then e.2 else 0) =
      (m.voteCounts.map Prod.fst).map fun root =>
        if P root then m.votedRoots.count root else 0 := by
    rw [List.map_map]
    refine List.map_congr_left fun e he => ?_
    rw [Function.comp, (mem_voteCounts.mp he).2]
  rw [hCounts, (hPerm.map _).sum_eq, List.sum_map_ite, List.map_const', List.sum_replicate,
    nsmul_zero, Nat.add_zero]
  exact List.sum_map_count_dedup_filter_eq_countP _ _

/-- The number of validators with a vote of a kind. -/
theorem ncard_voters (P : Root → Prop) [DecidablePred P] :
    {index | ∃ message, m.get? index = some message ∧ P message.root}.ncard =
      m.votedRoots.countP fun root => P root := by
  -- The entries of the table list the voters, each of them once.
  let chosen := (m.toList.filter fun vote => P vote.2.root).map Prod.fst
  have hNodup : chosen.Nodup :=
    (nodup_map_fst_toList m.messages).sublist (List.filter_sublist.map Prod.fst)
  have hSet : {index | ∃ message, m.get? index = some message ∧ P message.root} =
      (chosen.toFinset : Set ValidatorIndex) := by
    ext index
    have hEntry : ∀ message, (index, message) ∈ m.toList ↔ m.get? index = some message :=
      fun message => Std.TreeMap.mem_toList_iff_getElem?_eq_some
    simp [chosen, hEntry]
  rw [hSet, Set.ncard_coe_finset, List.toFinset_card_of_nodup hNodup]
  rw [votedRoots, List.countP_map, List.countP_eq_length_filter, List.length_map]
  rfl

end LatestMessages

/-! ## Support -/

namespace StoreView

variable {v : StoreView} {messages : LatestMessages} {child root : Root} {block : Block} {n : Nat}

/-- The validators whose latest message is for a block or for a descendant of it. -/
def supporters (v : StoreView) (messages : LatestMessages) (root : Root) : Set ValidatorIndex :=
  {index | ∃ message, messages.get? index = some message ∧ v.Descends root message.root}

/-- The number of validators whose latest message is for a block or for a descendant of it. -/
noncomputable def weight (v : StoreView) (messages : LatestMessages) (root : Root) : Nat :=
  (v.supporters messages root).ncard

theorem support_of_known (hBlock : v.block? child = some block) (votes : List (Root × Nat)) :
    v.support votes child = v.supportFrom child block.slot votes := by
  rw [support, hBlock]

/-- A sum over walks that are not too long counts the roots that descend from the block. -/
theorem Descending.supportFrom_eq_sum (hv : v.Descending) [DecidablePred (v.Descends child)]
    (hBlock : v.block? child = some block) {counts : List (Root × Nat)}
    (h : v.supportFrom child block.slot counts = .ok n) :
    n = (counts.map fun e => if v.Descends child e.1 then e.2 else 0).sum := by
  induction counts generalizing n with
  | nil =>
    cases h
    rfl
  | cons e rest ih =>
    simp only [supportFrom, bind_eq_ok, pure_eq_ok] at h
    obtain ⟨ancestor, hAncestor, others, hOthers, rfl⟩ := h
    rw [List.map_cons, List.sum_cons, ← ih hOthers]
    -- The first root counts if the walk from it has found the block.
    simp only [hv.ancestor_eq_iff hBlock hAncestor]

/-- **Support.** The support of a block is the number of its supporters. -/
theorem Descending.support_eq_weight (hv : v.Descending) (hBlock : v.block? child = some block)
    (h : v.support messages.voteCounts child = .ok n) : n = v.weight messages child := by
  classical
  rw [support_of_known hBlock] at h
  rw [hv.supportFrom_eq_sum hBlock h, LatestMessages.sum_voteCounts, weight, supporters,
    LatestMessages.ncard_voters]

/-- Two blocks with the same parent are not on one chain. -/
theorem Descending.eq_of_siblings (hv : v.Descending) {a b p r : Root} (ha : v.parent? a = some p)
    (hb : v.parent? b = some p) (hDescends : v.Descends a r) (hDescends' : v.Descends b r) :
    a = b := by
  -- If one of two siblings descended from the other, so would their parent, which is older.
  have hSame : ∀ {a b : Root}, v.parent? a = some p → v.parent? b = some p → v.Descends a b →
      a = b := by
    rintro a b ha hb ⟨_ | n, hn⟩
    · exact (Option.some.inj hn).symm
    · rw [back_succ_of_parent hb] at hn
      obtain ⟨block, parent, hBlock, hParent, hLt⟩ := hv.parent ha
      have hLe := hv.slot_le hParent hBlock ⟨n, hn⟩
      exact absurd hLt (UInt64.not_lt.mpr hLe)
  rcases hDescends.total hDescends' with h | h
  · exact hSame ha hb h
  · exact (hSame hb ha h).symm

/-- Nobody supports two blocks with the same parent. -/
theorem Descending.not_mem_supporters_of_sibling (hv : v.Descending) {a b p : Root}
    (ha : v.parent? a = some p) (hb : v.parent? b = some p) (hNe : a ≠ b) {index : ValidatorIndex}
    (hIndex : index ∈ v.supporters messages a) : index ∉ v.supporters messages b := by
  obtain ⟨message, hMessage, hDescends⟩ := hIndex
  rintro ⟨message', hMessage', hDescends'⟩
  cases hMessage.symm.trans hMessage'
  exact hNe (hv.eq_of_siblings ha hb hDescends hDescends')

/-- A vote for a root that is not known supports no known block. -/
theorem not_mem_supporters_of_unknown {index : ValidatorIndex} {message : LatestMessage}
    (hMessage : messages.get? index = some message) (hUnknown : v.block? message.root = none)
    (hBlock : v.block? root = some block) : index ∉ v.supporters messages root := by
  rintro ⟨message', hMessage', n, hn⟩
  cases hMessage.symm.trans hMessage'
  -- No link starts from a root that is not known, so the root would be the block itself.
  cases n with
  | zero =>
    cases hn
    rw [hUnknown] at hBlock
    exact absurd hBlock (by simp)
  | succ n =>
    rw [back_succ, parent?, hUnknown] at hn
    simp at hn

end StoreView

end ForkChoice
