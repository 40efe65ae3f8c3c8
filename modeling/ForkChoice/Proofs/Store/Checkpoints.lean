import ForkChoice.Proofs.Store.Tree

/-!
# ForkChoice — checkpoints on a chain

A checkpoint names the last block up to the beginning of an epoch on some chain. The walk of the
program that looks for this block is bounded, and gives up on a long chain; what it means for a
block to be the last one is not. When a block is imported, the checkpoints of the state after it are
candidates for those of the store.

* `StoreView.LastUpTo` — the last block of a chain up to a slot, `lastUpTo_of_ancestor` — what a
  walk finds is one;
* `StoreView.OnChain` — a checkpoint of a chain, or one that is as old as the anchor;
* `Draft.updateJustified_cases`, `Draft.updateFinalized_cases` — what becomes of a candidate.
-/

namespace ForkChoice

theorem Preset.startSlot_mono (p : Preset) {epoch epoch' : Epoch} (h : epoch ≤ epoch') :
    p.startSlot epoch ≤ p.startSlot epoch' := by
  rw [UInt64.le_iff_toNat_le] at h ⊢
  have hProduct := Nat.mul_le_mul_right p.slotsPerEpoch.toNat h
  unfold startSlot
  -- Where the product does not fit into a word, it is replaced by the greatest slot.
  by_cases hFits : epoch'.toNat * p.slotsPerEpoch.toNat < UInt64.size
  · have hFits' := Nat.lt_of_le_of_lt hProduct hFits
    rw [if_pos hFits, if_pos hFits', UInt64.toNat_mul, UInt64.toNat_mul, Nat.mod_eq_of_lt hFits,
      Nat.mod_eq_of_lt hFits']
    exact hProduct
  · rw [if_neg hFits]
    exact Nat.le_of_lt_succ (UInt64.toNat_lt _)

namespace StoreView

variable {v v' : StoreView} {slot slot' : Slot} {a b c r tip root : Root} {block : Block}
  {state : BeaconState}

/-! ## The last block up to a slot -/

/-- The last block up to a slot on the chain that ends at `tip`, all later ones being known. -/
inductive LastUpTo (v : StoreView) (slot : Slot) : Root → Root → Prop
  | here {r : Root} {block : Block} (hBlock : v.block? r = some block) (hSlot : block.slot ≤ slot) :
    LastUpTo v slot r r
  | next {r a : Root} {block : Block} (hBlock : v.block? r = some block)
    (hSlot : slot < block.slot) (hRest : LastUpTo v slot block.parentRoot a) : LastUpTo v slot r a

/-- A walk that finds a block finds the last one. -/
theorem lastUpTo_of_ancestor (h : v.ancestor tip slot = .ok (some a)) : v.LastUpTo slot tip a := by
  -- The bound does not matter for a walk that has come to an end.
  have hWalk : ∀ {fuel tip}, v.ancestorFrom slot fuel tip = some (some a) →
      v.LastUpTo slot tip a := by
    intro fuel
    induction fuel with
    | zero => exact fun h => absurd h (by simp [ancestorFrom])
    | succ fuel ih =>
      intro tip h
      rw [ancestorFrom] at h
      split at h
      · exact absurd h (by simp)
      · rename_i block hBlock
        split at h
        · rename_i hSlot
          cases h
          exact .here hBlock hSlot
        · rename_i hSlot
          exact .next hBlock (UInt64.not_le.mp hSlot) (ih h)
  unfold ancestor at h
  split at h
  · rename_i result hResult
    cases h
    exact hWalk hResult
  · exact absurd h (by simp)

namespace LastUpTo

theorem mono (hMore : Extends v v') (h : v.LastUpTo slot tip a) : v'.LastUpTo slot tip a := by
  induction h with
  | here hBlock hSlot => exact .here (hMore _ _ hBlock) hSlot
  | next hBlock hSlot _ ih => exact .next (hMore _ _ hBlock) hSlot ih

theorem of_sameTree (hSame : SameTree v v') (h : v.LastUpTo slot tip a) :
    v'.LastUpTo slot tip a :=
  h.mono hSame.view_extends

/-- The block is known and not too late. -/
theorem known (h : v.LastUpTo slot tip a) :
    ∃ block, v.block? a = some block ∧ block.slot ≤ slot := by
  induction h with
  | @here r block hBlock hSlot => exact ⟨block, hBlock, hSlot⟩
  | next _ _ _ ih => exact ih

/-- A walk up to an earlier slot passes the last block up to a later one. -/
theorem from_later (h : v.LastUpTo slot tip a) (hEarlier : slot' ≤ slot)
    (h' : v.LastUpTo slot' tip b) : v.LastUpTo slot' a b := by
  -- The second walk takes all links that the first one has taken, and goes on from there.
  induction h with
  | here => exact h'
  | next hBlock hSlot _ ih =>
    cases h' with
    | here hBlock' hSlot' =>
      cases hBlock.symm.trans hBlock'
      exact absurd (UInt64.le_trans hSlot' hEarlier) (UInt64.not_le.mpr hSlot)
    | next hBlock' hSlot' hRest' =>
      cases hBlock.symm.trans hBlock'
      exact ih hRest'

/-- If the anchor is not too late, the walk does not go beyond it. -/
theorem descends {anchor : Block} (hAnchor : v.block? v.anchorRoot = some anchor)
    (hSlot : anchor.slot ≤ slot) (h : v.LastUpTo slot tip a) : v.Descends a tip := by
  induction h with
  | here => exact Descends.refl v _
  | @next r a block hBlock hLater _ ih =>
    have hNe : r ≠ v.anchorRoot := by
      rintro rfl
      cases hAnchor.symm.trans hBlock
      exact absurd hSlot (UInt64.not_le.mpr hLater)
    obtain ⟨n, hn⟩ := ih
    exact ⟨n + 1, by rwa [back_succ_of_parent (parent?_eq hBlock hNe)]⟩

end LastUpTo

/-- A checkpoint is of the epoch of the anchor or an earlier one, or its block is the last one up to
the beginning of its epoch on the chain that ends at `tip`. -/
def OnChain (s : Store) (v : StoreView) (tip : Root) (c : Checkpoint) : Prop :=
  c.epoch ≤ s.justified.epoch ∨ v.LastUpTo (v.preset.startSlot c.epoch) tip c.root

end StoreView

/-! ## The checkpoints of a new state -/

namespace Draft

open StoreView

variable (d : Draft)

/-- The justified checkpoint stays, or the later candidate takes its place. -/
theorem updateJustified_cases (candidate : Checkpoint) : ∃ best,
    (d.updateJustified candidate).2.view = { d.view with bestJustified := best } ∨
      (d.view.justified.epoch < candidate.epoch ∧ (d.updateJustified candidate).2.view =
        { d.view with bestJustified := best, justified := candidate }) := by
  unfold updateJustified
  split
  · exact ⟨_, Or.inl rfl⟩
  · rename_i hLater
    have hLater := UInt64.not_le.mp hLater
    -- The candidate is remembered as the best one, or a better one is known already.
    have hBest : ∃ best, (if d.view.bestJustified.epoch < candidate.epoch then
        d.setBestJustified candidate else d).view = { d.view with bestJustified := best } := by
      split
      · exact ⟨candidate, rfl⟩
      · exact ⟨_, rfl⟩
    obtain ⟨best, hBest⟩ := hBest
    refine ⟨best, ?_⟩
    dsimp only
    split
    · exact Or.inl hBest
    · rename_i update _
      cases update with
      | false => exact Or.inl hBest
      | true =>
        right
        refine ⟨hLater, ?_⟩
        show (Draft.setJustified _ candidate).view = _
        rw [setJustified_view, hBest]

/-- The finalized checkpoint stays, or the later candidate takes its place. In this case the
justified checkpoint stays if it is that of the state or has the candidate on its chain, or else
that of the state takes its place, unless the update fails. -/
theorem updateFinalized_cases (candidate stateJustified : Checkpoint) :
    (d.updateFinalized candidate stateJustified).2.view = d.view ∨
      d.view.finalized.epoch < candidate.epoch ∧
        let v := { d.view with finalized := candidate }
        ((d.updateFinalized candidate stateJustified).2.view = v ∧
            (v.justified = stateJustified ∨ (stateJustified.epoch ≤ v.justified.epoch ∧
              v.ancestor v.justified.root v.finalizedSlot = .ok (some candidate.root)) ∨
                ∃ failure, (d.updateFinalized candidate stateJustified).1 = .error failure) ∨
          (d.updateFinalized candidate stateJustified).2.view =
            { v with justified := stateJustified }) := by
  unfold updateFinalized
  split
  · exact Or.inl rfl
  · rename_i hLater
    refine Or.inr ⟨UInt64.not_le.mp hLater, ?_⟩
    dsimp only
    split
    · rename_i hSame
      exact Or.inl ⟨rfl, Or.inl hSame⟩
    · split
      · exact Or.inr rfl
      · rename_i hNotLater
        split
        · rename_i failure _
          exact Or.inl ⟨rfl, Or.inr (Or.inr ⟨failure, rfl⟩)⟩
        · rename_i update hDescends
          cases update with
          | false => exact Or.inr rfl
          | true =>
            left
            refine ⟨rfl, Or.inr (Or.inl ⟨UInt64.not_lt.mp hNotLater, ?_⟩)⟩
            simp only [justifiedDescendsFrom, bind_eq_ok, pure_eq_ok, decide_eq_true_eq]
              at hDescends
            obtain ⟨ancestor, hAncestor, hFound⟩ := hDescends
            rw [hFound] at hAncestor
            exact hAncestor

end Draft

end ForkChoice
