import ForkChoice.Proofs.Chain.Epochs
import ForkChoice.Proofs.Store.Frame
import ForkChoice.Proofs.Store.Tree
import ForkChoice.Proofs.Store.Walks

/-!
# ForkChoice — whose votes in blocks count

The votes in a block count if the walk back from it comes to the justified block. The walk compares
the epoch of one block, and the root of the grandparent of this block. So a child of the justified
block does not pass, and the epoch of the last block before the justified one does not matter.

The walk follows the link in the anchor like any other one. At genesis this is the root zero, which
is that of the checkpoint before anything is justified: then all blocks but the anchor pass by
their links, and the anchor by its slot.

A walk that succeeds need not meet any block twice, because what lies between two visits can be
left out. So the number of known blocks bounds it, whatever their links are.

* `StoreView.up` — blocks up the links, `StoreView.MeetsAt` — where a walk may succeed;
* `HeadTracker.descendsFrom_eq` — when the walk with a bound succeeds, `MeetsAt.within` — the bound
  does not matter;
* `HeadTracker.Passes`, `HeadTracker.JudgesVotes` — the blocks whose votes count, and all that is
  done with votes in blocks;
* `judgesVotes_of_shows` — it is done so in all stores that come from genesis.
-/

namespace ForkChoice

/-- A slot after the first one of an epoch is not in an earlier epoch. -/
theorem Preset.le_epochAt {p : Preset} {epoch : Epoch} {slot : Slot}
    (h : p.startSlot epoch < slot) : epoch ≤ p.epochAt slot := by
  have hSlots := p.eight_le_slotsPerEpoch
  rw [UInt64.lt_iff_toNat_lt] at h
  rw [UInt64.le_iff_toNat_le, epochAt_toNat, Nat.le_div_iff_mul_le (by omega)]
  by_cases hFits : epoch.toNat * p.slotsPerEpoch.toNat < UInt64.size
  · rw [startSlot_toNat hFits] at h
    exact Nat.le_of_lt h
  · -- No slot is later than the greatest word.
    rw [startSlot, if_neg hFits] at h
    exact absurd h (Nat.not_lt.mpr (Nat.le_of_lt_succ slot.toNat_lt))

/-- The first block of a network has no parent. -/
theorem Store.IsGenesis.anchor_parentRoot [HashFunction] {s : Store} (hs : s.IsGenesis) :
    ∃ anchor, s.view.block? s.anchorRoot = some anchor ∧ anchor.parentRoot = 0 := by
  obtain ⟨config, genesisTime, validators, state, block, -, hBlock, hAnchor⟩ := hs
  obtain ⟨root, -, -, -, -, time, -, hStore⟩ := Store.ofAnchor_eq_ok.mp hAnchor
  simp only [Devnet.genesisBlock, bind_eq_ok, pure_eq_ok] at hBlock
  obtain ⟨stateRoot, -, hGenesis⟩ := hBlock
  refine ⟨block, ?_, ?_⟩
  · rw [← hStore]
    exact StoreView.singleton_block?.trans (if_pos rfl)
  · rw [← hGenesis]

namespace StoreView

/-- The parent of the anchor stays what it was at genesis. -/
theorem anchor_parentRoot_of_shows [HashFunction] [SignatureScheme] {s : Store}
    (hs : s.IsGenesis) {v : StoreView} (hv : s.Shows (slotTransition s.preset) v) :
    ∃ anchor, v.block? v.anchorRoot = some anchor ∧ anchor.parentRoot = 0 := by
  obtain ⟨anchor, hKnown, hParent⟩ := hs.anchor_parentRoot
  have hMore := (stable_extends (slotTransition s.preset) s.view).shows (Extends.refl _) hv
  rw [(grownFrom_of_shows hs hv).anchorRoot]
  exact ⟨anchor, hMore _ _ hKnown, hParent⟩

/-- No more blocks are known than the anchor and those that have been imported. -/
theorem Grown.exists_roots [HashFunction] {v : StoreView} (hv : v.Grown) :
    ∃ roots : List Root, roots.length ≤ v.importCount + 1 ∧
      ∀ r b, v.block? r = some b → r ∈ roots := by
  obtain ⟨imported, hLength, hImported⟩ := hv.imports
  refine ⟨v.anchorRoot :: imported, by rw [List.length_cons, hLength], fun r b hBlock => ?_⟩
  by_cases hNe : r = v.anchorRoot
  · exact List.mem_cons.mpr (Or.inl hNe)
  · exact List.mem_cons_of_mem _ (hImported hBlock hNe)

variable {v : StoreView} {c : Checkpoint} {block parent last b : Block} {root r : Root}
  {m n fuel : Nat}

/-! ## Up the links -/

/-- The block that is so many links up from a block, if this block and all on the way are known.
The link in the anchor is followed like any other one. -/
def up (v : StoreView) : Nat → Block → Option Block
  | 0, block => some block
  | n + 1, block => (v.block? block.parentRoot).bind (v.up n)

@[simp] theorem up_zero : v.up 0 block = some block :=
  rfl

theorem up_succ_of_parent (h : v.block? block.parentRoot = some parent) :
    v.up (n + 1) block = v.up n parent := by
  rw [up, h, Option.bind_some]

/-- Going up in two parts. -/
theorem up_add : v.up (m + n) block = (v.up m block).bind (v.up n) := by
  induction m generalizing block with
  | zero => simp
  | succ m ih =>
    rw [Nat.succ_add, up, up]
    cases v.block? block.parentRoot with
    | none => rfl
    | some parent => exact ih

/-- The parent of the block that is `n` links up is one link further up. -/
theorem up_succ : v.up (n + 1) block = (v.up n block).bind fun b => v.block? b.parentRoot := by
  rw [up_add]
  refine congrArg _ (funext fun b => ?_)
  exact Option.bind_fun_some _

/-- The last link of a chain is that of a known block. -/
theorem exists_last_link (hBack : v.back (n + 1) root = some r) :
    ∃ child last, v.back n root = some child ∧ v.block? child = some last ∧
      last.parentRoot = r := by
  rw [back_add] at hBack
  obtain ⟨child, hChild, hLink⟩ := Option.bind_eq_some_iff.mp hBack
  rw [back_succ, Option.bind_eq_some_iff] at hLink
  obtain ⟨r', hParent, hSame⟩ := hLink
  cases hSame
  obtain ⟨-, last, hLast, hRoot⟩ := parent?_eq_some.mp hParent
  exact ⟨child, last, hChild, hLast, hRoot⟩

/-- The chain of a known block leads up the links of its blocks. -/
theorem up_of_back (hBlock : v.block? root = some block) (hBack : v.back n root = some r)
    (hKnown : v.block? r = some b) : v.up n block = some b := by
  induction n generalizing r b with
  | zero =>
    cases hBack
    exact hBlock.symm.trans hKnown
  | succ n ih =>
    obtain ⟨child, last, hChild, hLast, rfl⟩ := exists_last_link hBack
    rw [up_succ, ih hChild hLast]
    exact hKnown

theorem exists_up_of_back (hBlock : v.block? root = some block)
    (hBack : v.back (n + 1) root = some r) : ∃ last, v.up n block = some last ∧
      last.parentRoot = r := by
  obtain ⟨child, last, hChild, hLast, hRoot⟩ := exists_last_link hBack
  exact ⟨last, up_of_back hBlock hChild hLast, hRoot⟩

/-- Where the parent of the anchor is not known, all that is up the links is on the chain. -/
theorem exists_back_of_up
    (hAnchor : ∀ anchor, v.block? v.anchorRoot = some anchor → v.block? anchor.parentRoot = none)
    (hBlock : v.block? root = some block) (hUp : v.up n block = some last) :
    ∃ r, v.back n root = some r ∧ v.block? r = some last := by
  induction n generalizing root block with
  | zero =>
    cases hUp
    exact ⟨root, rfl, hBlock⟩
  | succ n ih =>
    rw [up, Option.bind_eq_some_iff] at hUp
    obtain ⟨parent, hParent, hRest⟩ := hUp
    have hNe : root ≠ v.anchorRoot := by
      rintro rfl
      rw [hAnchor block hBlock] at hParent
      exact absurd hParent (by simp)
    rw [back_succ_of_parent (parent?_eq hBlock hNe)]
    exact ih hParent hRest

/-! ## Where the walk succeeds -/

/-- The root `n + 1` links up from a block is that of a checkpoint. The blocks in between are known,
and all but the last of them, and the block itself, are not before the epoch of the checkpoint. -/
def MeetsAt (v : StoreView) (c : Checkpoint) (n : Nat) (block : Block) : Prop :=
  (∃ last, v.up n block = some last ∧ last.parentRoot = c.root) ∧
    ∀ m < n, ∃ b, v.up m block = some b ∧ c.epoch ≤ v.preset.epochAt b.slot

theorem meetsAt_zero : v.MeetsAt c 0 block ↔ block.parentRoot = c.root := by
  simp [MeetsAt]

theorem meetsAt_succ : v.MeetsAt c (n + 1) block ↔
    c.epoch ≤ v.preset.epochAt block.slot ∧
      ∃ parent, v.block? block.parentRoot = some parent ∧ v.MeetsAt c n parent := by
  constructor
  · rintro ⟨⟨last, hLast, hRoot⟩, hEpochs⟩
    obtain ⟨b, hHere, hEpoch⟩ := hEpochs 0 (Nat.succ_pos n)
    cases hHere
    rw [up, Option.bind_eq_some_iff] at hLast
    obtain ⟨parent, hParent, hRest⟩ := hLast
    refine ⟨hEpoch, parent, hParent, ⟨last, hRest, hRoot⟩, fun m hm => ?_⟩
    rw [← up_succ_of_parent hParent]
    exact hEpochs (m + 1) (Nat.succ_lt_succ hm)
  · rintro ⟨hEpoch, parent, hParent, ⟨last, hRest, hRoot⟩, hEpochs⟩
    refine ⟨⟨last, by rwa [up_succ_of_parent hParent], hRoot⟩, ?_⟩
    rintro (_ | m) hm
    · exact ⟨block, rfl, hEpoch⟩
    · rw [up_succ_of_parent hParent]
      exact hEpochs m (Nat.lt_of_succ_lt_succ hm)

/-- **A circle can be left out.** If the blocks up two numbers of links are the same, so are the
ends of the ways on from them. -/
theorem MeetsAt.shorten {i j k : Nat} (h : v.MeetsAt c (j + k) block) (hLess : i < j)
    (hSame : v.up i block = v.up j block) : v.MeetsAt c (i + k) block := by
  obtain ⟨⟨last, hLast, hRoot⟩, hEpochs⟩ := h
  have hFrom : ∀ m, v.up (i + m) block = v.up (j + m) block := fun m => by
    rw [up_add, hSame, ← up_add]
  refine ⟨⟨last, by rwa [hFrom], hRoot⟩, fun m hm => ?_⟩
  rcases Nat.lt_or_ge m i with hBefore | hAfter
  · exact hEpochs m (by omega)
  · obtain ⟨m, rfl⟩ := Nat.exists_eq_add_of_le hAfter
    rw [hFrom]
    exact hEpochs (j + m) (by omega)

/-- A way with more links than there are known blocks comes to some block twice. -/
theorem exists_up_eq {roots : List Root} (hKnown : ∀ r b, v.block? r = some b → r ∈ roots)
    (hUp : v.up (n + 1) block = some last) (hLong : roots.length ≤ n) :
    ∃ i j, i < j ∧ j ≤ n ∧ v.up (i + 1) block = v.up (j + 1) block := by
  -- The next block up from each block on the way has a known root.
  have hRoot : ∀ i ≤ n, ∃ b, v.up i block = some b ∧ b.parentRoot ∈ roots := by
    intro i hi
    rw [show n + 1 = i + 1 + (n - i) by omega, up_add, Option.bind_eq_some_iff] at hUp
    obtain ⟨next, hNext, -⟩ := hUp
    rw [up_succ, Option.bind_eq_some_iff] at hNext
    obtain ⟨b, hb, hParent⟩ := hNext
    exact ⟨b, hb, hKnown _ _ hParent⟩
  let rootAt (i : Nat) : Option Root := (v.up i block).map Block.parentRoot
  have hMaps : ∀ i ∈ Finset.range (n + 1), rootAt i ∈ (roots.map some).toFinset := by
    intro i hi
    obtain ⟨b, hb, hMem⟩ := hRoot i (Nat.le_of_lt_succ (Finset.mem_range.mp hi))
    rw [List.mem_toFinset]
    exact List.mem_map.mpr ⟨b.parentRoot, hMem, by simp [rootAt, hb]⟩
  have hFew : (roots.map some).toFinset.card < (Finset.range (n + 1)).card := by
    have hCard := List.toFinset_card_le (roots.map some)
    rw [List.length_map] at hCard
    rw [Finset.card_range]
    omega
  obtain ⟨i, hi, j, hj, hNe, hSame⟩ := Finset.exists_ne_map_eq_of_card_lt_of_maps_to hFew hMaps
  rw [Finset.mem_range, Nat.lt_succ_iff] at hi hj
  have hNext : v.up (i + 1) block = v.up (j + 1) block := by
    obtain ⟨b, hb, -⟩ := hRoot i hi
    obtain ⟨b', hb', -⟩ := hRoot j hj
    simp only [rootAt, hb, hb', Option.map_some, Option.some.injEq] at hSame
    rw [up_succ, up_succ, hb, hb', Option.bind_some, Option.bind_some, hSame]
  rcases Nat.lt_or_gt_of_ne hNe with hLess | hLess
  · exact ⟨i, j, hLess, hj, hNext⟩
  · exact ⟨j, i, hLess, hi, hNext.symm⟩

/-- **Not far.** If the walk succeeds at all, it does so after no more links than there are known
blocks. -/
theorem MeetsAt.within {roots : List Root} (hKnown : ∀ r b, v.block? r = some b → r ∈ roots)
    (h : v.MeetsAt c (n + 1) block) : ∃ m < roots.length, v.MeetsAt c (m + 1) block := by
  induction n using Nat.strong_induction_on with
  | h n ih =>
    rcases Nat.lt_or_ge n roots.length with hNear | hFar
    · exact ⟨n, hNear, h⟩
    · obtain ⟨last, hLast, -⟩ := h.1
      obtain ⟨i, j, hLess, hj, hSame⟩ := exists_up_eq hKnown hLast hFar
      rw [show n + 1 = j + 1 + (n - j) by omega] at h
      have hShort := h.shorten (Nat.succ_lt_succ hLess) hSame
      rw [show i + 1 + (n - j) = i + (n - j) + 1 by omega] at hShort
      exact ih (i + (n - j)) (by omega) hShort

/-- If the block of a checkpoint is the last one of a chain up to the start of the epoch, all blocks
after it are late enough. -/
theorem FirstUpTo.meetsAt (hBlock : v.block? root = some block)
    (h : v.FirstUpTo (v.preset.startSlot c.epoch) root (n + 1) c.root) : v.MeetsAt c n block := by
  obtain ⟨hAbove, hBack, -⟩ := h
  refine ⟨exists_up_of_back hBlock hBack, fun m hm => ?_⟩
  obtain ⟨r, b, hr, hb, hLate⟩ := hAbove m (Nat.lt_succ_of_lt hm)
  exact ⟨b, up_of_back hBlock hr hb, Preset.le_epochAt hLate⟩

end StoreView

namespace HeadTracker

variable {v : StoreView} {h : HeadTracker} {c : Checkpoint} {block : Block} {root : Root}
  {fuel : Nat}

/-! ## The walk -/

/-- The walk with a bound succeeds if it does so within the bound. -/
theorem descendsFrom_eq :
    descendsFrom v c fuel block = true ↔ ∃ n < fuel, v.MeetsAt c (n + 1) block := by
  induction fuel generalizing block with
  | zero => simp [descendsFrom]
  | succ fuel ih =>
    rw [descendsFrom]
    split
    · rename_i hEarly
      refine iff_of_false (by simp) ?_
      rintro ⟨n, -, hMeets⟩
      exact absurd (StoreView.meetsAt_succ.mp hMeets).1 (UInt64.not_le.mpr hEarly)
    · rename_i hEpoch
      have hEpoch := UInt64.not_lt.mp hEpoch
      split
      · rename_i hUnknown
        refine iff_of_false (by simp) ?_
        rintro ⟨n, -, hMeets⟩
        obtain ⟨-, parent, hParent, -⟩ := StoreView.meetsAt_succ.mp hMeets
        exact absurd (hUnknown.symm.trans hParent) (by simp)
      · rename_i parent hParent
        split
        · rename_i hRoot
          refine iff_of_true rfl ⟨0, Nat.succ_pos fuel, ?_⟩
          exact StoreView.meetsAt_succ.mpr ⟨hEpoch, parent, hParent,
            StoreView.meetsAt_zero.mpr hRoot⟩
        · -- The walk goes on from the parent, with one link less.
          rename_i hRoot
          rw [ih]
          constructor
          · rintro ⟨n, hn, hMeets⟩
            exact ⟨n + 1, Nat.succ_lt_succ hn,
              StoreView.meetsAt_succ.mpr ⟨hEpoch, parent, hParent, hMeets⟩⟩
          · rintro ⟨n, hn, hMeets⟩
            obtain ⟨-, parent', hParent', hRest⟩ := StoreView.meetsAt_succ.mp hMeets
            cases hParent.symm.trans hParent'
            cases n with
            | zero => exact absurd (StoreView.meetsAt_zero.mp hRest) hRoot
            | succ n => exact ⟨n, Nat.lt_of_succ_lt_succ hn, hRest⟩

/-! ## Votes -/

/-- Whether the votes in a block count: nothing is justified and the block is of the first slot, or
at least two links up from the block there is the root of the justified block, and the blocks in
between are as they have to be. -/
def Passes (v : StoreView) (h : HeadTracker) (block : Block) : Prop :=
  (h.justified = .empty ∧ block.slot = 0) ∨ ∃ n ≥ 1, v.MeetsAt h.justified n block

/-- What a tracker does with the votes in a known block. -/
structure JudgesVotes (v : StoreView) (h : HeadTracker) (root : Root) (block : Block) : Prop where
  /-- The walk comes to an end by itself, unless the parent of the first block is known. -/
  terminates : v.block? 0 = none →
    v.Descent h.justified block (descendsFrom v h.justified (v.importCount + 2) block)
  counts : h.Passes v block → ∀ votes, h.onBlock v block votes = (true, h.recordAll votes)
  ignores : ¬ h.Passes v block → ∀ votes, h.onBlock v block votes = (false, h)
  /-- Grandchildren of the justified block pass, and all that come after them. -/
  descendant : ∀ n ≥ 2,
    v.FirstUpTo (v.preset.startSlot h.justified.epoch) root n h.justified.root →
      h.Passes v block
  /-- What is not up the links from a block cannot let it pass. -/
  stranger : h.Passes v block → (h.justified = .empty ∧ block.slot = 0) ∨
    ∃ n last, v.up n block = some last ∧ last.parentRoot = h.justified.root
  /-- The only root up the links that is not on the chain in the store is that of the parent of the
  first block. -/
  notDescending : v.block? 0 = none → h.justified.root ≠ 0 →
    ¬ v.Descends h.justified.root root → ¬ h.Passes v block
  /-- Before anything is justified all blocks pass. -/
  unjustified : h.justified = .empty → root ≠ v.anchorRoot → h.Passes v block

/-- The bound of the walk does not matter where it is not less than the number of known blocks. -/
theorem acceptsVotesOf_eq {roots : List Root} (hBound : roots.length ≤ v.importCount + 1)
    (hKnown : ∀ r b, v.block? r = some b → r ∈ roots) :
    h.acceptsVotesOf v block = true ↔ h.Passes v block := by
  have hWalk : descendsFrom v h.justified (v.importCount + 2) block = true ↔
      ∃ n ≥ 1, v.MeetsAt h.justified n block := by
    rw [descendsFrom_eq]
    constructor
    · rintro ⟨n, -, hMeets⟩
      exact ⟨n + 1, Nat.succ_pos n, hMeets⟩
    · rintro ⟨n, hn, hMeets⟩
      obtain ⟨n, rfl⟩ := Nat.exists_eq_add_of_le' hn
      obtain ⟨m, hm, hShort⟩ := hMeets.within hKnown
      exact ⟨m, by omega, hShort⟩
  rw [acceptsVotesOf, Passes, ← hWalk]
  split
  · rename_i hFirst
    simp only [Checkpoint.isEmpty, Bool.and_eq_true, decide_eq_true_eq] at hFirst
    exact iff_of_true rfl (Or.inl hFirst)
  · rename_i hOther
    simp only [Checkpoint.isEmpty, Bool.and_eq_true, decide_eq_true_eq] at hOther
    rw [or_iff_right hOther]

/-- Where the parent of the anchor is not known, a block that passes descends from the justified
one, unless it passes by the link in the anchor. -/
theorem Passes.descends {anchor : Block} (hAnchor : v.block? v.anchorRoot = some anchor)
    (hUnknown : v.block? anchor.parentRoot = none) (hBlock : v.block? root = some block)
    (hNotEmpty : h.justified ≠ .empty) (hRoot : h.justified.root ≠ anchor.parentRoot)
    (hPass : h.Passes v block) : v.Descends h.justified.root root := by
  obtain ⟨hEmpty, -⟩ | ⟨n, -, ⟨last, hLast, hMeets⟩, -⟩ := hPass
  · exact absurd hEmpty hNotEmpty
  have hOnly : ∀ b, v.block? v.anchorRoot = some b → b = anchor := fun b hb =>
    Option.some.inj (hb.symm.trans hAnchor)
  obtain ⟨r, hBack, hr⟩ := StoreView.exists_back_of_up
    (fun b hb => by rwa [hOnly b hb]) hBlock hLast
  -- The last block has a link to the justified one, so it is not the anchor.
  have hNe : r ≠ v.anchorRoot := by
    rintro rfl
    rw [hOnly last hr] at hMeets
    exact hRoot hMeets.symm
  refine ⟨n + 1, ?_⟩
  rw [StoreView.back_add, hBack, Option.bind_some,
    StoreView.back_succ_of_parent (StoreView.parent?_eq hr hNe), hMeets, StoreView.back_zero]

/-- Before anything is justified the link in the anchor lets all other blocks pass. -/
theorem passes_of_unjustified {anchor : Block} (hAnchor : v.block? v.anchorRoot = some anchor)
    (hParent : anchor.parentRoot = 0) (hBlock : v.block? root = some block)
    (hDescends : v.Descends v.anchorRoot root) (hNe : root ≠ v.anchorRoot)
    (hEmpty : h.justified = .empty) : h.Passes v block := by
  obtain ⟨n, hBack⟩ := hDescends
  have hUp := StoreView.up_of_back hBlock hBack hAnchor
  refine Or.inr ⟨n, Nat.pos_of_ne_zero ?_, ⟨anchor, hUp, ?_⟩, fun m hm => ?_⟩
  · rintro rfl
    exact hNe (Option.some.inj hBack)
  · rw [hParent, hEmpty]
    rfl
  · -- No block is before the first epoch.
    rw [show n = m + (n - m) by omega, StoreView.up_add, Option.bind_eq_some_iff] at hUp
    obtain ⟨b, hb, -⟩ := hUp
    rw [hEmpty]
    exact ⟨b, hb, UInt64.zero_le⟩

end HeadTracker

open HeadTracker in
/-- **Votes in blocks.** In every store that comes from genesis and in every draft of it, and
whatever is justified, the votes in a known block count if and only if the justified block is met
at least two links up from it and no block before the last one is too early. -/
theorem judgesVotes_of_shows [HashFunction] [SignatureScheme] {s : Store} (hs : s.IsGenesis)
    {v : StoreView} (hv : s.Shows (slotTransition s.preset) v) (h : HeadTracker) {root : Root}
    {block : Block} (hBlock : v.block? root = some block) : h.JudgesVotes v root block := by
  have hGrown := (StoreView.grownFrom_of_shows hs hv).grown
  obtain ⟨anchor, hAnchor, hParent⟩ := StoreView.anchor_parentRoot_of_shows hs hv
  obtain ⟨roots, hBound, hKnown⟩ := hGrown.exists_roots
  have hPasses : h.acceptsVotesOf v block = true ↔ h.Passes v block :=
    acceptsVotesOf_eq hBound hKnown
  exact {
    terminates := by
      intro hZero
      have hRooted := (StoreView.stable_rooted (slotTransition s.preset)).shows
        (StoreView.rooted_of_anchored hs.isAnchored) hv
      refine hRooted.descent h.justified (fun b hb => ?_) hBlock
      rw [Option.some.inj (hb.symm.trans hAnchor), hParent, hZero]
    counts := by
      intro hPass votes
      rw [onBlock, if_pos (hPasses.mpr hPass)]
    ignores := by
      intro hFail votes
      rw [onBlock, if_neg (fun hAccepted => hFail (hPasses.mp hAccepted))]
    descendant := by
      intro n hn hFirst
      obtain ⟨n, rfl⟩ := Nat.exists_eq_add_of_le' hn
      exact Or.inr ⟨n + 1, Nat.succ_pos n, hFirst.meetsAt hBlock⟩
    stranger := Or.imp_right fun ⟨n, _, hMeets, _⟩ => ⟨n, hMeets⟩
    notDescending := by
      intro hZero hRoot hStranger hPass
      refine hStranger (hPass.descends hAnchor (hParent ▸ hZero) hBlock ?_ (hParent ▸ hRoot))
      exact fun hEmpty => hRoot (congrArg Checkpoint.root hEmpty)
    unjustified := fun hEmpty hNe =>
      passes_of_unjustified hAnchor hParent hBlock (hGrown.descends_anchor hBlock) hNe hEmpty }

/-- After two blocks in a row, with the anchor justified: the votes in the second block count, and
those in the first one, which is a child of the anchor, do not. -/
theorem judgesVotes_of_chained :
    letI : HashFunction := Engine.linearHash
    letI : SignatureScheme := Bls.scheme
    ∃ (n : Engine.ChainedNetwork) (v : StoreView) (first second : Root) (h : HeadTracker),
      Engine.chainedNetwork = some n ∧ n.store.IsGenesis ∧
        n.store.Shows (slotTransition n.store.preset) v ∧ v.block? 0 = none ∧
          h.justified = ⟨0, v.anchorRoot⟩ ∧
            (v.block? first = some n.first ∧ h.JudgesVotes v first n.first ∧
              ¬ h.Passes v n.first) ∧
              v.block? second = some n.second ∧ h.JudgesVotes v second n.second ∧
                h.Passes v n.second := by
  let : HashFunction := Engine.linearHash
  let : SignatureScheme := Bls.scheme
  let history (n : Engine.ChainedNetwork) : List Transaction :=
    [⟨[.tick 18, .block n.first, .block n.second], true⟩]
  let after (n : Engine.ChainedNetwork) : StoreView :=
    (n.store.after (slotTransition n.store.preset) (history n)).view
  let tracker (n : Engine.ChainedNetwork) : HeadTracker :=
    { justified := ⟨0, (after n).anchorRoot⟩ }
  have hRuns : (Engine.chainedNetwork.any fun n =>
      n.first.treeRoot.toOption.any fun first => n.second.treeRoot.toOption.any fun second =>
        decide ((after n).block? 0 = none) && decide ((after n).block? first = some n.first) &&
          decide ((after n).block? second = some n.second) &&
            !((tracker n).onBlock (after n) n.first []).1 &&
              ((tracker n).onBlock (after n) n.second []).1) = true := by
    decide +kernel
  obtain ⟨n, hNetwork, hs, hRun⟩ := Engine.exists_chainedNetwork hRuns
  simp only [Bool.and_eq_true, Option.any_eq_true, decide_eq_true_eq, Bool.not_eq_true'] at hRun
  obtain ⟨first, -, second, -, ⟨⟨⟨hZero, hFirst⟩, hSecond⟩, hIgnored⟩, hCounted⟩ := hRun
  have hShows : n.store.Shows (slotTransition n.store.preset) (after n) := ⟨history n, Or.inl rfl⟩
  have hJudgesFirst := judgesVotes_of_shows hs hShows (tracker n) hFirst
  have hJudgesSecond := judgesVotes_of_shows hs hShows (tracker n) hSecond
  refine ⟨n, _, first, second, tracker n, hNetwork, hs, hShows, hZero, rfl,
    ⟨hFirst, hJudgesFirst, fun hPass => ?_⟩, hSecond, hJudgesSecond, ?_⟩
  · rw [hJudgesFirst.counts hPass []] at hIgnored
    exact absurd hIgnored (by simp)
  · by_contra hFail
    rw [hJudgesSecond.ignores hFail []] at hCounted
    exact absurd hCounted (by simp)

end ForkChoice
