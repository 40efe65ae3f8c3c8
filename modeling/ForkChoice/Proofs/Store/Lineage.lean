import ForkChoice.Proofs.Store.Growth
import ForkChoice.Proofs.Store.Verdict

/-!
# ForkChoice — blocks one on top of the other

After genesis the checkpoints do not move, so whether a block is imported depends on the chain of
its parent and on the time alone. A block that is imported into a big tree would therefore also be
imported by a store that knows nothing but its chain, and the other way round. Such stores give a
description of what can be imported at all in which no order of arrival occurs.

* `StoreView.Within`, `StoreView.SameClock` — views of one network that know less and more;
* `StoreView.Fits` — what is asked of a block but that it is new and that its slot has come;
* `GrownFrom.fits_iff` — the rest of the tree does not matter;
* `Lineage` — stores that know one chain each, `Lineage.unique` — one for each root;
* `Importable` — the blocks of these chains.
-/

namespace ForkChoice

namespace StoreView

variable {v v' v'' : StoreView} {r root : Root} {block b : Block} {state : BeaconState} {m n : Nat}

/-! ## Knowing less and knowing more -/

/-- All that is known in one view is known in the other one. -/
structure Within (v v' : StoreView) : Prop where
  blocks : Extends v v'
  states : ∀ r state, v.state? r = some state → v'.state? r = some state

namespace Within

theorem trans (h : Within v v') (h' : Within v' v'') : Within v v'' :=
  ⟨h.blocks.trans h'.blocks, fun r state hState => h'.states r state (h.states r state hState)⟩

theorem of_sameTree (h : SameTree v v') : Within v v' where
  blocks := h.view_extends
  states r state hState := by
    rw [h.state?]
    exact hState

/-- A new block hides nothing. -/
theorem withBlock [HashFunction] (hv : v.Grown) (hFresh : v.block? root = none) :
    Within v (v.withBlock root block state) where
  blocks := extends_withBlock hFresh
  states r s hState := by
    have hNe : r ≠ root := by
      rintro rfl
      obtain ⟨b, hKnown⟩ := hv.known hState
      rw [hFresh] at hKnown
      exact absurd hKnown (by simp)
    rw [withBlock_state?_of_ne hNe, hState]

/-- The same new block is added to both. -/
theorem withBlock_withBlock (h : Within v v') :
    Within (v.withBlock root block state) (v'.withBlock root block state) where
  blocks r b hBlock := by
    rcases withBlock_cases hBlock with ⟨rfl, rfl⟩ | ⟨hNe, hOld⟩
    · exact withBlock_block?_self
    · rw [withBlock_block?_of_ne hNe]
      exact h.blocks r b hOld
  states r s hState := by
    by_cases hr : r = root
    · rw [hr, withBlock_state?_self] at hState ⊢
      exact hState
    · rw [withBlock_state?_of_ne hr] at hState ⊢
      exact h.states r s hState

end Within

/-- Both views show the same time and count slots in the same way. -/
structure SameClock (v v' : StoreView) : Prop where
  time : v'.time = v.time
  genesisTime : v'.genesisTime = v.genesisTime
  config : v'.config = v.config

namespace SameClock

theorem refl (v : StoreView) : SameClock v v :=
  ⟨rfl, rfl, rfl⟩

theorem trans (h : SameClock v v') (h' : SameClock v' v'') : SameClock v v'' :=
  ⟨h'.time.trans h.time, h'.genesisTime.trans h.genesisTime, h'.config.trans h.config⟩

theorem of_sameChain (h : SameChain v v') : SameClock v v' := by
  rw [h]
  exact ⟨rfl, rfl, rfl⟩

/-- A new block and new checkpoints leave the clock alone. -/
theorem of_imported (h : Rejustified (v.withBlock root block state) v') : SameClock v v' := by
  rw [h]
  exact ⟨rfl, rfl, rfl⟩

theorem currentSlot (h : SameClock v v') : v'.currentSlot = v.currentSlot := by
  rw [StoreView.currentSlot, StoreView.currentSlot, h.time, h.genesisTime, h.config]

end SameClock

/-- Slots do not go back while time moves on. -/
theorem currentSlot_le (hGenesis : v'.genesisTime = v.genesisTime) (hConfig : v'.config = v.config)
    (hTime : v.time ≤ v'.time) : v.currentSlot ≤ v'.currentSlot := by
  rw [currentSlot, currentSlot, hGenesis, hConfig, UInt64.le_iff_toNat_le, UInt64.toNat_div,
    UInt64.toNat_div]
  apply Nat.div_le_div_right
  rw [UInt64.le_iff_toNat_le] at hTime
  unfold Word.satSub
  by_cases h : v.genesisTime ≤ v.time
  · have h' : v.genesisTime ≤ v'.time := by
      rw [UInt64.le_iff_toNat_le] at h ⊢
      omega
    rw [if_pos h, if_pos h', UInt64.toNat_sub_of_le _ _ h, UInt64.toNat_sub_of_le _ _ h']
    omega
  · rw [if_neg h]
    exact Nat.zero_le _

/-! ## What is asked of a block -/

/-- Only one number of links leads from a block to the anchor. -/
theorem back_anchor_unique (hm : v.back m r = some v.anchorRoot)
    (hn : v.back n r = some v.anchorRoot) : m = n := by
  have hShorter : ∀ {m n}, m ≤ n → v.back m r = some v.anchorRoot →
      v.back n r = some v.anchorRoot → m = n := by
    intro m n hle hm hn
    obtain ⟨k, rfl⟩ := Nat.exists_eq_add_of_le hle
    rw [back_add, hm, Option.bind_some] at hn
    cases k with
    | zero => rfl
    | succ k =>
      rw [back_succ, parent?, if_pos rfl] at hn
      exact absurd hn (by simp)
  rcases Nat.le_total m n with hle | hle
  · exact hShorter hle hm hn
  · exact (hShorter hle hn hm).symm

section

variable [HashFunction]

/-- What is asked of a block, and the state after it. That the block is not known yet and that its
slot has come is asked besides. -/
structure Fits (v : StoreView) (root : Root) (b : Block) (state : BeaconState) : Prop where
  root_eq : b.treeRoot = .ok root
  later : v.finalizedSlot < b.slot
  near : v.ancestor b.parentRoot v.finalizedSlot = .ok (some v.finalized.root)
  applied : ∃ parentState last, v.state? b.parentRoot = some parentState ∧
    Word.add parentState.slot v.limits.maxEmptySlots = .ok last ∧ b.slot ≤ last ∧
      (slotTransition v.preset).applyBlock parentState b = .ok state

namespace Grown

theorem finalizedSlot_eq (hv : v.Grown) : v.finalizedSlot = 0 := by
  rw [finalizedSlot, hv.finalized]
  cases v.preset <;> rfl

/-- The walk to the finalized block asks for the distance from the anchor. -/
theorem near_iff (hv : v.Grown) : v.ancestor r v.finalizedSlot = .ok (some v.finalized.root) ↔
    ∃ n ≤ v.reach, v.back n r = some v.anchorRoot := by
  rw [hv.finalizedSlot_eq, hv.finalized, ancestor_eq_some hv.anchored]
  constructor
  · rintro ⟨n, hReach, -, hBack, -⟩
    exact ⟨n, hReach, hBack⟩
  · rintro ⟨n, hReach, hBack⟩
    obtain ⟨anchor, hAnchor, hSlot⟩ := hv.anchor
    have hAbove := hv.descending.above hAnchor hBack
    rw [hSlot] at hAbove
    exact ⟨n, hReach, hAbove, hBack, anchor, hAnchor, hSlot ▸ UInt64.le_refl _⟩

end Grown

variable {s : Store}

/-- **The rest of the tree does not matter.** A block fits into a view that knows its parent if and
only if it fits into one that knows more. -/
theorem GrownFrom.fits_iff (h : GrownFrom s v) (h' : GrownFrom s v') (hWithin : Within v v')
    (hParent : ∃ parent, v.block? b.parentRoot = some parent) :
    v.Fits root b state ↔ v'.Fits root b state := by
  -- Everything that is asked of the block is read from its parent and from what never changes.
  obtain ⟨parent, hParent⟩ := hParent
  obtain ⟨parentState, hState, -⟩ := h.grown.entry hParent
  have hState' := hWithin.states _ _ hState
  have hAnchor : v'.anchorRoot = v.anchorRoot := h'.anchorRoot.trans h.anchorRoot.symm
  have hLimits : v'.limits = v.limits := h'.limits.trans h.limits.symm
  have hPreset : v'.preset = v.preset := h'.preset.trans h.preset.symm
  have hFinalized : v'.finalizedSlot = v.finalizedSlot :=
    h'.grown.finalizedSlot_eq.trans h.grown.finalizedSlot_eq.symm
  have hBack : ∀ {n}, v.back n b.parentRoot = some v.anchorRoot →
      v'.back n b.parentRoot = some v'.anchorRoot := by
    intro n hn
    rw [hAnchor]
    exact back_mono hAnchor hWithin.blocks hn
  have hNear : v.ancestor b.parentRoot v.finalizedSlot = .ok (some v.finalized.root) ↔
      v'.ancestor b.parentRoot v'.finalizedSlot = .ok (some v'.finalized.root) := by
    rw [h.grown.near_iff, h'.grown.near_iff, reach, reach, hLimits]
    constructor
    · rintro ⟨n, hReach, hn⟩
      exact ⟨n, hReach, hBack hn⟩
    · rintro ⟨n, hReach, hn⟩
      -- The chain of the parent is in the smaller view, and has the same length there.
      obtain ⟨m, hm⟩ := h.grown.descends_anchor hParent
      cases back_anchor_unique (hBack hm) hn
      exact ⟨n, hReach, hm⟩
  constructor
  · rintro ⟨hRoot, hLater, hOld, _, last, hSome, hLast, hGap, hApplied⟩
    cases hState.symm.trans hSome
    exact ⟨hRoot, hFinalized ▸ hLater, hNear.mp hOld, parentState, last, hState',
      hLimits ▸ hLast, hGap, hPreset ▸ hApplied⟩
  · rintro ⟨hRoot, hLater, hOld, _, last, hSome, hLast, hGap, hApplied⟩
    cases hState'.symm.trans hSome
    exact ⟨hRoot, hFinalized ▸ hLater, hNear.mpr hOld, parentState, last, hState,
      hLimits ▸ hLast, hGap, hPreset ▸ hApplied⟩

variable {d d' : Draft}

/-- A block that is imported fits, is new, and its slot has come. -/
theorem GrownFrom.fits_of_imported (h : GrownFrom s d.view)
    (hImport : d.importBlock (slotTransition s.preset) b = (.ok (.imported root), d')) :
    ∃ state, d.view.Fits root b state ∧ d.view.block? root = none ∧
      b.slot ≤ d.view.currentSlot ∧ d'.view = d.view.withBlock root b state := by
  rcases h.importBlock_cases b with
    ⟨-, hNot⟩ | ⟨root', parentState, state, hAdmitted, hApplied, hView, hRoot⟩
  · exact absurd (congrArg Prod.fst hImport) (hNot root)
  · cases hRoot root (congrArg Prod.fst hImport)
    rw [hImport] at hView
    obtain ⟨hRootEq, hFresh, hParent, hSlot, hLater, hNear, last, hLast, hGap⟩ :=
      admitBlock_eq_fresh.mp hAdmitted
    exact ⟨state, ⟨hRootEq, hLater, hNear, parentState, last, hParent, hLast, hGap, hApplied⟩,
      hFresh, hSlot, hView⟩

/-- A new block that fits is imported when its slot has come. -/
theorem GrownFrom.imported_of_fits (h : GrownFrom s d.view) (hFits : d.view.Fits root b state)
    (hFresh : d.view.block? root = none) (hSlot : b.slot ≤ d.view.currentSlot) :
    d.importBlock (slotTransition s.preset) b =
      (.ok (.imported root), d.countApplyBlock.insertBlock root b state) := by
  obtain ⟨parentState, last, hParent, hLast, hGap, hApplied⟩ := hFits.applied
  have hAdmitted : d.view.admitBlock b = .ok (.fresh root parentState) :=
    admitBlock_eq_fresh.mpr
      ⟨hFits.root_eq, hFresh, hParent, hSlot, hFits.later, hFits.near, last, hLast, hGap⟩
  have hAfter := BeaconState.slotTransition_applyBlock hApplied
  rw [h.preset] at hApplied
  rw [Draft.importBlock, hAdmitted]
  dsimp only
  rw [hApplied]
  dsimp only
  rw [h.updateCheckpoints_eq hAdmitted hAfter]

end

end StoreView

/-! ## Early and known blocks -/

namespace Draft

variable [HashFunction] {t : StateTransition} {d : Draft} {b : Block} {root : Root}

/-- A known block is not imported again. -/
theorem importBlock_of_known {block : Block} (hRoot : b.treeRoot = .ok root)
    (hKnown : d.view.block? root = some block) :
    (d.importBlock t b).1 = .ok (.alreadyKnown root) := by
  simp [importBlock, StoreView.admitBlock, hRoot, Checked.toOutcome, StoreView.containsBlock,
    hKnown, bind, Except.bind, pure, Except.pure]

/-- A new block is delayed without its parent, and before its slot. -/
theorem importBlock_of_early (hRoot : b.treeRoot = .ok root) (hFresh : d.view.block? root = none)
    (hEarly : d.view.state? b.parentRoot = none ∨ d.view.currentSlot < b.slot) :
    ∃ reason : StoreError, (d.importBlock t b).1 = .error (.error reason) ∧
      reason.isDelayable = true := by
  have hAdmission : ∃ reason : StoreError, d.view.admitBlock b = .error (.error reason) ∧
      reason.isDelayable = true := by
    have hUnknown : ¬ d.view.containsBlock root = true := by simp [StoreView.containsBlock, hFresh]
    rw [StoreView.admitBlock, hRoot]
    show ∃ reason : StoreError, (if d.view.containsBlock root = true then _ else _) = _ ∧ _
    rw [if_neg hUnknown]
    cases hParent : d.view.state? b.parentRoot with
    | none => exact ⟨_, rfl, rfl⟩
    | some state =>
      rw [hParent] at hEarly
      dsimp only
      rw [if_pos (hEarly.resolve_left (by simp))]
      exact ⟨_, rfl, rfl⟩
  obtain ⟨reason, hRefused, hDelayable⟩ := hAdmission
  exact ⟨reason, by rw [importBlock, hRefused], hDelayable⟩

end Draft

/-! ## Stores that know one chain -/

/-- Stores that know one chain each: the one from which all begin, and those that come from another
one by the import of a block on top of it. The blocks are taken from a list. -/
inductive Lineage [HashFunction] (t : StateTransition) (blocks : List Block) (start : Store) :
    Store → Root → Prop
  | anchor : Lineage t blocks start start start.anchorRoot
  | child {s : Store} {b : Block} {root : Root} {d : Draft}
    (hRest : Lineage t blocks start s b.parentRoot) (hMem : b ∈ blocks)
    (hSlot : b.slot ≤ s.view.currentSlot)
    (hImport : (Draft.ofStore s).importBlock t b = (.ok (.imported root), d)) :
    Lineage t blocks start d.commit root

/-- A block, and the state after it, with which one of these chains ends. -/
def Importable [HashFunction] (t : StateTransition) (blocks : List Block) (start : Store)
    (root : Root) (block : Block) (state : BeaconState) : Prop :=
  ∃ s, Lineage t blocks start s root ∧ s.view.block? root = some block ∧
    s.view.state? root = some state

/-- The known blocks and states are those with which one of these chains ends. -/
structure StoreView.KnowsImportable [HashFunction] (t : StateTransition) (blocks : List Block)
    (start : Store) (v : StoreView) : Prop where
  block : ∀ root block, v.block? root = some block ↔
    ∃ state, Importable t blocks start root block state
  state : ∀ root state, v.state? root = some state ↔
    ∃ block, Importable t blocks start root block state

/-- Blocks that differ have roots that differ. -/
def DistinctRoots [HashFunction] (blocks : List Block) : Prop :=
  ∀ b ∈ blocks, ∀ b' ∈ blocks, ∀ root, b.treeRoot = .ok root → b'.treeRoot = .ok root → b = b'

namespace Lineage

/-- Only what is in the list matters. -/
theorem mono [HashFunction] {t : StateTransition} {blocks blocks' : List Block} {start s : Store}
    {root : Root} (hMore : ∀ b ∈ blocks, b ∈ blocks') (h : Lineage t blocks start s root) :
    Lineage t blocks' start s root := by
  induction h with
  | anchor => exact .anchor
  | child _ hMem hSlot hImport ih => exact .child ih (hMore _ hMem) hSlot hImport

end Lineage

theorem Importable.mono [HashFunction] {t : StateTransition} {blocks blocks' : List Block}
    {start : Store} {root : Root} {block : Block} {state : BeaconState}
    (hMore : ∀ b ∈ blocks, b ∈ blocks') (h : Importable t blocks start root block state) :
    Importable t blocks' start root block state := by
  obtain ⟨s, hLineage, hKnown⟩ := h
  exact ⟨s, hLineage.mono hMore, hKnown⟩

namespace Lineage

open StoreView

variable [HashFunction] [SignatureScheme] {genesis start s s' : Store} {blocks : List Block}
  {root : Root}

theorem grownFrom (hStart : GrownFrom genesis start.view)
    (h : Lineage (slotTransition genesis.preset) blocks start s root) :
    GrownFrom genesis s.view := by
  induction h with
  | anchor => exact hStart
  | @child s b root d _ _ _ hImport ih =>
    have hStable := stable_grownFrom genesis
    exact hStable.commit d (hStable.importBlock hImport (by rwa [Draft.ofStore_view]))

omit [SignatureScheme] in
/-- A store of a lineage after one more block. -/
theorem child_view {b : Block} {d : Draft} (hGrown : GrownFrom genesis s.view)
    (hImport : (Draft.ofStore s).importBlock (slotTransition genesis.preset) b =
      (.ok (.imported root), d)) :
    ∃ state, s.view.Fits root b state ∧ s.view.block? root = none ∧
      SameChain (s.view.withBlock root b state) d.commit.view := by
  have hView := Draft.ofStore_view s
  obtain ⟨state, hFits, hFresh, -, hDraft⟩ :=
    GrownFrom.fits_of_imported (by rwa [hView]) hImport
  rw [hView] at hFits hFresh hDraft
  exact ⟨state, hFits, hFresh, hDraft ▸ d.commit_sameChain⟩

/-- In a lineage no time passes. -/
theorem sameClock (hStart : GrownFrom genesis start.view)
    (h : Lineage (slotTransition genesis.preset) blocks start s root) :
    SameClock start.view s.view := by
  induction h with
  | anchor => exact SameClock.refl _
  | @child s b root d hRest _ _ hImport ih =>
    obtain ⟨state, -, -, hSame⟩ := child_view (hRest.grownFrom hStart) hImport
    have hAdded : SameClock s.view (s.view.withBlock root b state) := ⟨rfl, rfl, rfl⟩
    exact ih.trans (hAdded.trans (.of_sameChain hSame))

/-- **One chain for each root.** If blocks that differ have roots that differ, two stores whose
chains end with the same root are the same. -/
theorem unique (hStart : GrownFrom genesis start.view) (hDistinct : DistinctRoots blocks)
    (h : Lineage (slotTransition genesis.preset) blocks start s root)
    (h' : Lineage (slotTransition genesis.preset) blocks start s' root) : s = s' := by
  -- A block that is imported is not the anchor, which is known from the beginning.
  have hNe : ∀ {s : Store} {b : Block} {root : Root} {d : Draft},
      Lineage (slotTransition genesis.preset) blocks start s b.parentRoot →
      (Draft.ofStore s).importBlock (slotTransition genesis.preset) b = (.ok (.imported root), d) →
        root ≠ start.anchorRoot := by
    rintro s b root d hRest hImport rfl
    have hGrown := hRest.grownFrom hStart
    obtain ⟨state, -, hFresh, -⟩ := child_view hGrown hImport
    obtain ⟨anchor, hAnchor, -⟩ := hGrown.grown.anchor
    rw [hGrown.anchorRoot, ← show start.anchorRoot = _ from hStart.anchorRoot, hFresh] at hAnchor
    exact absurd hAnchor (by simp)
  have hRoot : ∀ {s : Store} {b : Block} {root : Root} {d : Draft},
      Lineage (slotTransition genesis.preset) blocks start s b.parentRoot →
      (Draft.ofStore s).importBlock (slotTransition genesis.preset) b = (.ok (.imported root), d) →
        b.treeRoot = .ok root := by
    intro s b root d hRest hImport
    obtain ⟨state, hFits, -⟩ := child_view (hRest.grownFrom hStart) hImport
    exact hFits.root_eq
  induction h generalizing s' with
  | anchor =>
    generalize hEnd : start.anchorRoot = root at h'
    cases h' with
    | anchor => rfl
    | child hRest _ _ hImport => exact absurd hEnd.symm (hNe hRest hImport)
  | @child s b root d hRest hMem _ hImport ih =>
    cases h' with
    | anchor => exact absurd rfl (hNe hRest hImport)
    | @child s' b' _ d' hRest' hMem' _ hImport' =>
      -- Both end with the same block, so with the same parent, of which there is one lineage.
      cases hDistinct b hMem b' hMem' root (hRoot hRest hImport) (hRoot hRest' hImport')
      cases ih hRest'
      rw [hImport] at hImport'
      cases hImport'
      rfl

end Lineage

end ForkChoice
