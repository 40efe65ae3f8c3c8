import ForkChoice.Proofs.Store.Ancestry
import ForkChoice.Proofs.Store.Genesis
import ForkChoice.Proofs.Store.History
import ForkChoice.Proofs.Transition.Frame

/-!
# ForkChoice — how a store grows from genesis

A store that begins at genesis and moves on by slots and blocks is a tree under its anchor. The
invariant says more than that. The checkpoints never move, because no state that slots and blocks
lead to justifies anything; so a block is admitted only if its parent is found within the reach of
a walk that ends at the anchor itself.

* `StoreView.Entry` — a block and its state that belong together;
* `StoreView.Placed` — a block that has its parent below it, and the anchor not far below that;
* `StoreView.Grown` — the invariant;
* `grown_of_genesis`, `Grown.withBlock` — its beginning, and the one step that changes the tree;
* `GrownFrom.importBlock_cases` — an import is this step, or nothing;
* `stable_grownFrom`, `grownFrom_of_shows` — it holds of all that can be read after genesis.
-/

namespace ForkChoice

namespace StoreView

variable {v v' : StoreView} {r root : Root} {block : Block} {state : BeaconState}

/-! ## The invariant -/

/-- A block and a state that belong to each other and to a root. No checkpoint of the state is
later than the first epoch. -/
structure Entry [HashFunction] (p : Preset) (root : Root) (block : Block) (state : BeaconState) :
    Prop where
  root_eq : block.treeRoot = .ok root
  stateRoot_eq : state.treeRoot p = .ok block.stateRoot
  headerSlot : state.latestBlockHeader.slot = block.slot
  justifiedEpoch : state.currentJustified.epoch = 0
  finalizedEpoch : state.finalized.epoch = 0

/-- The parent of a block is known and older, and from it the anchor is within reach. -/
structure Placed (v : StoreView) (block : Block) : Prop where
  parent : ∃ parent, v.block? block.parentRoot = some parent ∧ parent.slot < block.slot
  near : ∃ n ≤ v.reach, v.back n block.parentRoot = some v.anchorRoot

/-- The checkpoint that the anchor stands for at genesis. -/
def genesisCheckpoint (v : StoreView) : Checkpoint :=
  ⟨0, v.anchorRoot⟩

/-- The view of a store that has grown from genesis. -/
structure Grown [HashFunction] (v : StoreView) : Prop where
  anchor : ∃ block, v.block? v.anchorRoot = some block ∧ block.slot = 0
  entry : ∀ {r : Root} {block : Block}, v.block? r = some block →
    ∃ state, v.state? r = some state ∧ Entry v.preset r block state
  known : ∀ {r : Root} {state : BeaconState}, v.state? r = some state →
    ∃ block, v.block? r = some block
  placed : ∀ {r : Root} {block : Block}, v.block? r = some block → r ≠ v.anchorRoot →
    v.Placed block
  mem_children : ∀ {p c : Root}, c ∈ v.children p ↔ v.parent? c = some p
  nodup_children : ∀ p, (v.children p).Nodup
  /-- No more blocks are known than have been imported. -/
  imports : ∃ imported : List Root, imported.length = v.importCount ∧
    ∀ {r : Root} {block : Block}, v.block? r = some block → r ≠ v.anchorRoot → r ∈ imported
  justified : v.justified = v.genesisCheckpoint
  bestJustified : v.bestJustified = v.genesisCheckpoint
  finalized : v.finalized = v.genesisCheckpoint

/-! ## What does not touch the tree -/

/-- A block keeps its place when other blocks are added. -/
theorem Placed.mono (h : v.Placed block) (hAnchor : v'.anchorRoot = v.anchorRoot)
    (hLimits : v'.limits = v.limits) (hBlocks : Extends v v') : v'.Placed block := by
  obtain ⟨⟨parent, hParent, hSlot⟩, n, hReach, hNear⟩ := h
  refine ⟨⟨parent, hBlocks _ _ hParent, hSlot⟩, n, ?_, ?_⟩
  · rw [reach, hLimits]
    exact hReach
  · rw [hAnchor]
    exact back_mono hAnchor hBlocks hNear

theorem SameTree.parent?_eq (h : SameTree v v') : v'.parent? r = v.parent? r := by
  rw [parent?, parent?, h.anchorRoot, h.block?]

variable [HashFunction]

theorem Grown.of_sameTree (hv : v.Grown) (h : SameTree v v')
    (hJustified : v'.justified = v.justified) (hBest : v'.bestJustified = v.bestJustified)
    (hFinalized : v'.finalized = v.finalized) : v'.Grown where
  anchor := by
    rw [h.block?, h.anchorRoot]
    exact hv.anchor
  entry hBlock := by
    rw [h.block?] at hBlock
    rw [h.state?, h.preset]
    exact hv.entry hBlock
  known hState := by
    rw [h.state?] at hState
    rw [h.block?]
    exact hv.known hState
  placed hBlock hNe := by
    rw [h.block?] at hBlock
    rw [h.anchorRoot] at hNe
    exact (hv.placed hBlock hNe).mono h.anchorRoot h.limits h.view_extends
  mem_children := by
    intro p c
    rw [h.children, h.parent?_eq]
    exact hv.mem_children
  nodup_children p := by
    rw [h.children]
    exact hv.nodup_children p
  imports := by
    rw [h.importCount, h.block?, h.anchorRoot]
    exact hv.imports
  justified := by
    rw [hJustified, genesisCheckpoint, h.anchorRoot]
    exact hv.justified
  bestJustified := by
    rw [hBest, genesisCheckpoint, h.anchorRoot]
    exact hv.bestJustified
  finalized := by
    rw [hFinalized, genesisCheckpoint, h.anchorRoot]
    exact hv.finalized

theorem Grown.of_sameChain (hv : v.Grown) (h : SameChain v v') : v'.Grown := by
  refine hv.of_sameTree h.sameTree ?_ ?_ ?_ <;> rw [h]

/-! ## What follows from the invariant -/

namespace Grown

theorem anchored (hv : v.Grown) : v.AnchoredAtGenesis := by
  intro block hBlock
  obtain ⟨anchor, hAnchor, hSlot⟩ := hv.anchor
  cases hAnchor.symm.trans hBlock
  exact hSlot

theorem descending (hv : v.Grown) : v.Descending where
  anchored := hv.anchored
  parent hParent := by
    obtain ⟨hNe, block, hBlock, rfl⟩ := parent?_eq_some.mp hParent
    obtain ⟨parent, hKnown, hSlot⟩ := (hv.placed hBlock hNe).parent
    exact ⟨block, parent, hBlock, hKnown, hSlot⟩

/-- A root that is not known has no state. -/
theorem state?_eq_none (hv : v.Grown) (hFresh : v.block? root = none) : v.state? root = none := by
  cases hSome : v.state? root with
  | none => rfl
  | some state =>
    obtain ⟨block, hBlock⟩ := hv.known hSome
    rw [hFresh] at hBlock
    exact absurd hBlock (by simp)

/-- The chain of a known block ends at the anchor. -/
theorem descends_anchor (hv : v.Grown) (hBlock : v.block? r = some block) :
    v.Descends v.anchorRoot r := by
  by_cases hNe : r = v.anchorRoot
  · rw [hNe]
    exact Descends.refl v _
  · obtain ⟨n, -, hNear⟩ := (hv.placed hBlock hNe).near
    exact ⟨n + 1, by rwa [back_succ_of_parent (parent?_eq hBlock hNe)]⟩

end Grown

/-! ## A new block -/

section

omit [HashFunction]

/-- The links after a block was added. -/
theorem withBlock_parent? (hNe : root ≠ v.anchorRoot) :
    (v.withBlock root block state).parent? r =
      if root = r then some block.parentRoot else v.parent? r := by
  unfold parent? withBlock
  by_cases h : root = r
  · subst h
    simp [hNe]
  · simp [h]

theorem withBlock_mem_children {p c : Root} (hNe : root ≠ v.anchorRoot)
    (hFresh : v.block? root = none) (hLinks : ∀ {p c}, c ∈ v.children p ↔ v.parent? c = some p) :
    c ∈ (v.withBlock root block state).children p ↔
      (v.withBlock root block state).parent? c = some p := by
  -- A block that is not known is nobody's child yet.
  have hOrphan : root ∉ v.children p := by
    rw [hLinks, parent?, hFresh]
    simp
  rw [withBlock_parent? hNe]
  show c ∈ (if block.parentRoot = p then v.children p ++ [root] else v.children p) ↔ _
  by_cases hc : root = c
  · subst hc
    by_cases hp : block.parentRoot = p <;> simp [hp, hOrphan]
  · by_cases hp : block.parentRoot = p <;> simp [hp, hc, Ne.symm hc, hLinks]

theorem withBlock_nodup_children {p : Root} (hFresh : v.block? root = none)
    (hLinks : ∀ {p c}, c ∈ v.children p ↔ v.parent? c = some p) (hNodup : (v.children p).Nodup) :
    ((v.withBlock root block state).children p).Nodup := by
  show (if block.parentRoot = p then v.children p ++ [root] else v.children p).Nodup
  split
  · -- The new block is added to the children of its parent, among which it was not.
    rw [List.nodup_append]
    refine ⟨hNodup, by simp, ?_⟩
    rintro a ha b hb rfl
    rw [List.mem_singleton.mp hb, hLinks, parent?, hFresh] at ha
    simp at ha
  · exact hNodup

end

/-- The place that the checks of an admission give to a block. The walk among them ends at the
anchor, because the finalized block is the anchor. -/
theorem Grown.placed_of_admitted (hv : v.Grown) {parentState : BeaconState}
    (hAdmitted : v.admitBlock block = .ok (.fresh root parentState))
    (hLater : parentState.latestBlockHeader.slot < block.slot) : v.Placed block := by
  obtain ⟨-, -, hParentState, -, -, hAncestor, -⟩ := admitBlock_eq_fresh.mp hAdmitted
  obtain ⟨parent, hParent⟩ := hv.known hParentState
  obtain ⟨_, hStored, hEntry⟩ := hv.entry hParent
  cases hParentState.symm.trans hStored
  -- The walk of the admission starts from the parent.
  rw [hv.finalized] at hAncestor
  obtain ⟨n, hReach, -, hBack, -⟩ := (ancestor_eq_some hv.anchored).mp hAncestor
  exact ⟨⟨parent, hParent, hEntry.headerSlot ▸ hLater⟩, n, hReach, hBack⟩

/-- The state after a block that is applied belongs to the block. -/
theorem Grown.entry_of_applied (hv : v.Grown) {parentState : BeaconState}
    (hAdmitted : v.admitBlock block = .ok (.fresh root parentState))
    (hAfter : BeaconState.After v.preset parentState block state) :
    Entry v.preset root block state := by
  obtain ⟨hRoot, -, hParentState, -⟩ := admitBlock_eq_fresh.mp hAdmitted
  obtain ⟨parent, hParent⟩ := hv.known hParentState
  obtain ⟨_, hStored, hEntry⟩ := hv.entry hParent
  cases hParentState.symm.trans hStored
  -- The checkpoints of the state are those of the state before.
  refine ⟨hRoot, hAfter.stateRoot, hAfter.headerSlot, ?_, ?_⟩
  · rw [hAfter.currentJustified]
    exact hEntry.justifiedEpoch
  · rw [hAfter.finalized]
    exact hEntry.finalizedEpoch

/-- **A new block.** A block that is admitted and applied finds its place in the tree. -/
theorem Grown.withBlock (hv : v.Grown) {parentState : BeaconState}
    (hAdmitted : v.admitBlock block = .ok (.fresh root parentState))
    (hAfter : BeaconState.After v.preset parentState block state) :
    (v.withBlock root block state).Grown := by
  have hPlaced := hv.placed_of_admitted hAdmitted hAfter.later
  have hEntry := hv.entry_of_applied hAdmitted hAfter
  obtain ⟨-, hFresh, -⟩ := admitBlock_eq_fresh.mp hAdmitted
  obtain ⟨anchor, hAnchor, hAnchorSlot⟩ := hv.anchor
  -- The anchor is known, so a new block is another one.
  have hNe : root ≠ v.anchorRoot := by
    rintro rfl
    rw [hAnchor] at hFresh
    exact absurd hFresh (by simp)
  have hMore : Extends v (v.withBlock root block state) := extends_withBlock hFresh
  exact {
    anchor := ⟨anchor, hMore _ _ hAnchor, hAnchorSlot⟩
    entry := by
      intro r b hBlock
      rcases withBlock_cases hBlock with ⟨rfl, rfl⟩ | ⟨hOther, hOld⟩
      · exact ⟨state, withBlock_state?_self, hEntry⟩
      · rw [withBlock_state?_of_ne hOther]
        exact hv.entry hOld
    known := by
      intro r s hState
      by_cases h : r = root
      · exact ⟨block, h ▸ withBlock_block?_self⟩
      · rw [withBlock_state?_of_ne h] at hState
        rw [withBlock_block?_of_ne h]
        exact hv.known hState
    placed := by
      intro r b hBlock hNotAnchor
      rcases withBlock_cases hBlock with ⟨-, rfl⟩ | ⟨-, hOld⟩
      · exact hPlaced.mono rfl rfl hMore
      · exact (hv.placed hOld hNotAnchor).mono rfl rfl hMore
    mem_children := withBlock_mem_children hNe hFresh hv.mem_children
    nodup_children := fun p =>
      withBlock_nodup_children hFresh hv.mem_children (hv.nodup_children p)
    imports := by
      obtain ⟨imported, hLength, hAll⟩ := hv.imports
      refine ⟨root :: imported, congrArg (· + 1) hLength, ?_⟩
      intro r b hBlock hNotAnchor
      rcases withBlock_cases hBlock with ⟨rfl, -⟩ | ⟨-, hOld⟩
      · exact List.mem_cons_self
      · exact List.mem_cons_of_mem _ (hAll hOld hNotAnchor)
    justified := hv.justified
    bestJustified := hv.bestJustified
    finalized := hv.finalized }

/-! ## From genesis on -/

section

variable {p : Preset} {config : Config} {limits : StoreLimits} {time : UInt64}

omit [HashFunction]

theorem singleton_block? :
    (Store.singleton p config limits time root block state).view.block? r =
      if root = r then some block else none := by
  show ((∅ : Table Root Block).insert root block)[r]? = _
  rw [Table.getElem?_insert]
  rfl

theorem singleton_state? :
    (Store.singleton p config limits time root block state).view.state? r =
      if root = r then some state else none := by
  show ((∅ : Table Root BeaconState).insert root state)[r]? = _
  rw [Table.getElem?_insert]
  rfl

end

/-- A block of the first slot that is all that is known is the anchor of a tree. -/
theorem grown_singleton {p : Preset} {config : Config} {limits : StoreLimits} {time : UInt64}
    (hEntry : Entry p root block state) (hSlot : block.slot = 0) (hState : state.slot = 0) :
    (Store.singleton p config limits time root block state).view.Grown := by
  have hEpoch : p.epochAt state.slot = 0 := by
    rw [hState]
    cases p <;> rfl
  have hCheckpoint : (⟨p.epochAt state.slot, root⟩ : Checkpoint) = ⟨0, root⟩ := by rw [hEpoch]
  have hOnly : ∀ {r b}, (Store.singleton p config limits time root block state).view.block? r =
      some b → r = root ∧ b = block := by
    intro r b hBlock
    rw [singleton_block?] at hBlock
    split at hBlock
    · rename_i h
      exact ⟨h.symm, (Option.some.inj hBlock).symm⟩
    · exact absurd hBlock (by simp)
  exact {
    anchor := ⟨block, singleton_block?.trans (if_pos rfl), hSlot⟩
    entry := by
      intro r b hBlock
      obtain ⟨rfl, rfl⟩ := hOnly hBlock
      exact ⟨state, singleton_state?.trans (if_pos rfl), hEntry⟩
    known := by
      intro r s hSome
      rw [singleton_state?] at hSome
      split at hSome
      · rename_i h
        exact ⟨block, singleton_block?.trans (if_pos h)⟩
      · exact absurd hSome (by simp)
    placed := fun hBlock hNotAnchor => absurd (hOnly hBlock).1 hNotAnchor
    mem_children := by
      intro p' c
      show c ∈ [] ↔ _
      simp only [List.not_mem_nil, false_iff, parent?_eq_some, not_and, not_exists]
      exact fun hNotAnchor b hBlock => absurd (hOnly hBlock).1 hNotAnchor
    nodup_children := fun _ => List.nodup_nil
    imports := ⟨[], rfl, fun hBlock hNotAnchor => absurd (hOnly hBlock).1 hNotAnchor⟩
    justified := hCheckpoint
    bestJustified := hCheckpoint
    finalized := hCheckpoint }

/-- At genesis the anchor is all that is known. -/
theorem grown_of_genesis {s : Store} (hs : s.IsGenesis) : s.view.Grown := by
  obtain ⟨root, block, state, hFacts⟩ := hs.facts
  obtain ⟨time, hStore⟩ := hFacts.store_eq
  have hEntry : Entry s.preset root block state := {
    root_eq := hFacts.root_eq
    stateRoot_eq := hFacts.stateRoot_eq
    headerSlot := hFacts.headerSlot.trans hFacts.slot.symm
    justifiedEpoch := congrArg Checkpoint.epoch hFacts.currentJustified
    finalizedEpoch := congrArg Checkpoint.epoch hFacts.finalized }
  rw [hStore]
  exact grown_singleton hEntry hFacts.slot hFacts.stateSlot

/-- The view has grown from what the store `s` shows, under the same rules. -/
structure GrownFrom (s : Store) (v : StoreView) : Prop where
  preset : v.preset = s.preset
  limits : v.limits = s.limits
  anchorRoot : v.anchorRoot = s.anchorRoot
  grown : v.Grown

namespace GrownFrom

variable {s : Store} {d : Draft}

theorem of_sameTree (h : GrownFrom s v) (hSame : SameTree v v') (hGrown : v'.Grown) :
    GrownFrom s v' where
  preset := hSame.preset.trans h.preset
  limits := hSame.limits.trans h.limits
  anchorRoot := hSame.anchorRoot.trans h.anchorRoot
  grown := hGrown

theorem of_sameChain (h : GrownFrom s v) (hSame : SameChain v v') : GrownFrom s v' :=
  h.of_sameTree hSame.sameTree (h.grown.of_sameChain hSame)

/-- The state after a block has no later checkpoints than the store, so it justifies nothing. -/
theorem updateCheckpoints_eq (h : GrownFrom s d.view) {parentState : BeaconState}
    (hAdmitted : d.view.admitBlock block = .ok (.fresh root parentState))
    (hAfter : BeaconState.After d.view.preset parentState block state) :
    (d.countApplyBlock.insertBlock root block state).updateCheckpoints state =
      (.ok (), d.countApplyBlock.insertBlock root block state) := by
  have hEntry := h.grown.entry_of_applied hAdmitted hAfter
  apply Draft.updateCheckpoints_eq
  · rw [hEntry.justifiedEpoch]
    exact UInt64.zero_le
  · rw [hEntry.finalizedEpoch]
    exact UInt64.zero_le

/-- **Import.** Nothing that can be read changes, or a block is added and that is all. -/
theorem importBlock_cases (h : GrownFrom s d.view) (b : Block) :
    ((d.importBlock (slotTransition s.preset) b).2.view = d.view ∧
        ∀ root, (d.importBlock (slotTransition s.preset) b).1 ≠ .ok (.imported root)) ∨
      ∃ root parentState state, d.view.admitBlock b = .ok (.fresh root parentState) ∧
        (slotTransition d.view.preset).applyBlock parentState b = .ok state ∧
          (d.importBlock (slotTransition s.preset) b).2.view = d.view.withBlock root b state ∧
            ∀ root', (d.importBlock (slotTransition s.preset) b).1 = .ok (.imported root') →
              root' = root := by
  rcases d.importBlock_cases (slotTransition s.preset) b with
    hSame | ⟨root, parentState, state, hAdmitted, hApplied, hDraft, hRoot⟩
  · exact Or.inl hSame
  · rw [← h.preset] at hApplied
    have hAfter := BeaconState.slotTransition_applyBlock hApplied
    refine Or.inr ⟨root, parentState, state, hAdmitted, hApplied, ?_, hRoot⟩
    rw [hDraft, h.updateCheckpoints_eq hAdmitted hAfter, Draft.insertBlock_view,
      Draft.countApplyBlock_view]

theorem importBlock (h : GrownFrom s d.view) (b : Block) :
    GrownFrom s (d.importBlock (slotTransition s.preset) b).2.view := by
  rcases h.importBlock_cases b with
    ⟨hSame, -⟩ | ⟨root, parentState, state, hAdmitted, hApplied, hView, -⟩
  · rw [hSame]
    exact h
  · rw [hView]
    have hAfter := BeaconState.slotTransition_applyBlock hApplied
    exact ⟨h.preset, h.limits, h.anchorRoot, h.grown.withBlock hAdmitted hAfter⟩

theorem tick (h : GrownFrom s d.view) (time : UInt64) : GrownFrom s (d.tick time).view := by
  have hSame := d.tick_sameTree time
  refine h.of_sameTree hSame ?_
  rcases d.tick_cases time with ⟨-, hTick⟩ | ⟨-, hTick⟩ | ⟨-, hBetter, -⟩
  · rw [hTick]
    exact h.grown
  · rw [hTick] at hSame ⊢
    exact h.grown.of_sameTree hSame rfl rfl rfl
  · -- There is no better checkpoint that could take effect.
    rw [h.grown.justified, h.grown.bestJustified] at hBetter
    exact absurd hBetter (UInt64.lt_irrefl _)

end GrownFrom

/-- **The invariant.** No operation destroys it, whatever its arguments, and no commit does. -/
theorem stable_grownFrom [SignatureScheme] (s : Store) :
    Draft.Stable (slotTransition s.preset) (GrownFrom s) where
  change d c h := by
    cases c with
    | tick time => exact h.tick time
    | block b => exact h.importBlock b
    | attestation check a => exact h.of_sameChain (d.attest_sameChain _ check a)
    | discardVotes => exact h.of_sameChain d.discardVotes_sameChain
  commit d h := h.of_sameChain d.commit_sameChain

theorem grownFrom_self {s : Store} (hs : s.IsGenesis) : GrownFrom s s.view :=
  ⟨rfl, rfl, rfl, grown_of_genesis hs⟩

/-- All that can be read after genesis has grown from it. -/
theorem grownFrom_of_shows [SignatureScheme] {s : Store} (hs : s.IsGenesis)
    (hv : s.Shows (slotTransition s.preset) v) : GrownFrom s v :=
  (stable_grownFrom s).shows (grownFrom_self hs) hv

end StoreView

end ForkChoice
