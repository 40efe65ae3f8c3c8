import ForkChoice.Proofs.Store.Finality
import ForkChoice.Proofs.Store.Timeline

/-!
# ForkChoice — what is final forms one chain

A block is admitted only if the walk from its parent up to the finalized slot ends at the finalized
block, so its chain contains this block. The finalized checkpoint moves only when a block is
imported, to a later checkpoint on the chain of the new block. The walk up to the earlier slot
passes the block of the later checkpoint, and goes on from there to the block that has been final
so far. So each finalized block descends from the one before it, whatever becomes of the justified
checkpoint, and also if the import fails after it has moved the finalized one.

* `FinalizesOnChain` — what is asked of the rules: the finalized checkpoint of a state is on the
  chain of its block;
* `StoreView.Founded` — the invariant: the finalized block is known and not before the anchor;
* `StoreView.Prolongs` — a later view goes on with what is final in an earlier one, `trans` — this
  composes, `Founded.importBlock` — an import does it;
* `Draft.KeepsLine`, `keepsLine_of_later` — all finalized blocks of a line are on one chain.
-/

namespace ForkChoice

open StoreView

namespace StoreView

variable {v v' v'' : StoreView} {s : Store} {tip root r a : Root} {block : Block}
  {state : BeaconState} {c : Checkpoint}

theorem Descends.mono (hAnchor : v'.anchorRoot = v.anchorRoot) (hMore : Extends v v')
    (h : v.Descends a r) : v'.Descends a r := by
  obtain ⟨n, hn⟩ := h
  exact ⟨n, back_mono hAnchor hMore hn⟩

/-! ## The finalized block -/

/-- The finalized block is known, and it is the anchor or of a slot that is not before that of the
anchor. -/
structure Founded (s : Store) (v : StoreView) : Prop where
  tree : v.Rooted
  started : s.justified.epoch ≤ v.finalized.epoch
  known : ∃ block, v.block? v.finalized.root = some block
  anchored : v.finalized.root = v.anchorRoot ∨ v.AnchorUpTo v.finalizedSlot

namespace Founded

/-- A chain with the finalized block in its place reaches the slot of the anchor. -/
theorem anchorUpTo (hv : v.Founded s) (h : v.LastUpTo v.finalizedSlot tip v.finalized.root) :
    v.AnchorUpTo v.finalizedSlot := by
  rcases hv.anchored with hAnchor | hAnchor
  · obtain ⟨block, hBlock, hSlot⟩ := h.known
    rw [hAnchor] at hBlock
    exact ⟨block, hBlock, hSlot⟩
  · exact hAnchor

/-- A chain with the finalized block in its place descends from it. -/
theorem descends (hv : v.Founded s) (h : v.LastUpTo v.finalizedSlot tip v.finalized.root) :
    v.Descends v.finalized.root tip := by
  obtain ⟨anchor, hAnchor, hSlot⟩ := hv.anchorUpTo h
  exact h.descends hAnchor hSlot

theorem of_sameTree (hv : v.Founded s) (h : SameTree v v') (hFinalized : v'.finalized = v.finalized) :
    v'.Founded s where
  tree := hv.tree.of_sameTree h
  started := by
    rw [hFinalized]
    exact hv.started
  known := by
    rw [hFinalized, h.block?]
    exact hv.known
  anchored := by
    rw [AnchorUpTo, finalizedSlot, hFinalized, h.preset, h.anchorRoot, h.block?]
    exact hv.anchored

theorem withBlock (hv : v.Founded s) (hFresh : v.block? root = none)
    (hParent : ∃ parent, v.block? block.parentRoot = some parent) :
    (v.withBlock root block state).Founded s where
  tree := hv.tree.withBlock hFresh hParent
  started := hv.started
  known := by
    obtain ⟨b, hBlock⟩ := hv.known
    exact ⟨b, extends_withBlock hFresh _ _ hBlock⟩
  anchored := by
    rcases hv.anchored with hAnchor | ⟨anchor, hAnchor, hSlot⟩
    · exact Or.inl hAnchor
    · exact Or.inr ⟨anchor, extends_withBlock hFresh _ _ hAnchor, hSlot⟩

/-- A later checkpoint of a chain with the finalized block in its place descends from that block. -/
theorem descends_of_onChain (hv : v.Founded s)
    (hTip : v.LastUpTo v.finalizedSlot tip v.finalized.root) (hChain : OnChain s v tip c)
    (hLater : v.finalized.epoch < c.epoch) : v.Descends v.finalized.root c.root := by
  rcases hChain with hOld | hLast
  · have hPast := UInt64.le_trans hOld hv.started
    exact absurd hLater (UInt64.not_lt.mpr hPast)
  · have hSlots := v.preset.startSlot_mono (UInt64.le_of_lt hLater)
    exact hv.descends (hLast.from_later hSlots hTip)

/-- The finalized checkpoint may move to a later one of such a chain. -/
theorem finalize (hv : v.Founded s) (hTip : v.LastUpTo v.finalizedSlot tip v.finalized.root)
    (hChain : OnChain s v tip c) (hLater : v.finalized.epoch < c.epoch) :
    { v with finalized := c }.Founded s where
  tree := hv.tree.of_sameTree rfl
  started := UInt64.le_trans hv.started (UInt64.le_of_lt hLater)
  known := by
    rcases hChain with hOld | hLast
    · have hPast := UInt64.le_trans hOld hv.started
      exact absurd hLater (UInt64.not_lt.mpr hPast)
    · obtain ⟨block, hBlock, -⟩ := hLast.known
      exact ⟨block, hBlock⟩
  anchored := by
    obtain ⟨anchor, hAnchor, hSlot⟩ := hv.anchorUpTo hTip
    have hSlots := v.preset.startSlot_mono (UInt64.le_of_lt hLater)
    exact Or.inr ⟨anchor, hAnchor, UInt64.le_trans hSlot hSlots⟩

end Founded

/-! ## Going on with what is final -/

/-- What is final in `v'` descends from what is final in `v`, and so do all blocks that are known
in `v'` only. -/
structure Prolongs (v v' : StoreView) : Prop where
  anchorRoot : v'.anchorRoot = v.anchorRoot
  extends_ : Extends v v'
  finalized : v'.Descends v.finalized.root v'.finalized.root
  fresh : ∀ {r block}, v.block? r = none → v'.block? r = some block →
    v'.Descends v.finalized.root r

namespace Prolongs

theorem of_sameTree (h : SameTree v v') (hFinalized : v'.finalized = v.finalized) :
    v.Prolongs v' where
  anchorRoot := h.anchorRoot
  extends_ := h.view_extends
  finalized := by
    rw [hFinalized]
    exact Descends.refl v' _
  fresh := by
    intro r block hFresh hBlock
    rw [h.block?, hFresh] at hBlock
    exact absurd hBlock (by simp)

theorem refl (v : StoreView) : v.Prolongs v :=
  of_sameTree (SameTree.refl v) rfl

theorem trans (h : v.Prolongs v') (h' : v'.Prolongs v'') : v.Prolongs v'' where
  anchorRoot := h'.anchorRoot.trans h.anchorRoot
  extends_ := h.extends_.trans h'.extends_
  finalized := (h.finalized.mono h'.anchorRoot h'.extends_).trans h'.finalized
  fresh := by
    intro r block hFresh hBlock
    -- The block came before the middle, or after it.
    cases hMiddle : v'.block? r with
    | some b => exact (h.fresh hFresh hMiddle).mono h'.anchorRoot h'.extends_
    | none =>
      have hFinal := h.finalized.mono h'.anchorRoot h'.extends_
      exact hFinal.trans (h'.fresh hMiddle hBlock)

end Prolongs

end StoreView

/-! ## Imports -/

/-- The finalized checkpoint moves to a later candidate, or it stays. -/
theorem Draft.updateCheckpoints_finalized (d : Draft) (state : BeaconState) :
    (d.updateCheckpoints state).2.view.finalized = d.view.finalized ∨
      d.view.finalized.epoch < state.finalized.epoch ∧
        (d.updateCheckpoints state).2.view.finalized = state.finalized := by
  have hStays : (d.updateJustified state.currentJustified).2.view.finalized =
      d.view.finalized := by
    obtain ⟨best, h | ⟨-, h⟩⟩ := d.updateJustified_cases state.currentJustified <;> rw [h]
  unfold updateCheckpoints
  rcases hUpdate : d.updateJustified state.currentJustified with ⟨_ | _, d'⟩
  · rw [hUpdate] at hStays
    exact Or.inl hStays
  · rw [hUpdate] at hStays
    dsimp only at hStays ⊢
    rw [← hStays]
    rcases d'.updateFinalized_cases state.finalized state.currentJustified with
      h | ⟨hLater, ⟨h, -⟩ | h⟩
    · exact Or.inl (by rw [h])
    · exact Or.inr ⟨hLater, by rw [h]⟩
    · exact Or.inr ⟨hLater, by rw [h]⟩

section

variable [HashFunction] [SignatureScheme] {t : StateTransition} {s : Store} {d d' : Draft}

/-- The rules give a state whose finalized checkpoint is of an epoch no later than that of the
anchor, or on the chain of the block; whether the block itself belongs to this chain may differ from
block to block. -/
def FinalizesOnChain (t : StateTransition) (s : Store) : Prop :=
  ∀ v root b parentState state, s.Shows t v →
    v.admitBlock b = .ok (.fresh root parentState) → t.applyBlock parentState b = .ok state →
      ∃ tip, (tip = root ∨ tip = b.parentRoot) ∧
        OnChain s (v.withBlock root b state) tip state.finalized

theorem FollowsChains.finalizesOnChain (h : FollowsChains t s) : FinalizesOnChain t s := by
  intro v root b parentState state hShown hAdmitted hApplied
  obtain ⟨-, tip, hTip, hFinalized, -⟩ := h v root b parentState state hShown hAdmitted hApplied
  exact ⟨tip, hTip, hFinalized⟩

omit [SignatureScheme] in
/-- A trusted block is final. -/
theorem founded_of_anchored (hs : s.IsAnchored) : s.view.Founded s := by
  have hTree := rooted_of_anchored hs
  obtain ⟨block, state, hAnchor⟩ := hs
  obtain ⟨root, -, -, -, -, time, -, hStore⟩ := Store.ofAnchor_eq_ok.mp hAnchor
  rw [← hStore] at hTree ⊢
  exact {
    tree := hTree
    started := UInt64.le_refl _
    known := hTree.anchor
    anchored := Or.inl rfl }

/-- **An import**, also one that fails halfway, goes on with what is final. -/
theorem StoreView.Founded.importBlock (hRules : FinalizesOnChain t s) (hShown : s.Shows t d.view)
    (hd : d.view.Founded s) (b : Block) :
    (d.importBlock t b).2.view.Founded s ∧ d.view.Prolongs (d.importBlock t b).2.view ∧
      ((d.importBlock t b).2.view.finalized = d.view.finalized ∨
        d.view.finalized.epoch < (d.importBlock t b).2.view.finalized.epoch) := by
  rcases d.importBlock_cases t b with
    ⟨hSame, -⟩ | ⟨root, parentState, state, hAdmitted, hApplied, hDraft, -⟩
  · rw [hSame]
    exact ⟨hd, Prolongs.refl _, Or.inl rfl⟩
  · obtain ⟨tip, hTip, hOnChain⟩ := hRules d.view root b parentState state hShown hAdmitted hApplied
    obtain ⟨-, hFresh, hParent, -, hLater, hNear, -⟩ := admitBlock_eq_fresh.mp hAdmitted
    let v := d.view.withBlock root b state
    have hMore : Extends d.view v := extends_withBlock hFresh
    have hInserted : v.Founded s := hd.withBlock hFresh (hd.tree.known_of_state hParent)
    -- The block was admitted, so the finalized block is in its place on both chains.
    have hParentChain : v.LastUpTo v.finalizedSlot b.parentRoot v.finalized.root :=
      (lastUpTo_of_ancestor hNear).mono hMore
    have hBlockChain : v.LastUpTo v.finalizedSlot root v.finalized.root :=
      .next withBlock_block?_self hLater hParentChain
    have hChain : v.LastUpTo v.finalizedSlot tip v.finalized.root := by
      rcases hTip with rfl | rfl
      · exact hBlockChain
      · exact hParentChain
    -- What comes next moves the checkpoints alone.
    have hTree := Draft.updateCheckpoints_sameTree
      (d.countApplyBlock.insertBlock root b state) state
    have hMoves := Draft.updateCheckpoints_finalized
      (d.countApplyBlock.insertBlock root b state) state
    rw [← hDraft, Draft.insertBlock_view, Draft.countApplyBlock_view] at hTree hMoves
    have hTree : SameTree v (d.importBlock t b).2.view := hTree
    have hFresh : ∀ {r block}, d.view.block? r = none →
        (d.importBlock t b).2.view.block? r = some block →
          (d.importBlock t b).2.view.Descends d.view.finalized.root r := by
      intro r block hNew hBlock
      rw [hTree.block?] at hBlock
      rcases withBlock_cases hBlock with ⟨rfl, -⟩ | ⟨-, hOld⟩
      · exact (hInserted.descends hBlockChain).mono hTree.anchorRoot hTree.view_extends
      · rw [hNew] at hOld
        exact absurd hOld (by simp)
    rcases hMoves with hStays | ⟨hEpoch, hNew⟩
    · exact ⟨hInserted.of_sameTree hTree hStays, ⟨hTree.anchorRoot, hMore.trans hTree.view_extends,
        by rw [hStays]; exact Descends.refl _ _, hFresh⟩, Or.inl hStays⟩
    · have hFinal := hInserted.finalize hChain hOnChain hEpoch
      have hDescends := hInserted.descends_of_onChain hChain hOnChain hEpoch
      refine ⟨hFinal.of_sameTree hTree hNew, ⟨hTree.anchorRoot, hMore.trans hTree.view_extends,
        ?_, hFresh⟩, Or.inr ?_⟩
      · rw [hNew]
        exact hDescends.mono hTree.anchorRoot hTree.view_extends
      · rw [hNew]
        exact hEpoch

/-- The finalized checkpoint moves only in imports, and forwards. -/
theorem StoreView.Founded.next (hRules : FinalizesOnChain t s) (hShown : s.Shows t d.view)
    (hd : d.view.Founded s) (h : Draft.Next t d d') :
    d'.view.Founded s ∧ d.view.Prolongs d'.view ∧ (d'.view.finalized = d.view.finalized ∨
      (∃ b, d' = (d.importBlock t b).2) ∧ d.view.finalized.epoch < d'.view.finalized.epoch) := by
  have hOther : SameTree d.view d'.view → d'.view.finalized = d.view.finalized →
      d'.view.Founded s ∧ d.view.Prolongs d'.view ∧ (d'.view.finalized = d.view.finalized ∨
        (∃ b, d' = (d.importBlock t b).2) ∧ d.view.finalized.epoch < d'.view.finalized.epoch) :=
    fun hTree hSame => ⟨hd.of_sameTree hTree hSame, .of_sameTree hTree hSame, Or.inl hSame⟩
  rcases h.cases with ⟨b, rfl⟩ | ⟨time, rfl⟩ | hChain
  · obtain ⟨hFounded, hProlongs, hMoves⟩ := hd.importBlock hRules hShown b
    exact ⟨hFounded, hProlongs, hMoves.imp_right fun hEpoch => ⟨⟨b, rfl⟩, hEpoch⟩⟩
  · refine hOther (d.tick_sameTree time) ?_
    rcases d.tick_cases time with ⟨-, h⟩ | ⟨-, h⟩ | ⟨-, -, h⟩ <;> rw [h] <;> rfl
  · refine hOther hChain.sameTree ?_
    rw [hChain]

/-! ## The line -/

/-- What is final at some time, and what becomes of it later. -/
structure Draft.KeepsLine (t : StateTransition) (d : Draft) : Prop where
  /-- Only an import moves the finalized checkpoint, to a later one that descends from it. -/
  replaced : ∀ d', Next t d d' → d'.view.finalized ≠ d.view.finalized →
    (∃ b, d' = (d.importBlock t b).2) ∧ d.view.finalized.epoch < d'.view.finalized.epoch ∧
      d'.view.Descends d.view.finalized.root d'.view.finalized.root
  /-- What is final later descends from what is final now. -/
  line : ∀ d', Later t d d' → d'.view.Descends d.view.finalized.root d'.view.finalized.root
  /-- Blocks that are imported later descend from what is final now. -/
  imported : ∀ d', Later t d d' → ∀ r block, d.view.block? r = none →
    d'.view.block? r = some block → d'.view.Descends d.view.finalized.root r

/-- **One chain.** Whatever the history, each finalized block descends from the one before it, so
that all that have been final so far are on the chain of the present one, and only descendants of
what is final are imported. -/
theorem keepsLine_of_later (hs : s.IsAnchored) (hRules : FinalizesOnChain t s)
    (h : Draft.Later t (Draft.ofStore s) d) : d.KeepsLine t := by
  have hShown : ∀ {d}, Draft.Later t (Draft.ofStore s) d → s.Shows t d.view :=
    fun h => Store.shows_iff_later.mpr ⟨_, h, rfl⟩
  have hFounded : ∀ {d}, Draft.Later t (Draft.ofStore s) d → d.view.Founded s := by
    intro d h
    induction h with
    | refl =>
      rw [Draft.ofStore_view]
      exact founded_of_anchored hs
    | tail hLine hNext ih => exact (ih.next hRules (hShown hLine) hNext).1
  have hProlongs : ∀ {d'}, Draft.Later t d d' → d.view.Prolongs d'.view := by
    intro d' hLater
    induction hLater with
    | refl => exact Prolongs.refl _
    | tail hLine hNext ih =>
      have hWhole := h.trans hLine
      exact ih.trans ((hFounded hWhole).next hRules (hShown hWhole) hNext).2.1
  exact {
    replaced := by
      intro d' hNext hMoved
      obtain ⟨-, hGoesOn, hMoves⟩ := (hFounded h).next hRules (hShown h) hNext
      obtain ⟨hImport, hEpoch⟩ := hMoves.resolve_left hMoved
      exact ⟨hImport, hEpoch, hGoesOn.finalized⟩
    line := fun d' hLater => (hProlongs hLater).finalized
    imported := fun d' hLater r block => (hProlongs hLater).fresh }

end

/-- In the network with a rival branch, the second block of a branch finalizes the first one; the
rival blocks come before. -/
theorem keepsLine_of_rivals :
    letI : HashFunction := Engine.linearHash
    letI : SignatureScheme := Bls.scheme
    ∃ n, rivalNetwork {} 17 = some n ∧ n.store.IsAnchored ∧ FinalizesOnChain n.rules n.store ∧
      let d := (Draft.ofStore n.store).changeAll n.rules ((n.arrivals 120).take 4)
      let d' := d.change n.rules (.block n.second)
      Draft.Later n.rules (Draft.ofStore n.store) d ∧ d.KeepsLine n.rules ∧
        d'.view.finalized = ⟨1, n.firstRoot⟩ ∧ d.view.finalized.epoch < 1 ∧
          d'.view.Descends d.view.finalized.root n.firstRoot := by
  let : HashFunction := Engine.linearHash
  let : SignatureScheme := Bls.scheme
  have hRuns : ((rivalNetwork {} 17).any fun n =>
      let d := (Draft.ofStore n.store).changeAll n.rules ((n.arrivals 120).take 4)
      let d' := d.change n.rules (.block n.second)
      decide (d'.view.finalized = ⟨1, n.firstRoot⟩) &&
        decide (d'.view.finalized ≠ d.view.finalized)) = true := by
    decide +kernel
  obtain ⟨n, hNetwork, hs, hRules, hRun⟩ := exists_rivalNetwork hRuns
  simp only [Bool.and_eq_true, decide_eq_true_eq] at hRun
  obtain ⟨hFinal, hMoved⟩ := hRun
  have hRules := hRules.finalizesOnChain
  have hLater := Draft.later_changeAll (t := n.rules) (Draft.ofStore n.store)
    ((n.arrivals 120).take 4)
  have hLine := keepsLine_of_later hs hRules hLater
  obtain ⟨-, hEpoch, hDescends⟩ := hLine.replaced _ (.changed (.block n.second)) hMoved
  rw [hFinal] at hEpoch hDescends
  exact ⟨n, hNetwork, hs, hRules, hLater, hLine, hFinal, hEpoch, hDescends⟩

end ForkChoice
