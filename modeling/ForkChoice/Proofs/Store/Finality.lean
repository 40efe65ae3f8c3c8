import ForkChoice.Proofs.Store.Checkpoints

/-!
# ForkChoice — what is final stays

The search for the head begins at the justified block, so the head is a descendant of the finalized
block as long as the justified block is. The justified checkpoint moves in several places. When a
block is imported, it moves to the checkpoint of the state after this block, whose chain contains
the finalized block because the new one was admitted; or the finalized checkpoint moves, and the
justified one stays only if it has the new finalized block on its chain. At the beginning of an
epoch it moves to the best one known, and this is not checked: the best one may have been set aside
before a block on another branch became final.

* `StoreView.KeepsFinal` — a block is the finalized one, or the finalized one is the last block up
  to the finalized slot on its chain;
* `FollowsChains` — what is asked of the rules by which states move on: the checkpoints of a state
  are on the chain of its block;
* `StoreView.Kept`, `Kept.importBlock` — the invariant, and that an import keeps it unless it fails
  halfway;
* `Store.SteadyDraft`, `neverLeavesFinal` — drafts and stores in which the head does not leave the
  finalized block;
* `RivalNetwork`, `rivals_leave_final` — a small network in which it does.
-/

namespace ForkChoice

open StoreView

/-! ## The invariant -/

namespace StoreView

section

variable {v v' : StoreView} {s : Store} {r tip root : Root} {block : Block} {state : BeaconState}
  {c j : Checkpoint}

/-- The block is the finalized one, or the finalized one is the last block up to the finalized slot
on its chain. -/
def KeepsFinal (v : StoreView) (root : Root) : Prop :=
  root = v.finalized.root ∨ v.LastUpTo v.finalizedSlot root v.finalized.root

/-- The anchor is known and not later than a slot. -/
def AnchorUpTo (v : StoreView) (slot : Slot) : Prop :=
  ∃ anchor, v.block? v.anchorRoot = some anchor ∧ anchor.slot ≤ slot

theorem KeepsFinal.descends (hAnchor : v.AnchorUpTo v.finalizedSlot) (h : v.KeepsFinal r) :
    v.Descends v.finalized.root r := by
  rcases h with rfl | hLast
  · exact Descends.refl v _
  · obtain ⟨anchor, hAnchor, hSlot⟩ := hAnchor
    exact hLast.descends hAnchor hSlot

/-- What holds of the checkpoints as long as the justified block is a descendant of the finalized
one. -/
structure Kept (s : Store) (v : StoreView) : Prop where
  tree : v.Rooted
  started : s.justified.epoch ≤ v.finalized.epoch
  ordered : v.finalized.epoch ≤ v.justified.epoch
  known : ∃ block, v.block? v.finalized.root = some block
  anchored : v.finalized.root = v.anchorRoot ∨ v.AnchorUpTo v.finalizedSlot
  keeps : v.KeepsFinal v.justified.root

namespace Kept

/-- A chain with the finalized block in its place reaches the slot of the anchor. -/
theorem anchorUpTo (hv : v.Kept s) (h : v.LastUpTo v.finalizedSlot tip v.finalized.root) :
    v.AnchorUpTo v.finalizedSlot := by
  rcases hv.anchored with hAnchor | hAnchor
  · obtain ⟨block, hBlock, hSlot⟩ := h.known
    rw [hAnchor] at hBlock
    exact ⟨block, hBlock, hSlot⟩
  · exact hAnchor

/-- The justified block descends from the finalized one. -/
theorem descends (hv : v.Kept s) : v.Descends v.finalized.root v.justified.root := by
  rcases hv.keeps with hSame | hLast
  · rw [hSame]
    exact Descends.refl v _
  · exact hv.keeps.descends (hv.anchorUpTo hLast)

theorem withBlock (hv : v.Kept s) (hFresh : v.block? root = none)
    (hParent : ∃ parent, v.block? block.parentRoot = some parent) :
    (v.withBlock root block state).Kept s where
  tree := hv.tree.withBlock hFresh hParent
  started := hv.started
  ordered := hv.ordered
  known := by
    obtain ⟨b, hBlock⟩ := hv.known
    exact ⟨b, extends_withBlock hFresh _ _ hBlock⟩
  anchored := by
    rcases hv.anchored with hAnchor | ⟨anchor, hAnchor, hSlot⟩
    · exact Or.inl hAnchor
    · exact Or.inr ⟨anchor, extends_withBlock hFresh _ _ hAnchor, hSlot⟩
  keeps := by
    rcases hv.keeps with hSame | hLast
    · exact Or.inl hSame
    · exact Or.inr (hLast.mono (extends_withBlock hFresh))

/-- The justified checkpoint may move to one that keeps what is final. -/
theorem rejustify (hv : v.Kept s) (h : SameTree v v') (hFinalized : v'.finalized = v.finalized)
    (hEpoch : v.finalized.epoch ≤ v'.justified.epoch) (hKeeps : v.KeepsFinal v'.justified.root) :
    v'.Kept s := by
  have hSlot : v'.finalizedSlot = v.finalizedSlot := by
    rw [finalizedSlot, finalizedSlot, h.preset, hFinalized]
  exact {
    tree := hv.tree.of_sameTree h
    started := by
      rw [hFinalized]
      exact hv.started
    ordered := by
      rw [hFinalized]
      exact hEpoch
    known := by
      rw [hFinalized, h.block?]
      exact hv.known
    anchored := by
      rw [hFinalized, h.anchorRoot, AnchorUpTo, hSlot, h.anchorRoot, h.block?]
      exact hv.anchored
    keeps := by
      rw [KeepsFinal, hFinalized, hSlot]
      rcases hKeeps with hSame | hLast
      · exact Or.inl hSame
      · exact Or.inr (hLast.mono h.view_extends) }

theorem of_sameTree (hv : v.Kept s) (h : SameTree v v') (hFinalized : v'.finalized = v.finalized)
    (hJustified : v'.justified = v.justified) : v'.Kept s := by
  refine hv.rejustify h hFinalized ?_ ?_ <;> rw [hJustified]
  · exact hv.ordered
  · exact hv.keeps

theorem of_sameChain (hv : v.Kept s) (h : SameChain v v') : v'.Kept s := by
  refine hv.of_sameTree h.sameTree ?_ ?_ <;> rw [h]

/-- Of a chain with the finalized block in its place, a later checkpoint of the chain keeps what is
final. -/
theorem keepsFinal_of_onChain (hv : v.Kept s)
    (hTip : v.LastUpTo v.finalizedSlot tip v.finalized.root)
    (hChain : OnChain s v tip j) (hLater : v.finalized.epoch < j.epoch) :
    v.KeepsFinal j.root := by
  rcases hChain with hOld | hLast
  · have hPast := UInt64.le_trans hOld hv.started
    exact absurd hLater (UInt64.not_lt.mpr hPast)
  · have hSlots := v.preset.startSlot_mono (UInt64.le_of_lt hLater)
    exact Or.inr (hLast.from_later hSlots hTip)

/-- The finalized checkpoint may move to a later one of a chain with the present one in its place,
if the justified checkpoint has the new one on its own chain. -/
theorem finalize (hv : v.Kept s) (hTip : v.LastUpTo v.finalizedSlot tip v.finalized.root)
    (hLater : v.finalized.epoch < c.epoch)
    (hChain : v.LastUpTo (v.preset.startSlot c.epoch) tip c.root) (hEpoch : c.epoch ≤ j.epoch)
    (hLast : v.LastUpTo (v.preset.startSlot c.epoch) j.root c.root) :
    { v with finalized := c, justified := j }.Kept s where
  tree := hv.tree.of_sameTree rfl
  started := UInt64.le_trans hv.started (UInt64.le_of_lt hLater)
  ordered := hEpoch
  known := by
    obtain ⟨block, hBlock, -⟩ := hChain.known
    exact ⟨block, hBlock⟩
  anchored := by
    -- The chain reaches the slot of the anchor already, and the new final slot is not earlier.
    obtain ⟨anchor, hAnchor, hSlot⟩ := hv.anchorUpTo hTip
    have hSlots := v.preset.startSlot_mono (UInt64.le_of_lt hLater)
    exact Or.inr ⟨anchor, hAnchor, UInt64.le_trans hSlot hSlots⟩
  keeps := Or.inr (LastUpTo.of_sameTree (show SameTree v _ from rfl) hLast)

end Kept

end

section

variable {s : Store} {tip : Root} {d : Draft} {state : BeaconState}

theorem Kept.updateJustified (hd : d.view.Kept s)
    (hTip : d.view.LastUpTo d.view.finalizedSlot tip d.view.finalized.root)
    {candidate : Checkpoint} (hChain : OnChain s d.view tip candidate) :
    (d.updateJustified candidate).2.view.Kept s := by
  obtain ⟨best, h | ⟨hLater, h⟩⟩ := d.updateJustified_cases candidate
  · rw [h]
    exact hd.of_sameTree rfl rfl rfl
  · have hEpoch := UInt64.lt_of_le_of_lt hd.ordered hLater
    rw [h]
    have hKeeps := hd.keepsFinal_of_onChain hTip hChain hEpoch
    exact hd.rejustify rfl rfl (UInt64.le_of_lt hEpoch) hKeeps

/-- An update of the finalized checkpoint that does not stop halfway. -/
theorem Kept.updateFinalized (hd : d.view.Kept s)
    (hTip : d.view.LastUpTo d.view.finalizedSlot tip d.view.finalized.root)
    {candidate stateJustified : Checkpoint} (hOrdered : candidate.epoch ≤ stateJustified.epoch)
    (hChain : OnChain s d.view tip candidate) (hJustified : OnChain s d.view tip stateJustified)
    (hWhole : (d.updateFinalized candidate stateJustified).2.view.finalized = d.view.finalized ∨
      (d.updateFinalized candidate stateJustified).1 = .ok ()) :
    (d.updateFinalized candidate stateJustified).2.view.Kept s := by
  rcases d.updateFinalized_cases candidate stateJustified with h | ⟨hLater, h⟩
  · rw [h]
    exact hd
  · have hNew : ∀ {c}, OnChain s d.view tip c → d.view.finalized.epoch < c.epoch →
        d.view.LastUpTo (d.view.preset.startSlot c.epoch) tip c.root := by
      intro c hc hEpoch
      refine hc.resolve_left fun hOld => ?_
      exact absurd hEpoch (UInt64.not_lt.mpr (UInt64.le_trans hOld hd.started))
    have hFinal := hNew hChain hLater
    -- The justified checkpoint of the state has the candidate on its chain.
    have hLast := (hNew hJustified (UInt64.lt_of_lt_of_le hLater hOrdered)).from_later
      (d.view.preset.startSlot_mono hOrdered) hFinal
    rcases h with ⟨h, hSame | ⟨hEpoch, hWalk⟩ | ⟨failure, hFails⟩⟩ | h
    · rw [h]
      exact hd.finalize hTip hLater hFinal (hSame ▸ hOrdered) (hSame ▸ hLast)
    · -- The walk has found the candidate on the chain of the justified block.
      rw [h]
      have hSame : SameTree { d.view with finalized := candidate } d.view := rfl
      have hFound := (lastUpTo_of_ancestor hWalk).of_sameTree hSame
      exact hd.finalize hTip hLater hFinal (UInt64.le_trans hOrdered hEpoch) hFound
    · -- Here the update stops halfway, which is excluded.
      rcases hWhole with hStays | hOk
      · rw [h] at hStays
        rw [show candidate = _ from hStays] at hLater
        exact absurd hLater (UInt64.lt_irrefl _)
      · rw [hFails] at hOk
        exact absurd hOk (by simp)
    · rw [h]
      exact hd.finalize hTip hLater hFinal hOrdered hLast

theorem Kept.updateCheckpoints (hd : d.view.Kept s)
    (hTip : d.view.LastUpTo d.view.finalizedSlot tip d.view.finalized.root)
    (hOrdered : state.finalized.epoch ≤ state.currentJustified.epoch)
    (hFinalized : OnChain s d.view tip state.finalized)
    (hJustified : OnChain s d.view tip state.currentJustified)
    (hWhole : (d.updateCheckpoints state).2.view.finalized = d.view.finalized ∨
      (d.updateCheckpoints state).1 = .ok ()) :
    (d.updateCheckpoints state).2.view.Kept s := by
  -- The justified checkpoint comes first; what is final does not change by this.
  have hFirst := hd.updateJustified hTip hJustified
  have hSame := (d.updateJustified_rejustified state.currentJustified).view.sameTree
  have hStays : (d.updateJustified state.currentJustified).2.view.finalized = d.view.finalized := by
    obtain ⟨best, h | ⟨-, h⟩⟩ := d.updateJustified_cases state.currentJustified <;> rw [h]
  unfold Draft.updateCheckpoints at hWhole ⊢
  rcases hUpdate : d.updateJustified state.currentJustified with ⟨_ | _, d'⟩
  · rw [hUpdate] at hFirst
    exact hFirst
  · rw [hUpdate] at hFirst hSame hStays hWhole
    dsimp only at hFirst hSame hStays hWhole ⊢
    have hSlot : d'.view.finalizedSlot = d.view.finalizedSlot := by
      rw [finalizedSlot, finalizedSlot, hSame.preset, hStays]
    have hOn : ∀ {c}, OnChain s d.view tip c → OnChain s d'.view tip c := by
      rintro c (hOld | hLast)
      · exact Or.inl hOld
      · right
        rw [hSame.preset]
        exact hLast.mono hSame.view_extends
    refine hFirst.updateFinalized ?_ hOrdered (hOn hFinalized) (hOn hJustified) ?_
    · rw [hSlot, hStays]
      exact hTip.mono hSame.view_extends
    · rw [hStays]
      exact hWhole

end

end StoreView

/-! ## Drafts and stores -/

section

variable [HashFunction] [SignatureScheme] {t : StateTransition} {s : Store} {d : Draft}

/-- The rules give a state whose finalized checkpoint is not later than its justified one, and both
are on the chain of the block; whether the block itself belongs to this chain may differ from block
to block. -/
def FollowsChains (t : StateTransition) (s : Store) : Prop :=
  ∀ v root b parentState state, s.Shows t v →
    v.admitBlock b = .ok (.fresh root parentState) → t.applyBlock parentState b = .ok state →
      state.finalized.epoch ≤ state.currentJustified.epoch ∧
        ∃ tip, (tip = root ∨ tip = b.parentRoot) ∧
          OnChain s (v.withBlock root b state) tip state.finalized ∧
            OnChain s (v.withBlock root b state) tip state.currentJustified

/-- The drafts that come to be by any operations and commits, where no tick promotes a checkpoint of
another branch and no import is kept that has moved the finalized checkpoint and failed then. -/
inductive Store.SteadyDraft (t : StateTransition) (s : Store) : Draft → Prop
  | opened : SteadyDraft t s (Draft.ofStore s)
  | ticked {d : Draft} (time : UInt64) (h : SteadyDraft t s d)
    (hPromoted : (d.tick time).view.justified = d.view.justified ∨
      d.view.KeepsFinal d.view.bestJustified.root) : SteadyDraft t s (d.tick time)
  | imported {d : Draft} (b : Block) (h : SteadyDraft t s d)
    (hWhole : (d.importBlock t b).2.view.finalized = d.view.finalized ∨
      ∃ result, (d.importBlock t b).1 = .ok result) : SteadyDraft t s (d.importBlock t b).2
  | voted {d : Draft} (check : SignatureCheck) (a : Attestation) (h : SteadyDraft t s d) :
    SteadyDraft t s (d.attest t check a).2
  | forgotten {d : Draft} (h : SteadyDraft t s d) : SteadyDraft t s d.discardVotes
  | committed {d : Draft} (h : SteadyDraft t s d) : SteadyDraft t s (Draft.ofStore d.commit)

/-- What a steady draft shows can be read in the course of a history. -/
theorem Store.SteadyDraft.shows (h : s.SteadyDraft t d) : s.Shows t d.view := by
  -- A commit ends a draft, and all that comes after it is a draft of the store that it leaves.
  have hHistory : ∃ history changes,
      d = (Draft.ofStore (s.after t history)).changeAll t changes := by
    have hChange : ∀ {d : Draft} (c : Change),
        (∃ history changes, d = (Draft.ofStore (s.after t history)).changeAll t changes) →
          ∃ history changes, d.change t c =
            (Draft.ofStore (s.after t history)).changeAll t changes := by
      rintro d c ⟨history, changes, rfl⟩
      exact ⟨history, changes ++ [c], (Draft.changeAll_concat t _ changes c).symm⟩
    induction h with
    | opened => exact ⟨[], [], rfl⟩
    | ticked time _ _ ih => exact hChange (.tick time) ih
    | imported b _ _ ih => exact hChange (.block b) ih
    | voted check a _ ih => exact hChange (.attestation check a) ih
    | forgotten _ ih => exact hChange .discardVotes ih
    | committed _ ih =>
      obtain ⟨history, changes, rfl⟩ := ih
      refine ⟨history ++ [⟨changes, true⟩], [], ?_⟩
      rw [s.after_concat]
      rfl
  obtain ⟨history, changes, rfl⟩ := hHistory
  exact ⟨history, Or.inr ⟨changes, rfl⟩⟩

omit [SignatureScheme] in
/-- A trusted block is justified and final. -/
theorem kept_of_anchored (hs : s.IsAnchored) : s.view.Kept s := by
  have hTree := rooted_of_anchored hs
  obtain ⟨block, state, hAnchor⟩ := hs
  obtain ⟨root, -, -, -, -, time, -, hStore⟩ := Store.ofAnchor_eq_ok.mp hAnchor
  rw [← hStore] at hTree ⊢
  exact {
    tree := hTree
    started := UInt64.le_refl _
    ordered := UInt64.le_refl _
    known := hTree.anchor
    anchored := Or.inl rfl
    keeps := Or.inl rfl }

/-- **An import** that does not fail halfway keeps what is final. -/
theorem StoreView.Kept.importBlock (hRules : FollowsChains t s) (hShown : s.Shows t d.view)
    (hd : d.view.Kept s) {b : Block}
    (hWhole : (d.importBlock t b).2.view.finalized = d.view.finalized ∨
      ∃ result, (d.importBlock t b).1 = .ok result) : (d.importBlock t b).2.view.Kept s := by
  rcases d.importBlock_cases t b with
    ⟨hSame, -⟩ | ⟨root, parentState, state, hAdmitted, hApplied, hDraft, -⟩
  · rw [hSame]
    exact hd
  · obtain ⟨hOrdered, tip, hTip, hFinalized, hJustified⟩ :=
      hRules d.view root b parentState state hShown hAdmitted hApplied
    obtain ⟨-, hFresh, hParent, -, hLater, hNear, -⟩ := admitBlock_eq_fresh.mp hAdmitted
    have hView : (d.countApplyBlock.insertBlock root b state).view =
        d.view.withBlock root b state := by
      rw [Draft.insertBlock_view, Draft.countApplyBlock_view]
    have hInserted : (d.view.withBlock root b state).Kept s :=
      hd.withBlock hFresh (hd.tree.known_of_state hParent)
    -- The block was admitted, so the finalized block is in its place on both chains.
    have hParentChain : (d.view.withBlock root b state).LastUpTo d.view.finalizedSlot b.parentRoot
        d.view.finalized.root := (lastUpTo_of_ancestor hNear).mono (extends_withBlock hFresh)
    have hChain : (d.view.withBlock root b state).LastUpTo d.view.finalizedSlot tip
        d.view.finalized.root := by
      rcases hTip with rfl | rfl
      · exact .next withBlock_block?_self hLater hParentChain
      · exact hParentChain
    have hResult : (∃ result, (d.importBlock t b).1 = .ok result) →
        ((d.countApplyBlock.insertBlock root b state).updateCheckpoints state).1 = .ok () := by
      rintro ⟨result, hOk⟩
      rw [Draft.importBlock, hAdmitted] at hOk
      dsimp only at hOk
      rw [hApplied] at hOk
      dsimp only at hOk
      split at hOk
      · exact absurd hOk (by simp)
      · rename_i hUpdate
        rw [hUpdate]
    rw [hDraft] at hWhole ⊢
    rw [← hView] at hInserted hChain hFinalized hJustified
    refine hInserted.updateCheckpoints ?_ hOrdered hFinalized hJustified ?_
    · rw [hView]
      rwa [hView] at hChain
    · rw [hView]
      exact hWhole.imp_right hResult

/-- **What is final stays.** In all drafts that come to be, and so in all stores, the justified
block is the finalized one or has it in its place on the chain, and the head descends from it. Two
things must not happen: a tick that promotes a checkpoint of another branch, and an import that
fails after it has moved the finalized checkpoint and is committed all the same. -/
theorem neverLeavesFinal (hs : s.IsAnchored) (hRules : FollowsChains t s)
    (h : s.SteadyDraft t d) :
    d.view.KeepsFinal d.view.justified.root ∧
      d.view.Descends d.view.finalized.root d.view.justified.root ∧
        (d.view.justified.root ≠ 0 → ∀ messages root, d.view.head messages = .ok root →
          d.view.Descends d.view.finalized.root root) := by
  have hKept : d.view.Kept s := by
    induction h with
    | opened =>
      rw [Draft.ofStore_view]
      exact kept_of_anchored hs
    | @ticked d time _ hPromoted ih =>
      rcases d.tick_cases time with ⟨-, hTick⟩ | ⟨-, hTick⟩ | ⟨-, hBetter, hTick⟩
      · rw [hTick]
        exact ih
      · rw [hTick]
        exact ih.of_sameTree rfl rfl rfl
      · -- The promoted checkpoint is a later one, so it is not the justified one itself.
        rw [hTick] at hPromoted ⊢
        refine ih.rejustify rfl rfl (UInt64.le_trans ih.ordered (UInt64.le_of_lt hBetter)) ?_
        refine hPromoted.resolve_left fun hSame => ?_
        rw [show d.view.bestJustified = _ from hSame] at hBetter
        exact UInt64.lt_irrefl _ hBetter
    | imported b h hWhole ih => exact ih.importBlock hRules h.shows hWhole
    | @voted d check a _ ih => exact ih.of_sameChain (d.attest_sameChain t check a)
    | @forgotten d _ ih => exact ih.of_sameChain d.discardVotes_sameChain
    | @committed d _ ih =>
      rw [Draft.ofStore_view]
      exact ih.of_sameChain d.commit_sameChain
  refine ⟨hKept.keeps, hKept.descends, fun hNonzero messages root hHead => ?_⟩
  have hFound := hKept.tree.descends_head hHead
  -- The search for the head begins at the justified block, unless its root is zero.
  have hStart : d.view.headStart = d.view.justified.root := by
    have hSome : ¬ (d.view.justified.isEmpty || d.view.justified.root = 0) = true := by
      intro hNone
      rcases Bool.or_eq_true_iff.mp hNone with hEmpty | hZero
      · rw [Checkpoint.isEmpty, decide_eq_true_eq] at hEmpty
        rw [hEmpty] at hNonzero
        exact hNonzero rfl
      · exact hNonzero (of_decide_eq_true hZero)
    exact if_neg hSome
  rw [hStart] at hFound
  exact hKept.descends.trans hFound

end

/-! ## A rival branch -/

namespace StoreView

/-- The preset is this one, and the state after a block is of the slot of the block. -/
structure SlotsAgree (p : Preset) (v : StoreView) : Prop where
  preset : v.preset = p
  slots : ∀ {r : Root} {block : Block} {state : BeaconState}, v.block? r = some block →
    v.state? r = some state → state.slot = block.slot

theorem SlotsAgree.of_sameTree {p : Preset} {v v' : StoreView} (hv : v.SlotsAgree p)
    (h : SameTree v v') : v'.SlotsAgree p where
  preset := h.preset.trans hv.preset
  slots hBlock hState := by
    rw [h.block?] at hBlock
    rw [h.state?] at hState
    exact hv.slots hBlock hState

/-- Under rules that leave a state in the slot of its block, all slots agree. -/
theorem stable_slotsAgree [HashFunction] [SignatureScheme] {t : StateTransition} (p : Preset)
    (hSlot : ∀ s b state, t.applyBlock s b = .ok state → state.slot = b.slot) :
    Draft.Stable t (SlotsAgree p) where
  change d c h := by
    cases c with
    | tick time => exact h.of_sameTree (d.tick_sameTree time)
    | block b =>
      show (d.importBlock t b).2.view.SlotsAgree p
      rcases d.importBlock_cases t b with
        ⟨hSame, -⟩ | ⟨root, parentState, state, -, hApplied, hDraft, -⟩
      · rw [hSame]
        exact h
      · have hAdded : (d.view.withBlock root b state).SlotsAgree p := by
          refine ⟨h.preset, fun {r block state'} hBlock hState => ?_⟩
          rcases withBlock_cases hBlock with ⟨rfl, rfl⟩ | ⟨hNe, hOld⟩
          · rw [withBlock_state?_self] at hState
            cases hState
            exact hSlot _ _ _ hApplied
          · rw [withBlock_state?_of_ne hNe] at hState
            exact h.slots hOld hState
        rw [hDraft]
        refine SlotsAgree.of_sameTree ?_ (Draft.updateCheckpoints_sameTree _ state)
        rwa [Draft.insertBlock_view, Draft.countApplyBlock_view]
    | attestation check a => exact h.of_sameTree (d.attest_sameChain t check a).sameTree
    | discardVotes => exact h.of_sameTree d.discardVotes_sameChain.sameTree
  commit d h := h.of_sameTree d.commit_sameChain.sameTree

end StoreView

section

variable [HashFunction]

/-- The last block up to the beginning of its epoch on the chain of a block, as far as the block and
its parent are enough to tell. -/
def boundary (p : Preset) (root : Root) (b : Block) (parentState : BeaconState) : Checkpoint :=
  let epoch := p.epochAt b.slot
  if b.slot ≤ p.startSlot epoch then ⟨epoch, root⟩
  else if parentState.slot ≤ p.startSlot epoch then ⟨epoch, b.parentRoot⟩
  else .empty

/-- Rules without checks, under which a block justifies this checkpoint if it has a mark, and
finalizes it if the mark is the second one. -/
def markedRules (p : Preset) : StateTransition where
  processSlots s slot := .ok { s with slot := slot }
  applyBlock s b :=
    match b.treeRoot with
    | .error reason => .error (.fault reason)
    | .ok root => .ok { s with
        slot := b.slot
        currentJustified := if b.body.graffiti = 0 then .empty else boundary p root b s
        finalized := if b.body.graffiti = 2 then boundary p root b s else .empty }

theorem followsChains_markedRules [SignatureScheme] {s : Store} (hs : s.IsGenesis) :
    FollowsChains (markedRules s.preset) s := by
  intro v root b parentState state hv hAdmitted hApplied
  have hSlot : ∀ s' b state, (markedRules s.preset).applyBlock s' b = .ok state →
      state.slot = b.slot := by
    intro s' b state hApplied
    simp only [markedRules] at hApplied
    split at hApplied
    · cases hApplied
    · cases hApplied
      rfl
  have hStart : s.view.SlotsAgree s.preset := by
    obtain ⟨root, block, state, hFacts⟩ := hs.facts
    obtain ⟨time, hStore⟩ := hFacts.store_eq
    refine ⟨rfl, fun {r block' state'} hBlock hState => ?_⟩
    rw [hStore] at hBlock hState
    rw [singleton_block?] at hBlock
    rw [singleton_state?] at hState
    split at hBlock
    · rename_i hr
      rw [if_pos hr] at hState
      cases hBlock
      cases hState
      rw [hFacts.slot, hFacts.stateSlot]
    · exact absurd hBlock (by simp)
  have hAgree := (stable_slotsAgree s.preset hSlot).shows hStart hv
  have hTree := (stable_rooted (markedRules s.preset)).shows (rooted_of_anchored hs.isAnchored) hv
  -- The rules see the slot of the parent only in its state.
  obtain ⟨hRoot, hFresh, hParent, -⟩ := admitBlock_eq_fresh.mp hAdmitted
  obtain ⟨parent, hKnown⟩ := hTree.known_of_state hParent
  have hEmpty : OnChain s (v.withBlock root b state) root .empty := Or.inl UInt64.zero_le
  have hBoundary :
      OnChain s (v.withBlock root b state) root (boundary s.preset root b parentState) := by
    unfold boundary
    dsimp only
    split
    · -- The block is the first one of its epoch.
      rename_i hFirst
      right
      refine .here withBlock_block?_self ?_
      show b.slot ≤ v.preset.startSlot _
      rwa [hAgree.preset]
    · rename_i hLater
      split
      · rename_i hParentSlot
        right
        rw [hAgree.slots hKnown hParent] at hParentSlot
        refine .next withBlock_block?_self (?_ : v.preset.startSlot _ < b.slot) ?_
        · rw [hAgree.preset]
          exact UInt64.not_le.mp hLater
        · refine .here (extends_withBlock hFresh _ _ hKnown) (?_ : _ ≤ v.preset.startSlot _)
          rwa [hAgree.preset]
      · exact hEmpty
  simp only [markedRules, hRoot] at hApplied
  have hJustified : state.currentJustified =
      if b.body.graffiti = 0 then .empty else boundary s.preset root b parentState := by
    rw [← Except.ok.inj hApplied]
  have hFinalized : state.finalized =
      if b.body.graffiti = 2 then boundary s.preset root b parentState else .empty := by
    rw [← Except.ok.inj hApplied]
  rw [hJustified, hFinalized]
  refine ⟨?_, root, Or.inl rfl, ?_, ?_⟩
  · split
    · rename_i hMark
      rw [if_neg (by rw [hMark]; decide)]
      exact UInt64.le_refl _
    · exact UInt64.zero_le
  · split
    · exact hBoundary
    · exact hEmpty
  · split
    · exact hEmpty
    · exact hBoundary

end

/-! ## A network in which what is final is left -/

/-- A block that says nothing but its mark. -/
def markedBlock (slot : Slot) (parentRoot mark : Root) : Block :=
  ⟨slot, 0, parentRoot, 0, { Devnet.emptyBody with graffiti := mark }⟩

/-- A network at genesis, and two branches that begin on its anchor. -/
structure RivalNetwork where
  store : Store
  first : Block
  firstRoot : Root
  /-- A block of the second epoch that finalizes the first block of its branch. -/
  second : Block
  rivalFirst : Block
  rivalFirstRoot : Root
  /-- A block of the third epoch that justifies a block of its branch. -/
  rivalSecond : Block
  rivalSecondRoot : Root

/-- The network of eight validators. Where `slot` is the first one of its epoch, the last block
justifies itself, or else its parent. -/
def rivalNetwork [HashFunction] (limits : StoreLimits) (slot : Slot) : Option RivalNetwork := do
  let validators := (List.range 8).map Devnet.keylessValidator
  let state ← (Devnet.genesisState .minimal .minimal 0 validators).toOption
  let anchor ← (Devnet.genesisBlock .minimal state).toOption
  let store ← (Store.ofAnchor .minimal .minimal limits anchor state).toOption
  let first := markedBlock 1 store.anchorRoot 0
  let firstRoot ← first.treeRoot.toOption
  let rivalFirst := markedBlock 9 store.anchorRoot 0
  let rivalFirstRoot ← rivalFirst.treeRoot.toOption
  let rivalSecond := markedBlock slot rivalFirstRoot 1
  let rivalSecondRoot ← rivalSecond.treeRoot.toOption
  return ⟨store, first, firstRoot, markedBlock 9 firstRoot 2, rivalFirst, rivalFirstRoot,
    rivalSecond, rivalSecondRoot⟩

namespace RivalNetwork

/-- The rules of the network. -/
def rules [HashFunction] (n : RivalNetwork) : StateTransition :=
  markedRules n.store.preset

/-- At some time of the third epoch, the blocks of the rival branch arrive before the others. -/
def arrivals (n : RivalNetwork) (time : UInt64) : List Change :=
  [.tick time, .block n.rivalFirst, .block n.rivalSecond, .block n.first, .block n.second]

/-- Whether the head is on the rival branch while the other one is finalized. -/
def favoursRival (n : RivalNetwork) (v : StoreView) : Bool :=
  v.finalized = ⟨1, n.firstRoot⟩ && v.parent? n.rivalSecondRoot = some n.rivalFirstRoot &&
    v.parent? n.rivalFirstRoot = some v.anchorRoot &&
      (v.block? v.anchorRoot).any (fun anchor => decide (anchor.slot ≤ v.finalizedSlot)) &&
        (v.head .empty).toOption = some n.rivalSecondRoot &&
          decide (n.firstRoot ∉ [n.rivalSecondRoot, n.rivalFirstRoot, v.anchorRoot])

end RivalNetwork

namespace StoreView

/-- With some votes, the head is not a descendant of the finalized block. -/
def HeadLeaves (v : StoreView) : Prop :=
  ∃ messages head, v.head messages = .ok head ∧ ¬v.Descends v.finalized.root head

/-- Neither the justified block nor the head is a descendant of the finalized block. -/
def LeavesFinal (v : StoreView) : Prop :=
  ¬v.KeepsFinal v.justified.root ∧ ¬v.Descends v.finalized.root v.justified.root ∧ v.HeadLeaves

end StoreView

namespace RivalNetwork

variable {n : RivalNetwork} {v : StoreView}

/-- The finalized block is none of the three blocks of the rival chain. -/
theorem not_descends (h : n.favoursRival v = true) :
    ¬v.Descends v.finalized.root n.rivalFirstRoot ∧
      ¬v.Descends v.finalized.root n.rivalSecondRoot := by
  simp only [favoursRival, Bool.and_eq_true, decide_eq_true_eq] at h
  obtain ⟨⟨⟨⟨⟨hFinalized, hSecond⟩, hFirst⟩, -⟩, -⟩, hOther⟩ := h
  simp only [List.mem_cons, List.not_mem_nil, or_false, not_or] at hOther
  obtain ⟨hNotSecond, hNotFirst, hNotAnchor⟩ := hOther
  have hFirst : ¬v.Descends v.finalized.root n.rivalFirstRoot := by
    rw [hFinalized]
    intro hDescends
    rcases hDescends.of_parent? hFirst with hSame | hDescends
    · exact hNotFirst hSame
    · exact hNotAnchor hDescends.eq_anchor
  refine ⟨hFirst, fun hDescends => ?_⟩
  rcases hDescends.of_parent? hSecond with hSame | hDescends
  · rw [hFinalized] at hSame
    exact hNotSecond hSame
  · exact hFirst hDescends

theorem headLeaves (h : n.favoursRival v = true) : v.HeadLeaves := by
  have hNot := (not_descends h).2
  simp only [favoursRival, Bool.and_eq_true, decide_eq_true_eq] at h
  obtain ⟨⟨-, hHead⟩, -⟩ := h
  exact ⟨.empty, n.rivalSecondRoot, Engine.toOption_eq_some.mp hHead, hNot⟩

theorem leavesFinal (h : n.favoursRival v = true)
    (hJustified : v.justified.root = n.rivalFirstRoot ∨ v.justified.root = n.rivalSecondRoot) :
    v.LeavesFinal := by
  have hNot : ¬v.Descends v.finalized.root v.justified.root := by
    obtain ⟨hFirst, hSecond⟩ := not_descends h
    rcases hJustified with hSame | hSame <;> rw [hSame]
    · exact hFirst
    · exact hSecond
  refine ⟨fun hKeeps => hNot (hKeeps.descends ?_), hNot, headLeaves h⟩
  simp only [favoursRival, Bool.and_eq_true, Option.any_eq_true, decide_eq_true_eq] at h
  obtain ⟨⟨⟨-, hAnchor⟩, -⟩, -⟩ := h
  exact hAnchor

end RivalNetwork

/-- What has been computed of the network holds of one that begins with a trusted block and follows
its rules. -/
theorem exists_rivalNetwork [HashFunction] [SignatureScheme] {limits : StoreLimits} {slot : Slot}
    {check : RivalNetwork → Bool} (h : (rivalNetwork limits slot).any check = true) :
    ∃ n, rivalNetwork limits slot = some n ∧ n.store.IsAnchored ∧ FollowsChains n.rules n.store ∧
      check n = true := by
  rw [Option.any_eq_true] at h
  obtain ⟨n, hNetwork, hCheck⟩ := h
  have hs : n.store.IsGenesis := by
    simp only [rivalNetwork, Option.bind_eq_bind, Option.bind_eq_some_iff,
      Engine.toOption_eq_some] at hNetwork
    obtain ⟨state, hState, anchor, hAnchor, store, hStore, _, -, _, -, _, -, hEnd⟩ := hNetwork
    cases hEnd
    exact (Store.isGenesis_of_ofAnchor hState hAnchor hStore).1
  exact ⟨n, hNetwork, hs.isAnchored, followsChains_markedRules hs, hCheck⟩

/-- The same hash function but for one value, in place of which there is zero. -/
@[reducible]
def zeroingHash (root : Root) : HashFunction :=
  ⟨fun x => if Engine.linearHash.digest x = root then 0 else Engine.linearHash.digest x⟩

/-- The root of the first block in the network with the hash function as it is. -/
def firstRivalRoot : Root :=
  letI : HashFunction := Engine.linearHash
  (rivalNetwork {} 17).elim 0 RivalNetwork.firstRoot

/-- **What is final can be left** in three ways. In a small network the beginning of an epoch
promotes the checkpoint that was set aside when a block on the other branch became final. Where
walks follow one link only, the import that finalizes the block fails before it has looked for the
block on the chain of the justified one. And where the root of the finalized block is zero, the
search for the head begins at the anchor. -/
theorem rivals_leave_final :
    letI : SignatureScheme := Bls.scheme
    (letI : HashFunction := Engine.linearHash
      ∃ n, rivalNetwork {} 17 = some n ∧ n.store.IsAnchored ∧ FollowsChains n.rules n.store ∧
        (n.store.after n.rules [⟨n.arrivals 120 ++ [.tick 144], true⟩]).view.LeavesFinal) ∧
    (letI : HashFunction := Engine.linearHash
      ∃ n, rivalNetwork ⟨1, 32⟩ 16 = some n ∧ n.store.IsAnchored ∧ FollowsChains n.rules n.store ∧
        (n.store.after n.rules [⟨n.arrivals 96, true⟩]).view.LeavesFinal) ∧
    letI : HashFunction := zeroingHash firstRivalRoot
    ∃ n, rivalNetwork {} 17 = some n ∧ n.store.IsAnchored ∧ FollowsChains n.rules n.store ∧
      (n.store.after n.rules [⟨n.arrivals 120, true⟩]).view.HeadLeaves := by
  let : SignatureScheme := Bls.scheme
  refine ⟨?_, ?_, ?_⟩
  · let : HashFunction := Engine.linearHash
    have hRuns : ((rivalNetwork {} 17).any fun n =>
        let v := (n.store.after n.rules [⟨n.arrivals 120 ++ [.tick 144], true⟩]).view
        n.favoursRival v && v.justified.root = n.rivalFirstRoot) = true := by
      decide +kernel
    obtain ⟨n, hNetwork, hs, hRules, hRun⟩ := exists_rivalNetwork hRuns
    rw [Bool.and_eq_true, decide_eq_true_eq] at hRun
    exact ⟨n, hNetwork, hs, hRules, n.leavesFinal hRun.1 (Or.inl hRun.2)⟩
  · let : HashFunction := Engine.linearHash
    have hRuns : ((rivalNetwork ⟨1, 32⟩ 16).any fun n =>
        let v := (n.store.after n.rules [⟨n.arrivals 96, true⟩]).view
        n.favoursRival v && v.justified.root = n.rivalSecondRoot) = true := by
      decide +kernel
    obtain ⟨n, hNetwork, hs, hRules, hRun⟩ := exists_rivalNetwork hRuns
    rw [Bool.and_eq_true, decide_eq_true_eq] at hRun
    exact ⟨n, hNetwork, hs, hRules, n.leavesFinal hRun.1 (Or.inr hRun.2)⟩
  · let : HashFunction := zeroingHash firstRivalRoot
    have hRuns : ((rivalNetwork {} 17).any fun n => n.favoursRival
        (n.store.after n.rules [⟨n.arrivals 120, true⟩]).view) = true := by
      decide +kernel
    obtain ⟨n, hNetwork, hs, hRules, hRun⟩ := exists_rivalNetwork hRuns
    exact ⟨n, hNetwork, hs, hRules, n.headLeaves hRun⟩

/-! ## The same network without the promotion -/

section

variable [HashFunction] [SignatureScheme] {t : StateTransition} {s : Store} {d : Draft}

/-- Whether the operation is neither an import that fails nor a tick that moves the justified
checkpoint. -/
def Draft.isSteady (t : StateTransition) (d : Draft) : Change → Bool
  | .tick time => (d.tick time).view.justified = d.view.justified
  | .block b => (d.importBlock t b).1.isOk
  | .attestation _ _ => true
  | .discardVotes => true

/-- Whether this is so of all operations in order. -/
def Draft.staysSteady (t : StateTransition) (d : Draft) : List Change → Bool
  | [] => true
  | c :: changes => d.isSteady t c && (d.change t c).staysSteady t changes

theorem Store.SteadyDraft.changeAll {changes : List Change} (h : s.SteadyDraft t d)
    (hSteady : d.staysSteady t changes = true) : s.SteadyDraft t (d.changeAll t changes) := by
  induction changes generalizing d with
  | nil => exact h
  | cons c changes ih =>
    rw [Draft.staysSteady, Bool.and_eq_true] at hSteady
    obtain ⟨hChange, hRest⟩ := hSteady
    refine ih ?_ hRest
    cases c with
    | tick time => exact h.ticked time (Or.inl (of_decide_eq_true hChange))
    | block b =>
      refine h.imported b (Or.inr ?_)
      cases hImport : (d.importBlock t b).1 with
      | error failure =>
        rw [Draft.isSteady, hImport] at hChange
        exact absurd hChange (by simp [Except.isOk, Except.toBool])
      | ok result => exact ⟨result, rfl⟩
    | attestation check a => exact h.voted check a
    | discardVotes => exact h.forgotten

end

/-- Before the epoch begins, the justified block and the head are on the branch of the finalized
block. -/
theorem neverLeavesFinal_of_rivals :
    letI : HashFunction := Engine.linearHash
    letI : SignatureScheme := Bls.scheme
    ∃ n, rivalNetwork {} 17 = some n ∧ n.store.IsAnchored ∧ FollowsChains n.rules n.store ∧
      let d := (Draft.ofStore n.store).changeAll n.rules (n.arrivals 120)
      n.store.SteadyDraft n.rules d ∧ d.view.finalized = ⟨1, n.firstRoot⟩ ∧
        d.view.justified.root ≠ 0 ∧ d.view.KeepsFinal d.view.justified.root ∧
          d.view.Descends n.firstRoot d.view.justified.root ∧
            ∃ head, d.view.head .empty = .ok head ∧ d.view.Descends n.firstRoot head := by
  let : HashFunction := Engine.linearHash
  let : SignatureScheme := Bls.scheme
  have hRuns : ((rivalNetwork {} 17).any fun n =>
      let d := (Draft.ofStore n.store).changeAll n.rules (n.arrivals 120)
      (Draft.ofStore n.store).staysSteady n.rules (n.arrivals 120) &&
        decide (d.view.finalized = ⟨1, n.firstRoot⟩) && decide (d.view.justified.root ≠ 0) &&
          (d.view.head .empty).toOption.isSome) = true := by
    decide +kernel
  obtain ⟨n, hNetwork, hs, hRules, hRun⟩ := exists_rivalNetwork hRuns
  simp only [Bool.and_eq_true, decide_eq_true_eq, Option.isSome_iff_exists] at hRun
  obtain ⟨⟨⟨hSteady, hFinalized⟩, hNonzero⟩, head, hHead⟩ := hRun
  have hHead := Engine.toOption_eq_some.mp hHead
  have hDraft := (Store.SteadyDraft.opened (t := n.rules) (s := n.store)).changeAll hSteady
  obtain ⟨hKeeps, hDescends, hFound⟩ := neverLeavesFinal hs hRules hDraft
  rw [hFinalized] at hDescends
  have hFound := hFound hNonzero .empty head hHead
  rw [hFinalized] at hFound
  exact ⟨n, hNetwork, hs, hRules, hDraft, hFinalized, hNonzero, hKeeps, hDescends, head, hHead,
    hFound⟩

end ForkChoice
