import ForkChoice.Proofs.Store.History

/-!
# ForkChoice — what the head depends on

The head depends on the tree and on the justified checkpoint, but not on the votes of the store or
the states at checkpoints, which many operations change. And blocks are never lost, so what is
known of a block stays true.

* `SameTree.headFrom_eq`, `SameChain.head_eq` — the head does not change;
* `stable_extends` — blocks are never lost.
-/

namespace ForkChoice

namespace StoreView

variable {v v' : StoreView}

/-! ## The same head -/

namespace SameTree

theorem ancestorFrom_eq (h : SameTree v v') (slot : Slot) (fuel : Nat) (root : Root) :
    v'.ancestorFrom slot fuel root = v.ancestorFrom slot fuel root := by
  induction fuel generalizing root with
  | zero => rfl
  | succ fuel ih =>
    rw [ancestorFrom, ancestorFrom, h.block?]
    simp only [ih]

theorem ancestor_eq (h : SameTree v v') (root : Root) (slot : Slot) :
    v'.ancestor root slot = v.ancestor root slot := by
  rw [ancestor, ancestor, h.limits, h.ancestorFrom_eq]

theorem supportFrom_eq (h : SameTree v v') (child : Root) (slot : Slot)
    (counts : List (Root × Nat)) :
    v'.supportFrom child slot counts = v.supportFrom child slot counts := by
  induction counts with
  | nil => rfl
  | cons e rest ih => rw [supportFrom, supportFrom, h.ancestor_eq, ih]

theorem support_eq (h : SameTree v v') (votes : List (Root × Nat)) (child : Root) :
    v'.support votes child = v.support votes child := by
  rw [support, support, h.block?]
  simp only [h.supportFrom_eq]

theorem bestChild_eq (h : SameTree v v') (votes : List (Root × Nat)) (children : List Root) :
    v'.bestChild votes children = v.bestChild votes children := by
  induction children with
  | nil => rfl
  | cons child rest ih => rw [bestChild, bestChild, h.support_eq, ih]

theorem headFrom_eq (h : SameTree v v') (votes : List (Root × Nat)) (fuel : Nat) (root : Root) :
    v'.headFrom votes fuel root = v.headFrom votes fuel root := by
  induction fuel generalizing root with
  | zero => rfl
  | succ fuel ih =>
    rw [headFrom, headFrom, h.bestChild_eq, h.children]
    simp only [ih]

end SameTree

/-- Votes in the store and states at checkpoints do not matter for the head. -/
theorem SameChain.head_eq (h : SameChain v v') (messages : LatestMessages) :
    v'.head messages = v.head messages := by
  have hStart : v'.headStart = v.headStart := by rw [h]; rfl
  rw [head, head, h.sameTree.importCount, h.sameTree.headFrom_eq, hStart]

/-! ## More blocks -/

variable [HashFunction]

theorem extends_importBlock (t : StateTransition) (d : Draft) (b : Block) :
    Extends d.view (d.importBlock t b).2.view := by
  rcases d.importBlock_cases t b with
    ⟨hSame, -⟩ | ⟨root, parentState, state, hAdmitted, -, hDraft, -⟩
  · rw [hSame]
    exact Extends.refl _
  · obtain ⟨-, hFresh, -⟩ := admitBlock_eq_fresh.mp hAdmitted
    -- The checkpoints that are looked at next do not touch the tree.
    have hInserted : Extends d.view (d.countApplyBlock.insertBlock root b state).view := by
      rw [Draft.insertBlock_view, Draft.countApplyBlock_view]
      exact extends_withBlock hFresh
    rw [hDraft]
    exact hInserted.trans (Draft.updateCheckpoints_sameTree _ state).view_extends

/-- **Blocks are never lost**, whatever is done with a draft and whatever the rules are. -/
theorem stable_extends [SignatureScheme] (t : StateTransition) (v : StoreView) :
    Draft.Stable t (Extends v) where
  change d c h := by
    cases c with
    | tick time => exact h.trans (d.tick_sameTree time).view_extends
    | block b => exact h.trans (extends_importBlock t d b)
    | attestation check a => exact h.trans (d.attest_sameChain t check a).sameTree.view_extends
    | discardVotes => exact h.trans d.discardVotes_sameChain.sameTree.view_extends
  commit d h := h.trans d.commit_sameChain.sameTree.view_extends

end StoreView

end ForkChoice
