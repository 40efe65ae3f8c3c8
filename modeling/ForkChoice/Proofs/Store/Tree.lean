import ForkChoice.Engine.HeadTracker
import ForkChoice.Proofs.Store.Growth

/-!
# ForkChoice — the tree under any rules

A store that begins with a trusted block is a tree under this block whatever the rules are by
which states move on: they may justify and finalize what they like, and an import that fails after
it has added a block changes nothing about this. Blocks are added as leaves, so no block is an
ancestor of its own, and the loops along links come to an end.

* `Store.IsAnchored` — a store that begins with a trusted block;
* `StoreView.Rooted` — the tree, with a rank that grows along the links;
* `stable_rooted`, `rooted_of_anchored` — it holds of all that can be read;
* `StoreView.HeadSearch` — the search for the head without its bound, `Rooted.headSearch` — the
  bound is never met, `Rooted.descends_head` — what is found;
* `StoreView.Descent`, `Rooted.descent` — the same for the walk that decides whether the votes in a
  block count.
-/

namespace ForkChoice

/-- The store that begins with a trusted block, which need not be the first of its network. -/
def Store.IsAnchored [HashFunction] (s : Store) : Prop :=
  ∃ block state, Store.ofAnchor s.preset s.config s.limits block state = .ok s

theorem Store.IsGenesis.isAnchored [HashFunction] {s : Store} (hs : s.IsGenesis) :
    s.IsAnchored := by
  obtain ⟨-, -, -, state, block, -, -, hAnchor⟩ := hs
  exact ⟨block, state, hAnchor⟩

/-- A store that begins with a trusted block has no votes. -/
theorem Store.IsAnchored.latestMessage?_eq [HashFunction] {s : Store} (hs : s.IsAnchored) :
    s.view.latestMessage? = LatestMessages.empty.get? := by
  obtain ⟨block, state, hAnchor⟩ := hs
  obtain ⟨root, -, -, -, -, time, -, hStore⟩ := Store.ofAnchor_eq_ok.mp hAnchor
  rw [← hStore]
  rfl

namespace StoreView

variable {v v' : StoreView} {r root p c : Root} {block : Block} {state : BeaconState}

/-- Blocks and states come in pairs, every block but the anchor has a known parent, and links do
not lead in a circle. -/
structure Rooted (v : StoreView) : Prop where
  anchor : ∃ block, v.block? v.anchorRoot = some block
  paired : ∀ r, (v.block? r).isSome ↔ (v.state? r).isSome
  parent_known : ∀ {c p : Root}, v.parent? c = some p → ∃ parent, v.block? p = some parent
  mem_children : ∀ {p c : Root}, c ∈ v.children p ↔ v.parent? c = some p
  /-- The rank of a block is greater than that of its parent, and no rank exceeds the number of
  imports. -/
  ranked : ∃ rank : Root → Nat, (∀ {c p : Root}, v.parent? c = some p → rank p < rank c) ∧
    ∀ r, rank r ≤ v.importCount

namespace Rooted

theorem state?_eq_none (hv : v.Rooted) : v.state? r = none ↔ v.block? r = none := by
  have h := hv.paired r
  cases hBlock : v.block? r <;> cases hState : v.state? r <;> simp_all

theorem known_of_state (hv : v.Rooted) (h : v.state? r = some state) :
    ∃ block, v.block? r = some block := by
  rw [← Option.isSome_iff_exists, hv.paired, h]
  rfl

/-- A block that is not known is not the anchor. -/
theorem ne_anchor (hv : v.Rooted) (hFresh : v.block? root = none) : root ≠ v.anchorRoot := by
  rintro rfl
  obtain ⟨anchor, hAnchor⟩ := hv.anchor
  rw [hAnchor] at hFresh
  exact absurd hFresh (by simp)

theorem of_sameTree (hv : v.Rooted) (h : SameTree v v') : v'.Rooted where
  anchor := by
    rw [h.block?, h.anchorRoot]
    exact hv.anchor
  paired r := by
    rw [h.block?, h.state?]
    exact hv.paired r
  parent_known := by
    intro c p hParent
    rw [h.parent?_eq] at hParent
    rw [h.block?]
    exact hv.parent_known hParent
  mem_children := by
    intro p c
    rw [h.children, h.parent?_eq]
    exact hv.mem_children
  ranked := by
    obtain ⟨rank, hLess, hBound⟩ := hv.ranked
    refine ⟨rank, fun hParent => ?_, fun r => ?_⟩
    · rw [h.parent?_eq] at hParent
      exact hLess hParent
    · rw [h.importCount]
      exact hBound r

/-- **A new block** on a known parent is a new leaf. -/
theorem withBlock (hv : v.Rooted) (hFresh : v.block? root = none)
    (hParent : ∃ parent, v.block? block.parentRoot = some parent) :
    (v.withBlock root block state).Rooted := by
  have hNe := hv.ne_anchor hFresh
  have hMore : Extends v (v.withBlock root block state) := extends_withBlock hFresh
  -- The links of the new tree are those of the old one, and the link of the new block.
  have hLink : ∀ {c p}, (v.withBlock root block state).parent? c = some p →
      (c = root ∧ block.parentRoot = p) ∨ (c ≠ root ∧ v.parent? c = some p) := by
    intro c p h
    rw [withBlock_parent? hNe] at h
    split at h
    · rename_i hc
      exact Or.inl ⟨hc.symm, Option.some.inj h⟩
    · rename_i hc
      exact Or.inr ⟨Ne.symm hc, h⟩
  have hKnown : ∀ {c p}, (v.withBlock root block state).parent? c = some p →
      ∃ parent, v.block? p = some parent := by
    intro c p h
    rcases hLink h with ⟨-, rfl⟩ | ⟨-, hOld⟩
    · exact hParent
    · exact hv.parent_known hOld
  exact {
    anchor := by
      obtain ⟨anchor, hAnchor⟩ := hv.anchor
      exact ⟨anchor, hMore _ _ hAnchor⟩
    paired := by
      intro r
      by_cases h : r = root
      · rw [h, withBlock_block?_self, withBlock_state?_self]
        exact Iff.rfl
      · rw [withBlock_block?_of_ne h, withBlock_state?_of_ne h]
        exact hv.paired r
    parent_known := by
      intro c p h
      obtain ⟨parent, hOld⟩ := hKnown h
      exact ⟨parent, hMore _ _ hOld⟩
    mem_children := withBlock_mem_children hNe hFresh hv.mem_children
    ranked := by
      obtain ⟨rank, hLess, hBound⟩ := hv.ranked
      -- The new block comes after all others.
      refine ⟨fun r => if r = root then v.importCount + 1 else rank r, ?_, ?_⟩
      · intro c p h
        have hOld : p ≠ root := by
          rintro rfl
          obtain ⟨parent, hSome⟩ := hKnown h
          rw [hFresh] at hSome
          exact absurd hSome (by simp)
        dsimp only
        rcases hLink h with ⟨rfl, -⟩ | ⟨hc, hParent⟩
        · rw [if_neg hOld, if_pos rfl]
          exact Nat.lt_succ_of_le (hBound p)
        · rw [if_neg hOld, if_neg hc]
          exact hLess hParent
      · intro r
        show (if r = root then v.importCount + 1 else rank r) ≤ v.importCount + 1
        split
        · exact Nat.le_refl _
        · exact Nat.le_succ_of_le (hBound r) }

variable [HashFunction] {t : StateTransition} {d : Draft}

/-- An import leaves a tree, also when it fails. -/
theorem importBlock (hv : d.view.Rooted) (b : Block) : (d.importBlock t b).2.view.Rooted := by
  rcases d.importBlock_cases t b with
    ⟨hSame, -⟩ | ⟨root, parentState, state, hAdmitted, -, hDraft, -⟩
  · rw [hSame]
    exact hv
  · obtain ⟨-, hFresh, hParent, -⟩ := admitBlock_eq_fresh.mp hAdmitted
    have hInserted : (d.countApplyBlock.insertBlock root b state).view.Rooted := by
      rw [Draft.insertBlock_view, Draft.countApplyBlock_view]
      exact hv.withBlock hFresh (hv.known_of_state hParent)
    rw [hDraft]
    exact hInserted.of_sameTree (Draft.updateCheckpoints_sameTree _ state)

end Rooted

/-- **The tree** stays one under all rules, whatever is done with a draft. -/
theorem stable_rooted [HashFunction] [SignatureScheme] (t : StateTransition) :
    Draft.Stable t Rooted where
  change d c h := by
    cases c with
    | tick time => exact h.of_sameTree (d.tick_sameTree time)
    | block b => exact h.importBlock b
    | attestation check a => exact h.of_sameTree (d.attest_sameChain t check a).sameTree
    | discardVotes => exact h.of_sameTree d.discardVotes_sameChain.sameTree
  commit d h := h.of_sameTree d.commit_sameChain.sameTree

/-- A trusted block is a tree of its own. -/
theorem rooted_singleton {p : Preset} {config : Config} {limits : StoreLimits} {time : UInt64} :
    (Store.singleton p config limits time root block state).view.Rooted := by
  have hAlone : ∀ {c}, (Store.singleton p config limits time root block state).view.parent? c =
      none := by
    intro c
    by_cases h : c = root
    · exact if_pos h
    · rw [parent?, singleton_block?, if_neg (Ne.symm h)]
      exact ite_self _
  exact {
    anchor := ⟨block, singleton_block?.trans (if_pos rfl)⟩
    paired := by
      intro r
      rw [singleton_block?, singleton_state?]
      split <;> simp
    parent_known := by
      intro c p h
      rw [hAlone] at h
      exact absurd h (by simp)
    mem_children := by
      intro p c
      rw [hAlone]
      exact ⟨fun h => absurd h List.not_mem_nil, fun h => absurd h (by simp)⟩
    ranked := by
      refine ⟨fun _ => 0, fun h => ?_, fun _ => Nat.zero_le _⟩
      rw [hAlone] at h
      exact absurd h (by simp) }

theorem rooted_of_anchored [HashFunction] {s : Store} (hs : s.IsAnchored) : s.view.Rooted := by
  obtain ⟨block, state, hAnchor⟩ := hs
  obtain ⟨root, -, -, -, -, time, -, hStore⟩ := Store.ofAnchor_eq_ok.mp hAnchor
  rw [← hStore]
  exact rooted_singleton

/-! ## Loops along the links -/

/-- The search for the head from a block on, step by step until there is no child or a vote cannot
be counted. -/
inductive HeadSearch (v : StoreView) (votes : List (Root × Nat)) :
    Root → Outcome StoreError Root → Prop
  | fails {r : Root} {failure : Failure StoreError}
    (h : v.bestChild votes (v.children r) = .error failure) : HeadSearch v votes r (.error failure)
  | ends {r : Root} (h : v.bestChild votes (v.children r) = .ok none) : HeadSearch v votes r (.ok r)
  | descends {r child : Root} {weight : Nat} {result : Outcome StoreError Root}
    (h : v.bestChild votes (v.children r) = .ok (some (weight, child)))
    (hRest : HeadSearch v votes child result) : HeadSearch v votes r result

theorem mem_of_bestChild {votes : List (Root × Nat)} {children : List Root} {best : Nat × Root}
    (h : v.bestChild votes children = .ok (some best)) : best.2 ∈ children := by
  induction children generalizing best with
  | nil => cases h
  | cons child rest ih =>
    simp only [bestChild, bind_eq_ok] at h
    obtain ⟨weight, -, other, hRest, hBest⟩ := h
    cases other with
    | none =>
      cases hBest
      exact List.mem_cons_self
    | some other =>
      rw [pure_eq_ok, Option.some.injEq] at hBest
      split at hBest
      · exact hBest ▸ List.mem_cons_of_mem _ (ih hRest)
      · exact hBest ▸ List.mem_cons_self

/-- **The search for the head** is never cut short: ranks grow on the way, so that no block is met
twice. -/
theorem Rooted.headSearch (hv : v.Rooted) (messages : LatestMessages) :
    v.HeadSearch messages.voteCounts v.headStart (v.head messages) := by
  obtain ⟨rank, hLess, hBound⟩ := hv.ranked
  -- The bound leaves enough steps for all ranks above that of the block.
  have hSearch : ∀ {fuel r}, v.importCount < rank r + fuel →
      v.HeadSearch messages.voteCounts r (v.headFrom messages.voteCounts fuel r) := by
    intro fuel
    induction fuel with
    | zero =>
      intro r hFuel
      exact absurd hFuel (Nat.not_lt.mpr (hBound r))
    | succ fuel ih =>
      intro r hFuel
      rw [headFrom]
      cases hBest : v.bestChild messages.voteCounts (v.children r) with
      | error failure => exact .fails hBest
      | ok best =>
        cases best with
        | none => exact .ends hBest
        | some best =>
          have hRank := hLess (hv.mem_children.mp (mem_of_bestChild hBest))
          exact .descends hBest (ih (by omega))
  exact hSearch (by omega)

/-- The head is the block at which the search starts, or a descendant of it. -/
theorem Rooted.descends_head (hv : v.Rooted) {messages : LatestMessages}
    (hHead : v.head messages = .ok r) : v.Descends v.headStart r := by
  have hSearch := hv.headSearch messages
  rw [hHead] at hSearch
  generalize v.headStart = start at hSearch ⊢
  generalize hResult : (Except.ok r : Outcome StoreError Root) = result at hSearch
  induction hSearch with
  | fails => exact absurd hResult (by simp)
  | ends =>
    cases hResult
    exact Descends.refl v _
  | descends hBest _ ih =>
    have hChild := hv.mem_children.mp (mem_of_bestChild hBest)
    exact Descends.trans ⟨1, by rw [back_succ_of_parent hChild, back_zero]⟩ (ih hResult)

/-- The walk that decides whether the votes in a block count: from one parent to the next, until a
block is too early or not known, or until a parent is found that is a child of the block of the
checkpoint. -/
inductive Descent (v : StoreView) (checkpoint : Checkpoint) : Block → Bool → Prop
  | early {block : Block} (h : v.preset.epochAt block.slot < checkpoint.epoch) :
    Descent v checkpoint block false
  | unknown {block : Block} (hEpoch : ¬ v.preset.epochAt block.slot < checkpoint.epoch)
    (hParent : v.block? block.parentRoot = none) : Descent v checkpoint block false
  | found {block parent : Block} (hEpoch : ¬ v.preset.epochAt block.slot < checkpoint.epoch)
    (hParent : v.block? block.parentRoot = some parent)
    (hRoot : parent.parentRoot = checkpoint.root) : Descent v checkpoint block true
  | next {block parent : Block} {result : Bool}
    (hEpoch : ¬ v.preset.epochAt block.slot < checkpoint.epoch)
    (hParent : v.block? block.parentRoot = some parent)
    (hRoot : parent.parentRoot ≠ checkpoint.root) (hRest : Descent v checkpoint parent result) :
    Descent v checkpoint block result

/-- **The walk** from a known block is never cut short: ranks fall on the way, and it ends at the
anchor at the latest, whose own parent is not known. -/
theorem Rooted.descent (hv : v.Rooted) (checkpoint : Checkpoint)
    (hAnchor : ∀ anchor, v.block? v.anchorRoot = some anchor → v.block? anchor.parentRoot = none)
    (hBlock : v.block? r = some block) :
    v.Descent checkpoint block
      (HeadTracker.descendsFrom v checkpoint (v.importCount + 2) block) := by
  obtain ⟨rank, hLess, hBound⟩ := hv.ranked
  have hWalk : ∀ {fuel r block}, v.block? r = some block → rank r < fuel →
      v.Descent checkpoint block (HeadTracker.descendsFrom v checkpoint fuel block) := by
    intro fuel
    induction fuel with
    | zero => exact fun _ hFuel => absurd hFuel (Nat.not_lt_zero _)
    | succ fuel ih =>
      intro r block hBlock hFuel
      rw [HeadTracker.descendsFrom]
      split
      · rename_i hEarly
        exact .early hEarly
      · rename_i hEpoch
        split
        · rename_i hUnknown
          exact .unknown hEpoch hUnknown
        · rename_i parent hParent
          split
          · rename_i hRoot
            exact .found hEpoch hParent hRoot
          · rename_i hRoot
            -- The parent of the anchor is not known, so the block is another one.
            have hNe : r ≠ v.anchorRoot := by
              rintro rfl
              rw [hAnchor block hBlock] at hParent
              exact absurd hParent (by simp)
            have hRank := hLess (parent?_eq hBlock hNe)
            exact .next hEpoch hParent hRoot (ih hParent (by omega))
  have hRank := hBound r
  exact hWalk hBlock (by omega)

end StoreView

end ForkChoice
