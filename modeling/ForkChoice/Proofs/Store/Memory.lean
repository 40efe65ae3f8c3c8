import ForkChoice.Proofs.Store.Checkpoints
import ForkChoice.Proofs.Transition.Memory

/-!
# ForkChoice — states remember the tree

The tree of blocks is known twice: as the links in the store, and as what each state remembers of
its chain. The two agree. The state after a block gives the root of this block as the latest one,
also after any number of slots without a block, and for each slot of its history it gives the last
block up to this slot on the chain of the block, the same one that a walk along the links finds.

A state comes from that after the parent of its block, so this is an invariant of the store: what
the ring of the parent tells is handed on to its children. It needs that no state has the root
zero.

* `StoreView.NoZeroRoot` — no state has the root zero;
* `StoreView.Recorded` — the invariant, `stable_recorded` — no operation destroys it;
* `LastUpTo.ancestor_eq` — what a walk finds, unless it is too long;
* `AgreesWithTree`, `agreesWithTree_of_shows` — what follows for all that can be read after
  genesis.
-/

namespace ForkChoice

theorem BeaconState.Remembers.mono [HashFunction] {p : Preset} {last last' : Slot → Root → Prop}
    {root : Root} {s : BeaconState} (h : s.Remembers p last root)
    (hMore : ∀ t a, last t a → last' t a) : s.Remembers p last' root where
  blockRoots_size := h.blockRoots_size
  stateRoots_size := h.stateRoots_size
  latest := h.latest
  now t ht := hMore t root (h.now t ht)
  before t ht hWindow := by
    obtain ⟨a, hLast, hEntry⟩ := h.before t ht hWindow
    exact ⟨a, hMore t a hLast, hEntry⟩

namespace StoreView

/-! ## The time of blocks -/

/-- Blocks of later slots than the present one are not admitted, so there is a time at which the
slot of a block begins. -/
theorem currentSlot_inTime (v : StoreView) :
    v.currentSlot.toNat * v.config.secondsPerSlot.toNat < UInt64.size := by
  rw [currentSlot, UInt64.toNat_div]
  exact Nat.lt_of_le_of_lt (Nat.div_mul_le_self _ _) (UInt64.toNat_lt _)

/-- If slots are longer than one second, then only the first half of all slots begins in time, so
there is room for the bound of a query. -/
theorem exists_queryBound {p : Preset} {seconds : UInt64} {last slot : Slot}
    (hTime : last.toNat * seconds.toNat < UInt64.size) (hSeconds : 1 < seconds)
    (hBefore : slot < last) : ∃ bound, Word.add slot p.slotsPerHistoricalRoot = .ok bound := by
  have hTwice : last.toNat * 2 ≤ last.toNat * seconds.toNat := Nat.mul_le_mul_left _ hSeconds
  have hLength : p.slotsPerHistoricalRoot.toNat ≤ 2 ^ 40 := p.slotsPerHistoricalRoot_le
  have hLess : slot.toNat < last.toNat := hBefore
  have hSum : slot.toNat + p.slotsPerHistoricalRoot.toNat < 2 ^ 64 := by
    have hHalf : UInt64.size = 2 ^ 63 * 2 := rfl
    omega
  refine ⟨slot + p.slotsPerHistoricalRoot, Word.add_eq_ok.mpr ?_⟩
  rw [UInt64.toNat_add, Nat.mod_eq_of_lt hSum]

/-! ## Walks -/

/-- A walk finds the last block up to a slot, or it is too long. -/
theorem LastUpTo.ancestor_eq {v : StoreView} {slot : Slot} {tip a : Root}
    (h : v.LastUpTo slot tip a) :
    v.ancestor tip slot = .ok (some a) ∨
      v.ancestor tip slot =
        .error (.error (.ancestorDepthExceeded tip v.limits.maxAncestorDepth)) := by
  have hWalk : ∀ fuel, v.ancestorFrom slot fuel tip = some (some a) ∨
      v.ancestorFrom slot fuel tip = none := by
    intro fuel
    -- The walk takes the links of the chain, until it ends or its bound is met.
    induction h generalizing fuel with
    | here hBlock hSlot =>
      cases fuel with
      | zero => exact Or.inr rfl
      | succ fuel =>
        left
        rw [ancestorFrom, hBlock]
        exact if_pos hSlot
    | next hBlock hSlot _ ih =>
      cases fuel with
      | zero => exact Or.inr rfl
      | succ fuel =>
        rw [ancestorFrom, hBlock]
        dsimp only
        rw [if_neg (UInt64.not_le.mpr hSlot)]
        exact ih fuel
  unfold ancestor
  rcases hWalk (v.limits.maxAncestorDepth.toNat + 1) with hFound | hTooLong
  · left
    rw [hFound]
  · right
    rw [hTooLong]
    rfl

/-! ## The invariant -/

variable [HashFunction] {s : Store} {v v' : StoreView} {d : Draft} {root : Root} {block : Block}
  {state parentState : BeaconState}

/-- No state after a block has the root zero, which stands for a root that is missing. -/
def NoZeroRoot (v : StoreView) : Prop :=
  ∀ root state, v.state? root = some state → state.treeRoot v.preset ≠ .ok 0

theorem NoZeroRoot.of_sameTree (h : v'.NoZeroRoot) (hSame : SameTree v v') : v.NoZeroRoot := by
  intro root state hState
  have hRoot := h root state (by rw [hSame.state?]; exact hState)
  rwa [hSame.preset] at hRoot

/-- A new block takes no state away. -/
theorem NoZeroRoot.of_withBlock (h : (v.withBlock root block state).NoZeroRoot)
    (hNew : v.state? root = none) : v.NoZeroRoot := by
  intro r st hState
  have hOther : r ≠ root := by
    rintro rfl
    rw [hNew] at hState
    exact absurd hState (by simp)
  exact h r st (by rw [withBlock_state?_of_ne hOther]; exact hState)

/-- The view has grown from the store `s` at genesis, and its states remember their chains. -/
structure Recorded (s : Store) (v : StoreView) : Prop extends GrownFrom s v where
  inTime : ∀ {root : Root} {block : Block}, v.block? root = some block →
    block.slot.toNat * v.config.secondsPerSlot.toNat < UInt64.size
  stateSlot : ∀ {root : Root} {block : Block} {state : BeaconState}, v.block? root = some block →
    v.state? root = some state → state.slot = block.slot
  remembers : v.NoZeroRoot → ∀ {root : Root} {state : BeaconState}, v.state? root = some state →
    state.Remembers v.preset (fun slot a => v.LastUpTo slot root a) root

namespace Recorded

theorem of_sameTree (h : Recorded s v) (hSame : SameTree v v') (hGrown : GrownFrom s v') :
    Recorded s v' where
  toGrownFrom := hGrown
  inTime hBlock := by
    rw [hSame.block?] at hBlock
    have hConfig : v'.config = v.config := by rw [hSame]
    rw [hConfig]
    exact h.inTime hBlock
  stateSlot hBlock hState := by
    rw [hSame.block?] at hBlock
    rw [hSame.state?] at hState
    exact h.stateSlot hBlock hState
  remembers hNonzero {root state} hState := by
    rw [hSame.state?] at hState
    have hBefore := hNonzero.of_sameTree hSame
    rw [hSame.preset]
    exact (h.remembers hBefore hState).mono fun _ _ hLast => hLast.of_sameTree hSame

/-- **A new block** has the memory of its parent, and the slots since its parent. -/
theorem withBlock (h : Recorded s v) (hGrown : GrownFrom s (v.withBlock root block state))
    (hAdmitted : v.admitBlock block = .ok (.fresh root parentState))
    (hApplied : (slotTransition v.preset).applyBlock parentState block = .ok state) :
    Recorded s (v.withBlock root block state) := by
  obtain ⟨hRoot, hFresh, hParentState, hNow, -⟩ := admitBlock_eq_fresh.mp hAdmitted
  have hAfter := BeaconState.slotTransition_applyBlock hApplied
  have hMore : Extends v (v.withBlock root block state) := extends_withBlock hFresh
  have hNoState := h.grown.state?_eq_none hFresh
  exact {
    toGrownFrom := hGrown
    inTime := by
      intro r b hBlock
      rcases withBlock_cases hBlock with ⟨-, rfl⟩ | ⟨-, hOld⟩
      · -- The slot of the new block has begun.
        refine Nat.lt_of_le_of_lt ?_ v.currentSlot_inTime
        exact Nat.mul_le_mul_right _ (UInt64.le_iff_toNat_le.mp hNow)
      · exact h.inTime hOld
    stateSlot := by
      intro r b st hBlock hState
      rcases withBlock_cases hBlock with ⟨rfl, rfl⟩ | ⟨hOther, hOld⟩
      · rw [withBlock_state?_self, Option.some.injEq] at hState
        rw [← hState]
        exact hAfter.slot
      · rw [withBlock_state?_of_ne hOther] at hState
        exact h.stateSlot hOld hState
    remembers := by
      intro hNonzero r st hState
      have hBefore := hNonzero.of_withBlock hNoState
      by_cases hNew : r = root
      · subst hNew
        rw [withBlock_state?_self, Option.some.injEq] at hState
        subst hState
        have hStateRoot : block.stateRoot ≠ 0 := by
          intro hZero
          have hNot := hNonzero r state withBlock_state?_self
          exact hNot (hZero ▸ hAfter.stateRoot)
        -- Up to slots before its own, the block has the chain of its parent.
        refine (h.remembers hBefore hParentState).applyBlock hApplied hRoot hStateRoot ?_ ?_
        · intro t ht
          exact .here withBlock_block?_self ht
        · intro t a ht hLast
          exact .next withBlock_block?_self ht (hLast.mono hMore)
      · rw [withBlock_state?_of_ne hNew] at hState
        exact (h.remembers hBefore hState).mono fun _ _ hLast => hLast.mono hMore }

theorem importBlock (h : Recorded s d.view) (b : Block) :
    Recorded s (d.importBlock (slotTransition s.preset) b).2.view := by
  have hGrown := h.toGrownFrom.importBlock b
  rcases h.importBlock_cases b with
    ⟨hSame, -⟩ | ⟨root, parentState, state, hAdmitted, hApplied, hView, -⟩
  · rw [hSame]
    exact h
  · rw [hView] at hGrown ⊢
    exact h.withBlock hGrown hAdmitted hApplied

end Recorded

/-- **The invariant.** No operation destroys it, whatever its arguments, and no commit does. -/
theorem stable_recorded [SignatureScheme] (s : Store) :
    Draft.Stable (slotTransition s.preset) (Recorded s) where
  change d c h := by
    have hGrown := (stable_grownFrom s).change d c h.toGrownFrom
    cases c with
    | tick time => exact h.of_sameTree (d.tick_sameTree time) hGrown
    | block b => exact h.importBlock b
    | attestation check a => exact h.of_sameTree (d.attest_sameChain _ check a).sameTree hGrown
    | discardVotes => exact h.of_sameTree d.discardVotes_sameChain.sameTree hGrown
  commit d h :=
    h.of_sameTree d.commit_sameChain.sameTree ((stable_grownFrom s).commit d h.toGrownFrom)

/-! ## From genesis on -/

/-- The state of a new network has an empty history, and the header of the anchor. -/
theorem exists_origin (hs : s.IsGenesis) :
    ∃ time root block state,
      s = Store.singleton s.preset s.config s.limits time root block state ∧
        block.slot = 0 ∧ state.slot = 0 ∧
          (state.treeRoot s.preset ≠ .ok 0 → ∀ last : Slot → Root → Prop, (∀ t, last t root) →
            state.Remembers s.preset last root) := by
  obtain ⟨config, genesisTime, validators, state, block, hState, hBlock, hAnchor⟩ := hs
  obtain ⟨root, hRoot, -, -, -, time, -, hStore⟩ := Store.ofAnchor_eq_ok.mp hAnchor
  simp only [Devnet.genesisBlock, bind_eq_ok, pure_eq_ok] at hBlock
  obtain ⟨stateRoot, hStateRoot, rfl⟩ := hBlock
  simp only [Devnet.genesisState, bind_eq_ok, pure_eq_ok] at hState
  obtain ⟨validatorsRoot, -, bodyRoot, hBody, hState⟩ := hState
  have hHeader : Block.header ⟨state.slot, 0, 0, stateRoot, Devnet.emptyBody⟩ =
      .ok ⟨state.slot, 0, 0, stateRoot, bodyRoot⟩ := by
    simp only [Block.header, hBody, ok_bind]
    rfl
  have hLatest : state.latestBlockHeader = ⟨state.slot, 0, 0, 0, bodyRoot⟩ := by rw [← hState]
  have hSlot : state.slot = 0 := by rw [← hState]
  obtain ⟨hFilled, hFilledRoot⟩ := BeaconState.filledHeader_of_block hRoot hHeader hLatest
  refine ⟨time, root, _, state, hStore.symm, hSlot, hSlot, fun hNonzero last hLast => ?_⟩
  exact {
    blockRoots_size := by
      rw [← hState]
      exact Array.size_replicate
    stateRoots_size := by
      rw [← hState]
      exact Array.size_replicate
    latest := by
      refine ⟨stateRoot, hStateRoot, hFilled, ?_⟩
      rw [hFilledRoot]
      intro hZero
      exact hNonzero (hZero ▸ hStateRoot)
    now := fun t _ => hLast t
    before := by
      intro t ht
      rw [hSlot] at ht
      exact absurd ht UInt64.not_lt_zero }

theorem recorded_of_genesis (hs : s.IsGenesis) : Recorded s s.view := by
  have hGrown := grownFrom_self hs
  obtain ⟨time, root, block, state, hStore, hSlot, hStateSlot, hRemembers⟩ := exists_origin hs
  have hView : s.view =
      (Store.singleton s.preset s.config s.limits time root block state).view :=
    congrArg Store.view hStore
  -- The anchor and its state are all that is known.
  have hOnly : ∀ {r : Root} {b : Block}, s.view.block? r = some b → r = root ∧ b = block := by
    intro r b hBlock
    rw [hView, singleton_block?, Option.ite_none_right_eq_some] at hBlock
    exact ⟨hBlock.1.symm, (Option.some.inj hBlock.2).symm⟩
  have hOnlyState : ∀ {r : Root} {st : BeaconState}, s.view.state? r = some st →
      r = root ∧ st = state := by
    intro r st hState
    rw [hView, singleton_state?, Option.ite_none_right_eq_some] at hState
    exact ⟨hState.1.symm, (Option.some.inj hState.2).symm⟩
  have hAnchor : s.view.block? root = some block := by
    rw [hView]
    exact singleton_block?.trans (if_pos rfl)
  exact {
    toGrownFrom := hGrown
    inTime := by
      intro r b hBlock
      obtain ⟨-, rfl⟩ := hOnly hBlock
      rw [hSlot]
      simp
    stateSlot := by
      intro r b st hBlock hState
      obtain ⟨-, rfl⟩ := hOnly hBlock
      obtain ⟨-, rfl⟩ := hOnlyState hState
      rw [hSlot, hStateSlot]
    remembers := by
      intro hNonzero r st hState
      obtain ⟨rfl, rfl⟩ := hOnlyState hState
      refine hRemembers (hNonzero _ _ hState) _ fun t => .here hAnchor ?_
      rw [hSlot]
      exact UInt64.zero_le }

/-! ## States and the tree agree -/

/-- What the state after the block with the given root tells of its chain is what the tree tells.
A query is for a slot before that of the state, so near that the bound that the query computes is
not before that of the state. -/
structure AgreesWithTree (v : StoreView) (root : Root) (state : BeaconState) : Prop where
  latest : Devnet.latestBlockRoot v.preset state = .ok root
  /-- Slots without a block can pass, and do not change it. -/
  advanced : ∀ slot, state.slot < slot → ∃ later,
    (slotTransition v.preset).processSlots state slot = .ok later ∧
      Devnet.latestBlockRoot v.preset later = .ok root
  history : ∀ slot bound, slot < state.slot →
    Word.add slot v.preset.slotsPerHistoricalRoot = .ok bound → state.slot ≤ bound →
      ∃ a, state.blockRootAt v.preset slot = .ok a ∧ v.LastUpTo slot root a ∧
        (v.ancestor root slot = .ok (some a) ∨ v.ancestor root slot =
          Outcome.fail (.ancestorDepthExceeded root v.limits.maxAncestorDepth))
  /-- There is always such a bound, unless slots are as short as they can be. -/
  bounded : 1 < v.config.secondsPerSlot → ∀ slot, slot < state.slot →
    ∃ bound, Word.add slot v.preset.slotsPerHistoricalRoot = .ok bound

/-- **States agree with the tree.** In every store that comes from genesis and in every draft of
it, each block has a state of its slot, which tells of the chain of the block what the tree
tells. -/
theorem agreesWithTree_of_shows [SignatureScheme] (hs : s.IsGenesis)
    (hv : s.Shows (slotTransition s.preset) v) (hNonzero : v.NoZeroRoot)
    (hBlock : v.block? root = some block) :
    ∃ state, v.state? root = some state ∧ state.slot = block.slot ∧
      v.AgreesWithTree root state := by
  have h := (stable_recorded s).shows (recorded_of_genesis hs) hv
  obtain ⟨state, hState, -⟩ := h.grown.entry hBlock
  have hSlot := h.stateSlot hBlock hState
  have hRing := h.remembers hNonzero hState
  refine ⟨state, hState, hSlot, ?_⟩
  exact {
    latest := hRing.latestBlockRoot
    advanced := by
      intro slot hLater
      obtain ⟨later, hSlots, -, hMoved⟩ := hRing.processSlots hLater
      exact ⟨later, hSlots, hMoved.latestBlockRoot⟩
    history := by
      intro slot bound hBefore hBound hNear
      have hWindow : state.slot.toNat ≤ slot.toNat + v.preset.slotsPerHistoricalRoot.toNat := by
        rw [Word.add_eq_ok.mp hBound]
        exact hNear
      obtain ⟨a, hLast, hEntry⟩ := hRing.blockRootAt hBefore hWindow
      exact ⟨a, hEntry bound hBound, hLast, hLast.ancestor_eq⟩
    bounded := by
      intro hSeconds slot hBefore
      have hTime := h.inTime hBlock
      rw [← hSlot] at hTime
      exact exists_queryBound hTime hSeconds hBefore }

/-- The roots of all states of a store can be looked at. -/
theorem noZeroRoot_of_all (h : ∀ entry ∈ s.states.toList, entry.2.treeRoot s.preset ≠ .ok 0) :
    s.view.NoZeroRoot := by
  intro root state hState
  exact h (root, state) (Std.TreeMap.mem_toList_iff_getElem?_eq_some.mpr hState)

omit [HashFunction] in
/-- The states after two blocks in a row, when their slots are over. -/
theorem agreesWithTree_of_chained :
    letI : HashFunction := Engine.linearHash
    letI : SignatureScheme := Bls.scheme
    ∃ (n : Engine.ChainedNetwork) (v : StoreView) (root : Root),
      Engine.chainedNetwork = some n ∧ n.store.IsGenesis ∧
        n.store.Shows (slotTransition n.store.preset) v ∧ v.NoZeroRoot ∧
          v.block? root = some n.second ∧ n.second.slot = 2 ∧
            ∃ state, v.state? root = some state ∧ state.slot = n.second.slot ∧
              v.AgreesWithTree root state := by
  let : HashFunction := Engine.linearHash
  let : SignatureScheme := Bls.scheme
  let history (n : Engine.ChainedNetwork) : List Transaction :=
    [⟨[.tick 18, .block n.first, .block n.second], true⟩]
  have hRuns : (Engine.chainedNetwork.any fun n =>
      let after := n.store.after (slotTransition n.store.preset) (history n)
      (after.states.toList.all fun entry =>
          decide (entry.2.treeRoot after.preset ≠ .ok 0)) &&
        n.second.slot = 2 && n.second.treeRoot.toOption.any fun root =>
          decide (after.view.block? root = some n.second)) = true := by
    decide +kernel
  obtain ⟨n, hNetwork, hs, hRun⟩ := Engine.exists_chainedNetwork hRuns
  simp only [Bool.and_eq_true, List.all_eq_true, Option.any_eq_true, decide_eq_true_eq] at hRun
  obtain ⟨⟨hNonzero, hSlot⟩, root, -, hBlock⟩ := hRun
  have hShows : n.store.Shows (slotTransition n.store.preset) _ := ⟨history n, Or.inl rfl⟩
  have hRoots := noZeroRoot_of_all hNonzero
  exact ⟨n, _, root, hNetwork, hs, hShows, hRoots, hBlock, hSlot,
    agreesWithTree_of_shows hs hShows hRoots hBlock⟩

end StoreView

end ForkChoice
