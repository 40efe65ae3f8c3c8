import ForkChoice.Proofs.Engine.Conservation
import ForkChoice.Proofs.Engine.Head
import ForkChoice.Proofs.Store.Lineage

/-!
# ForkChoice — the order of arrival does not matter

Blocks arrive in any order: before their parents, before their slots, more than once. In the end
the store knows those that can be imported one on top of the other at the time that the clock
shows then, and no others. This describes the result without a word on the order, so two runs that
have been given the same blocks end with the same store; and if no votes have arrived, with the
same head.

The argument has two halves. What is known is the end of a lineage: this holds after each move.
What could be imported is known in the end: it has been delivered, so it has been imported already
or found to be known, or else it waits for what has happened, or it has been refused although a
store that knows its chain takes it.

* `closingTime`, `Store.atTime` — the time at the end, and the store that knows the anchor then;
* `Desk.Traced`, `traced_move` — the first half, `Engine.known_of_lineage` — the second one;
* `Desk.Settled`, `settled_of_run` — all that is known of the desk, in all runs;
* `sameOutcome_of_runs` — what two runs have in common.
-/

namespace ForkChoice

open StoreView

/-! ## Time -/

/-- The time of a tick. -/
def Delivery.time? : Delivery → Option UInt64
  | .tick time => some time
  | _ => none

/-- The greatest time of a tick, or the time of the store where there is no later one. -/
def closingTime (s : Store) (deliveries : List Delivery) : UInt64 :=
  (deliveries.filterMap Delivery.time?).foldl max s.time

/-- The store after a tick. -/
def Store.atTime (s : Store) (time : UInt64) : Store :=
  ((Draft.ofStore s).tick time).commit

theorem max_of_le {a b : UInt64} (h : a ≤ b) : max a b = b :=
  if_pos h

theorem max_of_ge {a b : UInt64} (h : b ≤ a) : max a b = a := by
  by_cases hle : a ≤ b
  · rw [max_of_le hle, UInt64.le_antisymm h hle]
  · exact if_neg hle

theorem closingTime_concat (s : Store) (deliveries : List Delivery) (x : Delivery) :
    closingTime s (deliveries ++ [x]) =
      x.time?.toList.foldl max (closingTime s deliveries) := by
  rw [closingTime, List.filterMap_append, List.foldl_append, List.filterMap_cons]
  cases x.time? <;> rfl

theorem closingTime_le_concat (s : Store) (deliveries : List Delivery) (x : Delivery) :
    closingTime s deliveries ≤ closingTime s (deliveries ++ [x]) := by
  rw [closingTime_concat]
  cases x.time? with
  | none => exact UInt64.le_refl _
  | some time =>
    show closingTime s deliveries ≤ max (closingTime s deliveries) time
    by_cases h : closingTime s deliveries ≤ time
    · rw [max_of_le h]
      exact h
    · rw [max_of_ge (UInt64.le_of_lt (UInt64.not_le.mp h))]
      exact UInt64.le_refl _

theorem le_closingTime (s : Store) (deliveries : List Delivery) :
    s.time ≤ closingTime s deliveries := by
  induction deliveries using List.reverseRecOn with
  | nil => exact UInt64.le_refl _
  | append_singleton deliveries x ih =>
    exact UInt64.le_trans ih (closingTime_le_concat s deliveries x)

/-- Time does not go back. -/
theorem Draft.tick_time (d : Draft) (time : UInt64) :
    (d.tick time).view.time = max d.view.time time := by
  rcases d.tick_cases time with ⟨hPast, h⟩ | ⟨hLater, h⟩ | ⟨hLater, -, h⟩
  · rw [h, max_of_ge hPast]
  · rw [h, max_of_le (UInt64.le_of_lt hLater)]
    rfl
  · rw [h, max_of_le (UInt64.le_of_lt hLater)]
    rfl

/-- A tick after genesis leaves the tree as it is. -/
theorem Store.atTime_sameTree (s : Store) (time : UInt64) :
    SameTree s.view (s.atTime time).view := by
  have hTick := (Draft.ofStore s).tick_sameTree time
  rw [Draft.ofStore_view] at hTick
  exact hTick.trans ((Draft.ofStore s).tick time).commit_sameChain.sameTree

theorem Store.atTime_time (s : Store) (time : UInt64) :
    (s.atTime time).view.time = max s.time time := by
  show ((Draft.ofStore s).tick time).commit.view.time = _
  rw [Draft.commit_view]
  exact (Draft.ofStore s).tick_time time

/-- The clock on the desk shows the greatest time that has been delivered. -/
structure Desk.Timed (s : Store) (deliveries : List Delivery) (k : Desk) : Prop where
  time : k.view.time = closingTime s deliveries
  genesisTime : k.view.genesisTime = s.genesisTime
  config : k.view.config = s.config

section

variable [HashFunction] [SignatureScheme] {t : StateTransition} {k k' : Desk}

/-- Only a tick moves the clock. -/
theorem Move.sameClock (h : Move t k k') : SameClock k.view k'.view := by
  cases h with
  | @forget d hd =>
    have hSame : SameChain k.view d.discardVotes.view := hd ▸ d.discardVotes_sameChain
    exact .of_sameChain hSame
  | imported _ hd hImport =>
    obtain ⟨_, _, -, -, hView⟩ := Draft.importBlock_imported hImport
    exact .of_imported (hd ▸ hView)
  | applied _ hd hAttest
  | rejected _ hd hAttest
  | untilTick _ hd hAttest
  | untilBlock _ hd hAttest => exact .of_sameChain (attest_view hd hAttest)
  | collect
  | takeUntilTick
  | arrange
  | known
  | refused
  | dropped
  | untilParent
  | untilSlot => exact .refl _

variable {s : Store} {deliveries : List Delivery}

theorem timed_move (h : Move t k k') (hk : k.Timed s deliveries) : k'.Timed s deliveries :=
  have hClock := h.sameClock
  ⟨hClock.time.trans hk.time, hClock.genesisTime.trans hk.genesisTime,
    hClock.config.trans hk.config⟩

omit [HashFunction] [SignatureScheme] in
theorem timed_arrival {x : Delivery} (h : Arrival k x k') (hk : k.Timed s deliveries) :
    k'.Timed s (deliveries ++ [x]) := by
  cases h with
  | @tick time d hd =>
    have hSame : SameTree k.view (d.tick time).view := hd ▸ d.tick_sameTree time
    refine ⟨?_, ?_, ?_⟩
    · rw [closingTime_concat, ← hk.time, ← hd]
      exact d.tick_time time
    · rw [← hk.genesisTime, hSame]
    · rw [← hk.config, hSame]
  | block
  | burst
  | justified =>
    refine ⟨?_, hk.genesisTime, hk.config⟩
    rw [closingTime_concat]
    exact hk.time

end

/-! ## What is known is the end of a lineage -/

/-- What has been written down of a block is true: one that is said to be known is known, and one
that has been refused can be imported on top of no chain. -/
def Fate.IsTrue [HashFunction] (t : StateTransition) (blocks : List Block) (start : Store)
    (v : StoreView) : Fate → Prop
  | .blockImported b | .blockKnown b => ∃ root block, b.treeRoot = .ok root ∧
    v.block? root = some block
  | .blockRefused b _ => ∀ s root d, Lineage t blocks start s b.parentRoot →
    (Draft.ofStore s).importBlock t b ≠ (.ok (.imported root), d)
  | _ => True

section

variable [HashFunction]

/-- All that is known is the end of a lineage that knows nothing else, and the journal is true. -/
structure Desk.Traced (s : Store) (blocks : List Block) (start : Store) (k : Desk) : Prop where
  grown : GrownFrom s k.view
  lineage : ∀ {r : Root} {block : Block} {state : BeaconState},
    k.view.block? r = some block → k.view.state? r = some state →
      ∃ s', Lineage (slotTransition s.preset) blocks start s' r ∧ s'.view.block? r = some block ∧
        s'.view.state? r = some state ∧ Within s'.view k.view
  journal : ∀ fate ∈ k.journal, fate.IsTrue (slotTransition s.preset) blocks start k.view

variable {s start : Store} {blocks : List Block} {k k' : Desk}

/-- What is true stays so when more is known. -/
theorem Fate.IsTrue.mono {t : StateTransition} {v v' : StoreView} {fate : Fate}
    (hMore : Extends v v') (h : fate.IsTrue t blocks start v) : fate.IsTrue t blocks start v' := by
  cases fate with
  | blockImported b
  | blockKnown b =>
    obtain ⟨root, block, hRoot, hKnown⟩ := h
    exact ⟨root, block, hRoot, hMore _ _ hKnown⟩
  | blockRefused b reason => exact h
  | attestationApplied
  | attestationRefused => trivial

/-- What does not touch the tree leaves the lineages as they are. -/
theorem Desk.Traced.of_sameTree (hk : k.Traced s blocks start) (hSame : SameTree k.view k'.view)
    (hGrown : GrownFrom s k'.view)
    (hJournal : ∀ fate ∈ k'.journal, fate ∈ k.journal ∨
      fate.IsTrue (slotTransition s.preset) blocks start k.view) : k'.Traced s blocks start where
  grown := hGrown
  lineage hBlock hState := by
    rw [hSame.block?] at hBlock
    rw [hSame.state?] at hState
    obtain ⟨s', hLineage, hBlock', hState', hWithin⟩ := hk.lineage hBlock hState
    exact ⟨s', hLineage, hBlock', hState', hWithin.trans (.of_sameTree hSame)⟩
  journal fate hFate := by
    refine Fate.IsTrue.mono hSame.view_extends ?_
    rcases hJournal fate hFate with hOld | hNew
    · exact hk.journal fate hOld
    · exact hNew

variable [SignatureScheme]

theorem traced_arrival {x : Delivery} (h : Arrival k x k') (hk : k.Traced s blocks start) :
    k'.Traced s blocks start := by
  have hGrown := h.stable (stable_grownFrom s) hk.grown
  cases h with
  | @tick time d hd =>
    have hSame : SameTree k.view (d.tick time).view := hd ▸ d.tick_sameTree time
    exact hk.of_sameTree hSame hGrown fun _ => Or.inl
  | block
  | burst => exact hk.of_sameTree (.refl _) hGrown fun _ => Or.inl
  | justified => exact hk

/-- A new block with a known parent is the end of a lineage, once its slot has come. -/
theorem Desk.Traced.lineage_child (hStart : GrownFrom s start.view) (hk : k.Traced s blocks start)
    {b : Block} {root : Root} {state : BeaconState} (hMem : b ∈ blocks)
    (hFits : k.view.Fits root b state) (hFresh : k.view.block? root = none)
    (hSlot : b.slot ≤ start.view.currentSlot) :
    ∃ s', Lineage (slotTransition s.preset) blocks start s' root ∧
      s'.view.block? root = some b ∧ s'.view.state? root = some state ∧
        Within s'.view (k.view.withBlock root b state) := by
  obtain ⟨parentState, last, hParentState, -⟩ := hFits.applied
  obtain ⟨parent, hParent⟩ := hk.grown.grown.known hParentState
  obtain ⟨s', hLineage, hParent', -, hWithin⟩ := hk.lineage hParent hParentState
  -- The store that knows the chain of the parent knows enough to decide about the block.
  have hGrown := hLineage.grownFrom hStart
  have hFits' := (hGrown.fits_iff hk.grown hWithin ⟨parent, hParent'⟩).mpr hFits
  -- What knows less does not know the block either.
  have hFresh' : s'.view.block? root = none := by
    cases hKnown : s'.view.block? root with
    | none => rfl
    | some block => exact absurd (hWithin.blocks _ _ hKnown) (by simp [hFresh])
  have hSlot' : b.slot ≤ s'.view.currentSlot := by
    rwa [(hLineage.sameClock hStart).currentSlot]
  have hView := Draft.ofStore_view s'
  have hImport := GrownFrom.imported_of_fits (d := Draft.ofStore s') (hView ▸ hGrown)
    (hView ▸ hFits') (hView ▸ hFresh') (hView ▸ hSlot')
  have hSame := ((Draft.ofStore s').countApplyBlock.insertBlock root b state).commit_sameChain
  rw [Draft.insertBlock_view, Draft.countApplyBlock_view, hView] at hSame
  refine ⟨_, .child hLineage hMem hSlot' hImport, ?_, ?_, ?_⟩
  · rw [hSame.sameTree.block?, withBlock_block?_self]
  · rw [hSame.sameTree.state?, withBlock_state?_self]
  · refine Within.trans ⟨?_, ?_⟩ hWithin.withBlock_withBlock
    · intro r block hBlock
      rwa [hSame.sameTree.block?] at hBlock
    · intro r state' hState
      rwa [hSame.sameTree.state?] at hState

/-- A block that is refused for good can be imported on top of no chain. -/
theorem Desk.Traced.refused (hStart : GrownFrom s start.view) (hDistinct : DistinctRoots blocks)
    (hk : k.Traced s blocks start) {b : Block} {d : Draft} {reason : StoreError}
    (hd : d.view = k.view)
    (hImport : (d.importBlock (slotTransition s.preset) b).1 = .error (.error reason))
    (hFinal : reason.isDelayable = false) :
    (Fate.blockRefused b reason).IsTrue (slotTransition s.preset) blocks start k.view := by
  intro s' root d' hLineage hTaken
  have hGrown := hLineage.grownFrom hStart
  obtain ⟨state, hFits', -⟩ := Lineage.child_view hGrown hTaken
  -- Otherwise it would have been delayed.
  have hDelayed : ∀ reason' : StoreError,
      (d.importBlock (slotTransition s.preset) b).1 = .error (.error reason') →
        reason'.isDelayable = true → False := by
    intro reason' hImport' hDelayable
    cases hImport.symm.trans hImport'
    rw [hFinal] at hDelayable
    exact absurd hDelayable (by simp)
  have hFresh : d.view.block? root = none := by
    cases hKnown : d.view.block? root with
    | none => rfl
    | some block =>
      rw [Draft.importBlock_of_known hFits'.root_eq hKnown] at hImport
      exact absurd hImport (by simp)
  have hTimely : ¬ (d.view.state? b.parentRoot = none ∨ d.view.currentSlot < b.slot) := by
    intro hEarly
    obtain ⟨reason', hImport', hDelayable⟩ :=
      Draft.importBlock_of_early (t := slotTransition s.preset) hFits'.root_eq hFresh hEarly
    exact hDelayed reason' hImport' hDelayable
  rw [not_or, UInt64.not_lt] at hTimely
  obtain ⟨hParent, hSlot⟩ := hTimely
  rw [hd] at hParent
  obtain ⟨parentState, hParentState⟩ := Option.ne_none_iff_exists'.mp hParent
  obtain ⟨parent, hParent⟩ := hk.grown.grown.known hParentState
  obtain ⟨s'', hLineage', hParent', -, hWithin⟩ := hk.lineage hParent hParentState
  cases hLineage.unique hStart hDistinct hLineage'
  have hFits := (hGrown.fits_iff hk.grown hWithin ⟨parent, hParent'⟩).mp hFits'
  rw [GrownFrom.imported_of_fits (hd ▸ hk.grown) (hd ▸ hFits) hFresh hSlot] at hImport
  exact absurd hImport (by simp)

/-- **One move.** What becomes known is the end of a lineage, and what is written down is true. -/
theorem traced_move (hStart : GrownFrom s start.view) (hDistinct : DistinctRoots blocks)
    (h : Move (slotTransition s.preset) k k') (hOverdue : k.NothingOverdue)
    (hHands : ∀ b ∈ k.blocks, b.block ∈ blocks)
    (hSlot : k.view.currentSlot ≤ start.view.currentSlot) (hk : k.Traced s blocks start) :
    k'.Traced s blocks start := by
  have hGrown := h.stable (stable_grownFrom s) hk.grown
  cases h with
  | @forget d hd =>
    have hSame : SameChain k.view d.discardVotes.view := hd ▸ d.discardVotes_sameChain
    exact hk.of_sameTree hSame.sameTree hGrown fun _ => Or.inl
  | collect
  | takeUntilTick
  | arrange
  | untilParent
  | untilSlot => exact hk.of_sameTree (.refl _) hGrown fun _ => Or.inl
  | @imported b rest d d' root hHand hd hImport =>
    obtain ⟨state, hFits, hFresh, hTimely, hView⟩ :=
      GrownFrom.fits_of_imported (hd ▸ hk.grown) hImport
    rw [hd] at hFits hFresh hTimely hView
    have hMem := hHands b (hHand ▸ List.mem_cons_self)
    have hWithin : Within k.view (k.view.withBlock root b.block state) :=
      .withBlock hk.grown.grown hFresh
    exact {
      grown := hGrown
      lineage := by
        intro r block state' hBlock hState
        show ∃ s' : Store, _ ∧ _ ∧ _ ∧ Within s'.view d'.view
        change d'.view.block? r = some block at hBlock
        change d'.view.state? r = some state' at hState
        rw [hView] at hBlock hState ⊢
        rcases withBlock_cases hBlock with ⟨rfl, rfl⟩ | ⟨hNe, hOld⟩
        · -- The new block comes on top of the lineage of its parent.
          rw [withBlock_state?_self] at hState
          cases hState
          exact hk.lineage_child hStart hMem hFits hFresh (UInt64.le_trans hTimely hSlot)
        · rw [withBlock_state?_of_ne hNe] at hState
          obtain ⟨s', hLineage, hBlock', hState', hOlder⟩ := hk.lineage hOld hState
          exact ⟨s', hLineage, hBlock', hState', hOlder.trans hWithin⟩
      journal := by
        intro fate hFate
        show fate.IsTrue _ _ _ d'.view
        rw [hView]
        rcases List.mem_cons.mp hFate with rfl | hOld
        · exact ⟨root, b.block, hFits.root_eq, withBlock_block?_self⟩
        · exact (hk.journal fate hOld).mono hWithin.blocks }
  | @known b rest root block hHand hRoot hKnown =>
    refine hk.of_sameTree (.refl _) hGrown fun fate hFate => ?_
    rcases List.mem_cons.mp hFate with rfl | hOld
    · exact Or.inr ⟨root, block, hRoot, hKnown⟩
    · exact Or.inl hOld
  | refused hHand hd hImport hFinal =>
    refine hk.of_sameTree (.refl _) hGrown fun fate hFate => ?_
    rcases List.mem_cons.mp hFate with rfl | hOld
    · exact Or.inr (hk.refused hStart hDistinct hd hImport hFinal)
    · exact Or.inl hOld
  | @dropped b rest reason hHand hRetried hParent =>
    -- A block that has waited before has a known parent.
    obtain ⟨parent, hKnown⟩ := hOverdue.retried b (hHand ▸ List.mem_cons_self) hRetried
    rw [hOverdue.tree.state?_eq_none, hKnown] at hParent
    exact absurd hParent (by simp)
  | applied _ hd hAttest
  | rejected _ hd hAttest =>
    refine hk.of_sameTree (attest_view hd hAttest).sameTree hGrown fun fate hFate => ?_
    rcases List.mem_cons.mp hFate with rfl | hOld
    · exact Or.inr trivial
    · exact Or.inl hOld
  | untilTick _ hd hAttest
  | untilBlock _ hd hAttest =>
    exact hk.of_sameTree (attest_view hd hAttest).sameTree hGrown fun _ => Or.inl

/-! ## What could be imported is known in the end -/

theorem grownFrom_atTime (hs : s.IsGenesis) (time : UInt64) :
    GrownFrom s (s.atTime time).view := by
  have hStable := stable_grownFrom s
  refine hStable.commit _ (hStable.change _ (.tick time) ?_)
  rw [Draft.ofStore_view]
  exact grownFrom_self hs

omit [SignatureScheme] in
/-- At the beginning the anchor is all that is known. -/
theorem traced_start (hs : s.IsGenesis) {time : UInt64} :
    (Engine.atRest { store := s }).Traced s blocks (s.atTime time) where
  grown := grownFrom_self hs
  lineage := by
    intro r block state hBlock hState
    have hTree := s.atTime_sameTree time
    -- What is known besides the anchor has been imported, and nothing has been.
    obtain ⟨imported, hLength, hImported⟩ := (grown_of_genesis hs).imports
    have hNone : imported = [] := by
      obtain ⟨root, block, state, hFacts⟩ := hs.facts
      obtain ⟨time, hStore⟩ := hFacts.store_eq
      rw [hStore] at hLength
      exact List.length_eq_zero_iff.mp hLength
    have hAnchor : r = (s.atTime time).anchorRoot := by
      by_contra hNe
      have hMem := hImported hBlock fun h => hNe (h.trans hTree.anchorRoot.symm)
      rw [hNone] at hMem
      exact absurd hMem List.not_mem_nil
    refine ⟨s.atTime time, ?_, ?_, ?_, ?_⟩
    · rw [hAnchor]
      exact .anchor
    · rw [hTree.block?]
      exact hBlock
    · rw [hTree.state?]
      exact hState
    · refine ⟨fun r block h => ?_, fun r state h => ?_⟩
      · rwa [hTree.block?] at h
      · rwa [hTree.state?] at h
  journal _ h := absurd h List.not_mem_nil

/-- What is known of the desk after some deliveries. The lineages may go on to more blocks and to a
later time than there have been so far. -/
structure Desk.Settled (s : Store) (deliveries : List Delivery) (k : Desk) : Prop where
  accounts : k.Accounts deliveries
  overdue : k.NothingOverdue
  timed : k.Timed s deliveries
  traced : ∀ {blocks : List Block} {time : UInt64}, DistinctRoots blocks →
    (∀ b ∈ deliveries.flatMap Delivery.blocks, b ∈ blocks) → closingTime s deliveries ≤ time →
      k.Traced s blocks (s.atTime time)

variable {deliveries : List Delivery}

theorem settled_move (hs : s.IsGenesis) (h : Move (slotTransition s.preset) k k')
    (hk : k.Settled s deliveries) : k'.Settled s deliveries where
  accounts := accounts_move h hk.accounts
  overdue := nothingOverdue_move h hk.overdue
  timed := timed_move h hk.timed
  traced := by
    intro blocks time hDistinct hBlocks hTime
    have hTree := s.atTime_sameTree time
    refine traced_move (grownFrom_atTime hs time) hDistinct h hk.overdue ?_ ?_
      (hk.traced hDistinct hBlocks hTime)
    · intro b hb
      -- What is in hand has been delivered.
      apply hBlocks
      rw [hk.accounts.blocks.mem_iff]
      exact List.mem_append_right _ (List.mem_map_of_mem hb)
    · have hLater : k.view.time ≤ (s.atTime time).view.time := by
        rw [hk.timed.time, s.atTime_time]
        by_cases h : s.time ≤ time
        · rwa [max_of_le h]
        · have hEarly := UInt64.le_of_lt (UInt64.not_le.mp h)
          rw [max_of_ge hEarly]
          exact UInt64.le_trans hTime hEarly
      refine currentSlot_le ?_ ?_ hLater
      · rw [hTree, hk.timed.genesisTime]
        rfl
      · rw [hTree, hk.timed.config]
        rfl

theorem Engine.settled_of_run (hs : s.IsGenesis)
    (hOk : (runFrom (slotTransition s.preset) s deliveries).failure = none) :
    (runFrom (slotTransition s.preset) s deliveries).engine.atRest.Settled s deliveries := by
  refine holds_of_run (P := Desk.Settled s) ?_ ?_ ?_ hOk
  · exact {
      accounts := accounts_start s
      overdue := nothingOverdue_start hs.isAnchored
      timed := ⟨rfl, rfl, rfl⟩
      traced := fun _ _ _ => traced_start hs }
  · intro deliveries x k k' hBlocks hAttestations hArrival hk
    exact {
      accounts := accounts_arrival hBlocks hAttestations hArrival hk.accounts
      overdue := nothingOverdue_arrival hArrival hk.overdue
      timed := timed_arrival hArrival hk.timed
      traced := by
        intro blocks time hDistinct hMore hTime
        refine traced_arrival hArrival (hk.traced hDistinct (fun b hb => hMore b ?_) ?_)
        · rw [List.flatMap_append]
          exact List.mem_append_left _ hb
        · exact UInt64.le_trans (closingTime_le_concat s deliveries x) hTime }
  · exact fun h => settled_move hs h

/-- **Nothing that can be imported is missing.** A block at the end of a lineage has been
delivered, and wherever it is, it is known in the end. -/
theorem Engine.known_of_lineage {e : Engine} (hs : s.IsGenesis)
    (hSettled : e.atRest.Settled s deliveries)
    (hDistinct : DistinctRoots (deliveries.flatMap Delivery.blocks)) {s' : Store} {root : Root}
    (h : Lineage (slotTransition s.preset) (deliveries.flatMap Delivery.blocks)
      (s.atTime (closingTime s deliveries)) s' root) :
    ∃ block, e.store.view.block? root = some block := by
  have hTraced := hSettled.traced hDistinct (fun _ => id) (UInt64.le_refl _)
  have hGrown : GrownFrom s e.store.view := hTraced.grown
  have hTree := s.atTime_sameTree (closingTime s deliveries)
  have hStart := grownFrom_atTime hs (closingTime s deliveries)
  have hClock : (s.atTime (closingTime s deliveries)).view.currentSlot =
      e.store.view.currentSlot := by
    refine SameClock.currentSlot ⟨?_, ?_, ?_⟩
    · rw [s.atTime_time, max_of_le (le_closingTime s deliveries)]
      exact hSettled.timed.time.symm
    · rw [hTree]
      exact hSettled.timed.genesisTime.symm
    · rw [hTree]
      exact hSettled.timed.config.symm
  induction h with
  | anchor =>
    obtain ⟨anchor, hAnchor, -⟩ := hGrown.grown.anchor
    refine ⟨anchor, ?_⟩
    rwa [show (s.atTime _).anchorRoot = _ from hTree.anchorRoot, ← show _ = s.view.anchorRoot from
      hGrown.anchorRoot]
  | @child s' b root d hRest hMem hSlot hImport ih =>
    obtain ⟨parent, hParent⟩ := ih
    obtain ⟨state, hFits, -⟩ := Lineage.child_view (hRest.grownFrom hStart) hImport
    have hRoot := hFits.root_eq
    have hKnown : ∀ fate ∈ e.journal, fate = .blockImported b ∨ fate = .blockKnown b →
        ∃ block, e.store.view.block? root = some block := by
      intro fate hFate hCase
      have hTrue := hTraced.journal fate hFate
      rcases hCase with rfl | rfl <;> obtain ⟨root', block, hRoot', hBlock⟩ := hTrue <;>
        cases hRoot.symm.trans hRoot' <;> exact ⟨block, hBlock⟩
    rw [hSettled.accounts.blocks.mem_iff] at hMem
    simp only [Desk.placedBlocks, atRest, desk, Waiting.blocks, List.map_nil, List.append_nil,
      List.mem_append, List.mem_map, List.mem_filterMap] at hMem
    rcases hMem with ((⟨fate, hFate, hImported⟩ | ⟨fate, hFate, hOld⟩) | ⟨fate, hFate, hRefused⟩) |
      ⟨waiting, hUntilSlot | hUntilParent, rfl⟩
    · refine hKnown fate hFate (Or.inl ?_)
      cases fate <;> cases hImported
      rfl
    · refine hKnown fate hFate (Or.inr ?_)
      cases fate <;> cases hOld
      rfl
    · -- A chain takes it, so it cannot have been refused.
      have hTrue := hTraced.journal fate hFate
      cases fate <;> cases hRefused
      exact absurd hImport (hTrue s' root d hRest)
    · -- Its slot has come.
      have hLater := (hSettled.overdue.awaits.untilSlot waiting hUntilSlot).1
      rw [(hRest.sameClock hStart).currentSlot, hClock] at hSlot
      exact absurd hLater (UInt64.not_lt.mpr hSlot)
    · -- Its parent is known.
      have hUnknown : e.store.view.block? waiting.block.parentRoot = none :=
        hSettled.overdue.awaits.untilParent waiting hUntilParent
      rw [hParent] at hUnknown
      exact absurd hUnknown (by simp)

theorem Engine.knowsImportable {e : Engine} (hs : s.IsGenesis)
    (hSettled : e.atRest.Settled s deliveries)
    (hDistinct : DistinctRoots (deliveries.flatMap Delivery.blocks)) :
    e.store.view.KnowsImportable (slotTransition s.preset) (deliveries.flatMap Delivery.blocks)
      (s.atTime (closingTime s deliveries)) := by
  have hTraced := hSettled.traced hDistinct (fun _ => id) (UInt64.le_refl _)
  have hGrown : e.store.view.Grown := hTraced.grown.grown
  have hImportable : ∀ {root block state}, e.store.view.block? root = some block →
      e.store.view.state? root = some state → Importable (slotTransition s.preset)
        (deliveries.flatMap Delivery.blocks) (s.atTime (closingTime s deliveries)) root block
          state := by
    intro root block state hBlock hState
    obtain ⟨s', hLineage, hBlock', hState', -⟩ := hTraced.lineage hBlock hState
    exact ⟨s', hLineage, hBlock', hState'⟩
  have hKnown : ∀ {root block state}, Importable (slotTransition s.preset)
        (deliveries.flatMap Delivery.blocks) (s.atTime (closingTime s deliveries)) root block
          state →
      e.store.view.block? root = some block ∧ e.store.view.state? root = some state := by
    rintro root block state ⟨s', hLineage, hBlock', hState'⟩
    obtain ⟨block', hBlock⟩ := known_of_lineage hs hSettled hDistinct hLineage
    obtain ⟨state', hState, -⟩ := hGrown.entry hBlock
    -- The block has come with a lineage of its own, which is the same one.
    obtain ⟨s'', hLineage', -, -, hWithin⟩ := hTraced.lineage hBlock hState
    cases hLineage.unique (grownFrom_atTime hs _) hDistinct hLineage'
    exact ⟨hWithin.blocks _ _ hBlock', hWithin.states _ _ hState'⟩
  constructor
  · intro root block
    constructor
    · intro hBlock
      obtain ⟨state, hState, -⟩ := hGrown.entry hBlock
      exact ⟨state, hImportable hBlock hState⟩
    · rintro ⟨state, h⟩
      exact (hKnown h).1
  · intro root state
    constructor
    · intro hState
      obtain ⟨block, hBlock⟩ := hGrown.known hState
      exact ⟨block, hImportable hBlock hState⟩
    · rintro ⟨block, h⟩
      exact (hKnown h).2

end

namespace Engine

/-! ## Two runs -/

section

variable [HashFunction] [SignatureScheme] {t : StateTransition} {s : Store}
  {deliveries : List Delivery}

theorem headCurrent_of_run (hOk : (runFrom t s deliveries).failure = none) :
    (runFrom t s deliveries).engine.HeadCurrent := by
  have hStart : Announced { store := s } :=
    ⟨rfl, List.isChain_nil, fun _ hEvent => absurd hEvent List.not_mem_nil⟩
  exact ((invariant_head t).runFrom hStart deliveries).2 hOk

/-- Without attestations there are no votes. -/
theorem votes_of_run (hs : s.IsAnchored) (hOk : (runFrom t s deliveries).failure = none)
    (hAttestations : deliveries.flatMap Delivery.attestations = [])
    (hBlocks : ∀ b ∈ deliveries.flatMap Delivery.blocks, b.body.attestations = []) :
    (runFrom t s deliveries).engine.tracker.votes = .empty := by
  obtain ⟨ballots, hCounted⟩ := counted_of_run hs hOk
  have hAccounts := accounts_of_run hOk
  have hApplied : (runFrom t s deliveries).engine.atRest.journal.filterMap Fate.applied? = [] := by
    have hPlaced := hAccounts.attestations
    rw [hAttestations] at hPlaced
    have hNone := hPlaced.nil_eq.symm
    simp only [Desk.placedAttestations, List.append_eq_nil_iff] at hNone
    exact hNone.1.1.1
  -- A ballot with votes would come from an attestation, or a block with some, that has arrived.
  have hBallots : ∀ ballot ∈ ballots, ballot.collect .empty = .empty := by
    intro ballot hBallot
    cases ballot with
    | attestation a indices =>
      have hMem : a ∈ ballots.filterMap Ballot.attestation? :=
        List.mem_filterMap.mpr ⟨_, hBallot, rfl⟩
      rw [hCounted.applied, hApplied] at hMem
      exact absurd hMem List.not_mem_nil
    | block b votes =>
      obtain ⟨hImported, p, state, hVotes⟩ := hCounted.inBlocks b votes hBallot
      have hDelivered : b ∈ deliveries.flatMap Delivery.blocks := by
        rw [hAccounts.blocks.mem_iff]
        simp only [Desk.placedBlocks, List.mem_append, List.mem_filterMap]
        exact Or.inl (Or.inl (Or.inl (Or.inl ⟨_, hImported, rfl⟩)))
      rw [hBlocks b hDelivered] at hVotes
      cases hVotes
      rfl
    | forgotten => rfl
  have hCollected : (runFrom t s deliveries).engine.tracker.votes =
      ballots.foldl Ballot.collect .empty := hCounted.collected
  rw [hCollected]
  clear hCounted hCollected
  induction ballots with
  | nil => rfl
  | cons ballot rest ih =>
    rw [List.forall_mem_cons] at hBallots
    rw [List.foldl_cons, hBallots.1]
    exact ih hBallots.2

/-- Without attestations, the head is the end of the path that no votes lead along. -/
theorem head_leadsTo_of_run (hs : s.IsGenesis)
    (hOk : (runFrom (slotTransition s.preset) s deliveries).failure = none)
    (hAttestations : deliveries.flatMap Delivery.attestations = [])
    (hBlocks : ∀ b ∈ deliveries.flatMap Delivery.blocks, b.body.attestations = []) :
    ∃ root, (runFrom (slotTransition s.preset) s deliveries).engine.tracker.head = some root ∧
      (runFrom (slotTransition s.preset) s deliveries).engine.store.view.LeadsTo .empty
        s.anchorRoot root := by
  obtain ⟨root, hHead, hFound⟩ := headCurrent_of_run hOk
  rw [votes_of_run hs.isAnchored hOk hAttestations hBlocks] at hFound
  have hGrown := grownFrom_of_run hs deliveries
  refine ⟨root, hHead, ?_⟩
  rcases hGrown.grown.head_eq .empty with ⟨root', hFound', hLeads⟩ | ⟨failure, hFails, -⟩
  · cases hFound.symm.trans hFound'
    rwa [hGrown.grown.headStart_eq, hGrown.anchorRoot] at hLeads
  · rw [hFound] at hFails
    exact absurd hFails (by simp)

/-- **The order does not matter.** Two runs after genesis are given the same blocks in any order,
and their clocks show the same time in the end. If none of them fails, both stores know what can be
imported one on top of the other at that time; and if there are no votes, the heads are the
same. -/
theorem sameOutcome_of_runs (hs : s.IsGenesis) (deliveries deliveries' : List Delivery)
    (hBlocks : (deliveries.flatMap Delivery.blocks).Perm (deliveries'.flatMap Delivery.blocks))
    (hDistinct : DistinctRoots (deliveries.flatMap Delivery.blocks))
    (hTime : closingTime s deliveries = closingTime s deliveries')
    (hOk : (runFrom (slotTransition s.preset) s deliveries).failure = none)
    (hOk' : (runFrom (slotTransition s.preset) s deliveries').failure = none) :
    let t := slotTransition s.preset
    let e := (runFrom t s deliveries).engine
    let e' := (runFrom t s deliveries').engine
    e.store.view.KnowsImportable t (deliveries.flatMap Delivery.blocks)
        (s.atTime (closingTime s deliveries)) ∧
      e.store.view.block? = e'.store.view.block? ∧ e.store.view.state? = e'.store.view.state? ∧
        ((∀ b ∈ deliveries.flatMap Delivery.blocks, b.body.attestations = []) →
          deliveries.flatMap Delivery.attestations = [] →
            deliveries'.flatMap Delivery.attestations = [] →
              ∃ root, e.tracker.head = some root ∧ e'.tracker.head = some root) := by
  intro t e e'
  have hDistinct' : DistinctRoots (deliveries'.flatMap Delivery.blocks) := by
    intro b hb b' hb'
    exact hDistinct b (hBlocks.mem_iff.mpr hb) b' (hBlocks.mem_iff.mpr hb')
  have hKnows := knowsImportable hs (settled_of_run hs hOk) hDistinct
  have hKnows' := knowsImportable hs (settled_of_run hs hOk') hDistinct'
  rw [← hTime] at hKnows'
  -- Lineages do not depend on the order in which the blocks are listed.
  have hSame : ∀ {root block state}, Importable t (deliveries.flatMap Delivery.blocks)
      (s.atTime (closingTime s deliveries)) root block state ↔
        Importable t (deliveries'.flatMap Delivery.blocks)
          (s.atTime (closingTime s deliveries)) root block state :=
    ⟨.mono fun _ => hBlocks.mem_iff.mp, .mono fun _ => hBlocks.mem_iff.mpr⟩
  have hBlock : e.store.view.block? = e'.store.view.block? := by
    funext root
    refine Option.ext fun block => ?_
    rw [hKnows.block root block, hKnows'.block root block]
    exact exists_congr fun state => hSame
  have hState : e.store.view.state? = e'.store.view.state? := by
    funext root
    refine Option.ext fun state => ?_
    rw [hKnows.state root state, hKnows'.state root state]
    exact exists_congr fun block => hSame
  refine ⟨hKnows, hBlock, hState, fun hNoVotes hQuiet hQuiet' => ?_⟩
  have hNoVotes' : ∀ b ∈ deliveries'.flatMap Delivery.blocks, b.body.attestations = [] :=
    fun b hb => hNoVotes b (hBlocks.mem_iff.mpr hb)
  obtain ⟨root, hHead, hLeads⟩ := head_leadsTo_of_run hs hOk hQuiet hNoVotes
  obtain ⟨root', hHead', hLeads'⟩ := head_leadsTo_of_run hs hOk' hQuiet' hNoVotes'
  have hParent : e'.store.view.parent? = e.store.view.parent? := by
    have hAnchor : e.store.view.anchorRoot = s.anchorRoot :=
      (grownFrom_of_run hs deliveries).anchorRoot
    have hAnchor' : e'.store.view.anchorRoot = s.anchorRoot :=
      (grownFrom_of_run hs deliveries').anchorRoot
    funext r
    rw [parent?, parent?, hAnchor, hAnchor', hBlock]
  cases (hLeads.of_parent? hParent).unique hLeads'
  exact ⟨root, hHead, hHead'⟩

end

/-- In a small network, two blocks arrive in their order when their slots have come, or the other
way round before. -/
theorem sameOutcome_of_reversed :
    letI : HashFunction := linearHash
    letI : SignatureScheme := Bls.scheme
    ∃ n : ChainedNetwork, chainedNetwork = some n ∧ n.store.IsGenesis ∧
      let t := slotTransition n.store.preset
      let run := runFrom t n.store [.tick 12, .block n.first, .block n.second]
      let run' := runFrom t n.store [.block n.second, .block n.first, .tick 12]
      run.failure = none ∧ run'.failure = none ∧ DistinctRoots [n.first, n.second] ∧
        run.engine.store.blockCount = 3 ∧
          run.engine.store.view.KnowsImportable t [n.first, n.second] (n.store.atTime 12) ∧
            run.engine.store.view.block? = run'.engine.store.view.block? ∧
              run.engine.store.view.state? = run'.engine.store.view.state? ∧
                ∃ root, run.engine.tracker.head = some root ∧
                  run'.engine.tracker.head = some root := by
  let : HashFunction := linearHash
  let : SignatureScheme := Bls.scheme
  have hRuns : (chainedNetwork.any fun n =>
      let t := slotTransition n.store.preset
      let run := runFrom t n.store [.tick 12, .block n.first, .block n.second]
      let run' := runFrom t n.store [.block n.second, .block n.first, .tick 12]
      run.failure.isNone && run'.failure.isNone && run.engine.store.blockCount = 3 &&
        n.store.time = 0 && n.first.treeRoot.toOption ≠ n.second.treeRoot.toOption &&
          n.first.body.attestations.isEmpty && n.second.body.attestations.isEmpty) = true := by
    decide +kernel
  obtain ⟨n, hNetwork, hs, hRun⟩ := exists_chainedNetwork hRuns
  simp only [Bool.and_eq_true, Option.isNone_iff_eq_none, decide_eq_true_eq, ne_eq,
    List.isEmpty_iff] at hRun
  obtain ⟨⟨⟨⟨⟨⟨hOk, hOk'⟩, hCount⟩, hTime⟩, hRoots⟩, hFirst⟩, hSecond⟩ := hRun
  have hDistinct : DistinctRoots [n.first, n.second] := by
    intro b hb b' hb' root hRoot hRoot'
    simp only [List.mem_cons, List.not_mem_nil, or_false] at hb hb'
    rcases hb with rfl | rfl <;> rcases hb' with rfl | rfl
    · rfl
    · exact absurd (by rw [hRoot, hRoot']) hRoots
    · exact absurd (by rw [hRoot, hRoot']) hRoots
    · rfl
  have hClosing : closingTime n.store [.tick 12, .block n.first, .block n.second] = 12 := by
    show max n.store.time 12 = 12
    rw [hTime]
    rfl
  obtain ⟨hKnows, hBlock, hState, hHead⟩ := sameOutcome_of_runs hs
    [.tick 12, .block n.first, .block n.second] [.block n.second, .block n.first, .tick 12]
    (List.Perm.swap n.second n.first []) hDistinct rfl hOk hOk'
  rw [hClosing] at hKnows
  refine ⟨n, hNetwork, hs, hOk, hOk', hDistinct, hCount, hKnows, hBlock, hState, ?_⟩
  refine hHead (fun b hb => ?_) rfl rfl
  simp only [List.flatMap_cons, Delivery.blocks, List.nil_append, List.flatMap_nil, List.append_nil,
    List.cons_append, List.mem_cons, List.not_mem_nil, or_false] at hb
  rcases hb with rfl | rfl
  · exact hFirst
  · exact hSecond

end Engine

end ForkChoice
