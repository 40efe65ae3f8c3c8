import ForkChoice.Proofs.Store.Finality
import ForkChoice.Proofs.Store.Lineage
import ForkChoice.Proofs.Store.Timeline

/-!
# ForkChoice — the order of the checkpoints

Three checkpoints move when a block is imported: the best justified one is remembered first, then
the justified one may follow it, and at last the finalized one moves and may force the justified one
to that of the new state. The update may fail between any two of these. The best justified
checkpoint is raised before the justified one, so it is never the earlier of the two; and the
justified one goes back only where it conflicts with what has just become final.

* `StoreView.Advances` — time, slots and the two checkpoints that only move forwards;
* `StoreView.Reordered` — what an update may do to the order, `Draft.updateCheckpoints_reordered` —
  it does nothing else;
* `OrdersCheckpoints` — states whose finalized checkpoint is not after the justified one;
* `Draft.KeepsOrder`, `keepsOrder_of_later` — the order along a line.
-/

namespace ForkChoice

open StoreView

namespace StoreView

variable {v v' v'' : StoreView} {root : Root} {block : Block} {state : BeaconState}

/-- What only moves forwards. -/
structure Advances (v v' : StoreView) : Prop where
  time : v.time ≤ v'.time
  currentSlot : v.currentSlot ≤ v'.currentSlot
  finalized : v.finalized.epoch ≤ v'.finalized.epoch
  bestJustified : v.bestJustified.epoch ≤ v'.bestJustified.epoch

namespace Advances

theorem refl (v : StoreView) : v.Advances v :=
  ⟨UInt64.le_refl _, UInt64.le_refl _, UInt64.le_refl _, UInt64.le_refl _⟩

theorem trans (h : v.Advances v') (h' : v'.Advances v'') : v.Advances v'' where
  time := UInt64.le_trans h.time h'.time
  currentSlot := UInt64.le_trans h.currentSlot h'.currentSlot
  finalized := UInt64.le_trans h.finalized h'.finalized
  bestJustified := UInt64.le_trans h.bestJustified h'.bestJustified

end Advances

/-- What becomes of the three checkpoints where a state comes with the checkpoints `final` and
`justified`. -/
structure Reordered (final justified : Checkpoint) (v v' : StoreView) : Prop where
  finalized : v.finalized.epoch ≤ v'.finalized.epoch
  bestJustified : v.bestJustified.epoch ≤ v'.bestJustified.epoch
  best : v'.justified.epoch ≤ v'.bestJustified.epoch
  moved : v'.justified = v.justified ∨ v'.justified = justified
  /-- The justified checkpoint goes back only if it conflicts with what becomes final. -/
  lowered : v'.justified.epoch < v.justified.epoch → v.finalized.epoch < v'.finalized.epoch ∧
    ∃ found, v'.ancestor v.justified.root v'.finalizedSlot = .ok found ∧
      found ≠ some v'.finalized.root
  ordered : final.epoch ≤ justified.epoch → v.finalized.epoch ≤ v.justified.epoch →
    v'.finalized.epoch ≤ v'.justified.epoch

namespace Reordered

variable {final justified best : Checkpoint}

theorem refl (hBest : v.justified.epoch ≤ v.bestJustified.epoch) :
    Reordered final justified v v where
  finalized := UInt64.le_refl _
  bestJustified := UInt64.le_refl _
  best := hBest
  moved := Or.inl rfl
  lowered := fun h => absurd h (UInt64.lt_irrefl _)
  ordered := fun _ h => h

/-- A better checkpoint is remembered. -/
theorem remember (hBest : v.justified.epoch ≤ v.bestJustified.epoch)
    (hBetter : v.bestJustified.epoch ≤ best.epoch) :
    Reordered final justified v { v with bestJustified := best } where
  finalized := UInt64.le_refl _
  bestJustified := hBetter
  best := UInt64.le_trans hBest hBetter
  moved := Or.inl rfl
  lowered := fun h => absurd h (UInt64.lt_irrefl _)
  ordered := fun _ h => h

/-- A later checkpoint takes effect, which is not better than the one that is remembered. -/
theorem promote (hLater : v.justified.epoch ≤ justified.epoch)
    (hBest : justified.epoch ≤ v.bestJustified.epoch) :
    Reordered final justified v { v with justified } where
  finalized := UInt64.le_refl _
  bestJustified := UInt64.le_refl _
  best := hBest
  moved := Or.inr rfl
  lowered := fun h => absurd h (UInt64.not_lt.mpr hLater)
  ordered := fun _ h => UInt64.le_trans h hLater

/-- What is final moves alone, while the justified checkpoint is not before that of the state. -/
theorem finalize (hBest : v.justified.epoch ≤ v.bestJustified.epoch)
    (hLater : v.finalized.epoch < final.epoch) (hAhead : justified.epoch ≤ v.justified.epoch) :
    Reordered final justified v { v with finalized := final } where
  finalized := UInt64.le_of_lt hLater
  bestJustified := UInt64.le_refl _
  best := hBest
  moved := Or.inl rfl
  lowered := fun h => absurd h (UInt64.lt_irrefl _)
  ordered := fun hState _ => UInt64.le_trans hState hAhead

/-- What is final moves and takes the justified checkpoint of the state with it. -/
theorem force (hBest : justified.epoch ≤ v.bestJustified.epoch)
    (hLater : v.finalized.epoch < final.epoch)
    (hConflict : justified.epoch < v.justified.epoch → ∃ found,
      { v with finalized := final }.ancestor v.justified.root
        { v with finalized := final }.finalizedSlot = .ok found ∧ found ≠ some final.root) :
    Reordered final justified v { v with finalized := final, justified } where
  finalized := UInt64.le_of_lt hLater
  bestJustified := UInt64.le_refl _
  best := hBest
  moved := Or.inr rfl
  lowered := by
    intro hLower
    obtain ⟨found, hFound, hOther⟩ := hConflict hLower
    have hTree : SameTree { v with finalized := final }
      { v with finalized := final, justified } := rfl
    exact ⟨hLater, found, (hTree.ancestor_eq _ _).trans hFound, hOther⟩
  ordered := fun hState _ => hState

/-- One update after another that has not lowered the justified checkpoint. -/
theorem trans (h : Reordered final justified v v')
    (hForwards : v.justified.epoch ≤ v'.justified.epoch)
    (h' : Reordered final justified v' v'') : Reordered final justified v v'' where
  finalized := UInt64.le_trans h.finalized h'.finalized
  bestJustified := UInt64.le_trans h.bestJustified h'.bestJustified
  best := h'.best
  moved := by
    rcases h'.moved with hStays | hMoved
    · rw [hStays]
      exact h.moved
    · exact Or.inr hMoved
  lowered := by
    intro hLower
    have hLower' := UInt64.lt_of_lt_of_le hLower hForwards
    -- The second update has lowered it, so the first one had not taken it from the state.
    have hOld : v'.justified = v.justified := by
      refine h.moved.resolve_right fun hTaken => ?_
      rcases h'.moved with hSame | hSame
      · rw [hSame] at hLower'
        exact UInt64.lt_irrefl _ hLower'
      · rw [hSame, hTaken] at hLower'
        exact UInt64.lt_irrefl _ hLower'
    obtain ⟨hLater, found, hFound, hOther⟩ := h'.lowered hLower'
    rw [hOld] at hFound
    exact ⟨UInt64.lt_of_le_of_lt h.finalized hLater, found, hFound, hOther⟩
  ordered := fun hState hOrder => h'.ordered hState (h.ordered hState hOrder)

end Reordered

end StoreView

/-! ## Updates -/

namespace Draft

variable {d : Draft}

/-- The candidate is remembered before it takes effect, so that it is not better than what is
remembered, also where the update fails. -/
theorem updateJustified_reordered (final candidate : Checkpoint)
    (hBest : d.view.justified.epoch ≤ d.view.bestJustified.epoch) :
    let v := (d.updateJustified candidate).2.view
    Reordered final candidate d.view v ∧ d.view.justified.epoch ≤ v.justified.epoch ∧
      ((d.updateJustified candidate).1 = .ok () → candidate.epoch ≤ v.bestJustified.epoch) := by
  unfold updateJustified
  split
  · rename_i hOld
    exact ⟨.refl hBest, UInt64.le_refl _, fun _ => UInt64.le_trans hOld hBest⟩
  · rename_i hLater
    have hLater := UInt64.le_of_lt (UInt64.not_le.mp hLater)
    -- The better one of the two is remembered when it is asked whether the candidate takes effect.
    have hRemembered : ∃ best, (if d.view.bestJustified.epoch < candidate.epoch then
        d.setBestJustified candidate else d).view = { d.view with bestJustified := best } ∧
          d.view.bestJustified.epoch ≤ best.epoch ∧ candidate.epoch ≤ best.epoch := by
      split
      · rename_i hBetter
        exact ⟨candidate, rfl, UInt64.le_of_lt hBetter, UInt64.le_refl _⟩
      · rename_i hKnown
        exact ⟨_, rfl, UInt64.le_refl _, UInt64.not_lt.mp hKnown⟩
    obtain ⟨best, hView, hBetter, hCandidate⟩ := hRemembered
    have hFirst : Reordered final candidate d.view { d.view with bestJustified := best } :=
      .remember hBest hBetter
    dsimp only
    split
    · rw [hView]
      exact ⟨hFirst, UInt64.le_refl _, fun _ => hCandidate⟩
    · rename_i update _
      cases update with
      | false =>
        rw [if_neg Bool.false_ne_true, hView]
        exact ⟨hFirst, UInt64.le_refl _, fun _ => hCandidate⟩
      | true =>
        rw [if_pos rfl, setJustified_view, hView]
        exact ⟨hFirst.trans (UInt64.le_refl _) (.promote hLater hCandidate), hLater,
          fun _ => hCandidate⟩

theorem updateFinalized_reordered (candidate stateJustified : Checkpoint)
    (hBest : d.view.justified.epoch ≤ d.view.bestJustified.epoch)
    (hState : stateJustified.epoch ≤ d.view.bestJustified.epoch) :
    Reordered candidate stateJustified d.view
      (d.updateFinalized candidate stateJustified).2.view := by
  unfold updateFinalized
  split
  · exact .refl hBest
  · rename_i hLater
    have hLater := UInt64.not_le.mp hLater
    dsimp only
    split
    · rename_i hSame
      refine .finalize hBest hLater ?_
      rw [← hSame]
      exact UInt64.le_refl _
    · split
      · rename_i hBehind
        exact .force hState hLater fun h => absurd h (UInt64.not_lt.mpr (UInt64.le_of_lt hBehind))
      · rename_i hNotBehind
        have hAhead := UInt64.not_lt.mp hNotBehind
        split
        · exact .finalize hBest hLater hAhead
        · rename_i descends hDescends
          cases descends with
          | true => exact .finalize hBest hLater hAhead
          | false =>
            simp only [justifiedDescendsFrom, bind_eq_ok, pure_eq_ok] at hDescends
            obtain ⟨found, hFound, hOther⟩ := hDescends
            exact .force hState hLater fun _ => ⟨found, hFound, of_decide_eq_false hOther⟩

/-- **An update**, also one that fails between two of its writes. -/
theorem updateCheckpoints_reordered (state : BeaconState)
    (hBest : d.view.justified.epoch ≤ d.view.bestJustified.epoch) :
    Reordered state.finalized state.currentJustified d.view
      (d.updateCheckpoints state).2.view := by
  obtain ⟨hFirst, hForwards, hState⟩ :=
    d.updateJustified_reordered state.finalized state.currentJustified hBest
  unfold updateCheckpoints
  split
  · rename_i h
    rw [h] at hFirst
    exact hFirst
  · rename_i d' h
    rw [h] at hFirst hForwards hState
    exact hFirst.trans hForwards (d'.updateFinalized_reordered _ _ hFirst.best (hState rfl))

end Draft

/-! ## One draft after another -/

section

variable [HashFunction] [SignatureScheme] {t : StateTransition} {s : Store} {d d' : Draft}

/-- No state that the rules give has a finalized checkpoint that is later than the justified one. -/
def OrdersCheckpoints (t : StateTransition) (s : Store) : Prop :=
  ∀ v root b parentState state, s.Shows t v →
    v.admitBlock b = .ok (.fresh root parentState) → t.applyBlock parentState b = .ok state →
      state.finalized.epoch ≤ state.currentJustified.epoch

/-- An import moves what is final forwards, and the block that was justified so far is not on the
chain of what is final now. -/
def Draft.Overruled (t : StateTransition) (d d' : Draft) : Prop :=
  (∃ b, d' = (d.importBlock t b).2) ∧ d.view.finalized.epoch < d'.view.finalized.epoch ∧
    ∃ found, d'.view.ancestor d.view.justified.root d'.view.finalizedSlot = .ok found ∧
      found ≠ some d'.view.finalized.root

/-- One step, as far as time and checkpoints are concerned. -/
structure Draft.StepsInOrder (t : StateTransition) (s : Store) (d d' : Draft) : Prop where
  advances : d.view.Advances d'.view
  best : d'.view.justified.epoch ≤ d'.view.bestJustified.epoch
  lowered : d'.view.justified.epoch < d.view.justified.epoch → d.Overruled t d'
  ordered : OrdersCheckpoints t s → d.view.finalized.epoch ≤ d.view.justified.epoch →
    d'.view.finalized.epoch ≤ d'.view.justified.epoch

namespace Draft.StepsInOrder

theorem of_sameChain (hBest : d.view.justified.epoch ≤ d.view.bestJustified.epoch)
    (h : SameChain d.view d'.view) : d.StepsInOrder t s d' := by
  rw [StoreView.SameChain] at h
  constructor <;> rw [h]
  · exact ⟨UInt64.le_refl _, UInt64.le_refl _, UInt64.le_refl _, UInt64.le_refl _⟩
  · exact hBest
  · exact fun hLower => absurd hLower (UInt64.lt_irrefl _)
  · exact fun _ hOrder => hOrder

theorem importBlock (hShown : s.Shows t d.view)
    (hBest : d.view.justified.epoch ≤ d.view.bestJustified.epoch) (b : Block) :
    d.StepsInOrder t s (d.importBlock t b).2 := by
  rcases d.importBlock_cases t b with
    ⟨hSame, -⟩ | ⟨root, parentState, state, hAdmitted, hApplied, hDraft, -⟩
  · exact of_sameChain hBest (hSame ▸ SameChain.refl _)
  · have hOrder := (d.countApplyBlock.insertBlock root b state).updateCheckpoints_reordered state
      (by rw [insertBlock_view]; exact hBest)
    have hClock := ((d.countApplyBlock.insertBlock root b state).updateCheckpoints_rejustified
      state).view
    rw [← hDraft, insertBlock_view, countApplyBlock_view] at hOrder hClock
    -- Time stands still while a block is imported.
    have hClock := SameClock.of_imported hClock
    exact {
      advances := {
        time := UInt64.le_of_eq hClock.time.symm
        currentSlot := UInt64.le_of_eq hClock.currentSlot.symm
        finalized := hOrder.finalized
        bestJustified := hOrder.bestJustified }
      best := hOrder.best
      lowered := fun hLower => ⟨⟨b, rfl⟩, hOrder.lowered hLower⟩
      ordered := fun hRules => hOrder.ordered
        (hRules d.view root b parentState state hShown hAdmitted hApplied) }

theorem tick (hBest : d.view.justified.epoch ≤ d.view.bestJustified.epoch) (time : UInt64) :
    d.StepsInOrder t s (d.tick time) := by
  rcases d.tick_cases time with ⟨-, h⟩ | ⟨hLater, h⟩ | ⟨hLater, hBetter, h⟩ <;> rw [h]
  · exact of_sameChain hBest (SameChain.refl _)
  · have hTime := UInt64.le_of_lt hLater
    exact {
      advances := ⟨hTime, currentSlot_le rfl rfl hTime, UInt64.le_refl _, UInt64.le_refl _⟩
      best := hBest
      lowered := fun hLower => absurd hLower (UInt64.lt_irrefl _)
      ordered := fun _ hOrder => hOrder }
  · have hTime := UInt64.le_of_lt hLater
    exact {
      advances := ⟨hTime, currentSlot_le rfl rfl hTime, UInt64.le_refl _, UInt64.le_refl _⟩
      best := UInt64.le_refl _
      lowered := fun hLower => absurd hLower (UInt64.not_lt.mpr hBest)
      ordered := fun _ hOrder => UInt64.le_trans hOrder hBest }

theorem of_next (hShown : s.Shows t d.view)
    (hBest : d.view.justified.epoch ≤ d.view.bestJustified.epoch) (h : Next t d d') :
    d.StepsInOrder t s d' := by
  rcases h.cases with ⟨b, rfl⟩ | ⟨time, rfl⟩ | hChain
  · exact importBlock hShown hBest b
  · exact tick hBest time
  · exact of_sameChain hBest hChain

end Draft.StepsInOrder

/-- Time and checkpoints at some time, and what becomes of them later. -/
structure Draft.KeepsOrder (t : StateTransition) (s : Store) (d : Draft) : Prop where
  /-- Time and slots never go back, nor does what is final or what is best justified. -/
  advances : ∀ d', Later t d d' → d.view.Advances d'.view
  /-- What is justified is never better than what is remembered as the best. -/
  best : d.view.justified.epoch ≤ d.view.bestJustified.epoch
  /-- What is justified goes back only if it is not on the chain of what becomes final. -/
  lowered : ∀ d', Next t d d' → d'.view.justified.epoch < d.view.justified.epoch → d.Overruled t d'
  /-- What is final is not later than what is justified, if this is so in all states. -/
  ordered : OrdersCheckpoints t s → d.view.finalized.epoch ≤ d.view.justified.epoch

/-- **The order of the checkpoints.** Whatever the history, time and the checkpoints keep their
order, between operations that succeed and after those that fail. -/
theorem keepsOrder_of_later (hs : s.IsAnchored) (h : Draft.Later t (Draft.ofStore s) d) :
    d.KeepsOrder t s := by
  have hStep : ∀ {d d'}, Draft.Later t (Draft.ofStore s) d →
      d.view.justified.epoch ≤ d.view.bestJustified.epoch → Draft.Next t d d' →
        d.StepsInOrder t s d' := fun h hBest hNext =>
    .of_next (Store.shows_iff_later.mpr ⟨_, h, rfl⟩) hBest hNext
  -- The anchor is justified, best justified and final.
  have hStart : s.justified.epoch ≤ s.bestJustified.epoch ∧
      s.finalized.epoch ≤ s.justified.epoch := by
    obtain ⟨block, state, hAnchor⟩ := hs
    obtain ⟨root, -, -, -, -, time, -, hStore⟩ := Store.ofAnchor_eq_ok.mp hAnchor
    rw [← hStore]
    exact ⟨UInt64.le_refl _, UInt64.le_refl _⟩
  have hBest : ∀ {d}, Draft.Later t (Draft.ofStore s) d →
      d.view.justified.epoch ≤ d.view.bestJustified.epoch := by
    intro d h
    induction h with
    | refl => exact hStart.1
    | tail hLine hNext ih => exact (hStep hLine ih hNext).best
  exact {
    advances := by
      intro d' hLater
      induction hLater with
      | refl => exact .refl _
      | tail hLine hNext ih =>
        have hWhole := h.trans hLine
        exact ih.trans (hStep hWhole (hBest hWhole) hNext).advances
    best := hBest h
    lowered := fun d' hNext => (hStep h (hBest h) hNext).lowered
    ordered := by
      intro hRules
      induction h with
      | refl => exact hStart.2
      | tail hLine hNext ih => exact (hStep hLine (hBest hLine) hNext).ordered hRules ih }

end

/-- In the network with a rival branch, the block of the first rival is justified when the second
block of the other branch comes. This one finalizes a block which is not on the chain of the rival,
and the justified checkpoint goes back. -/
theorem keepsOrder_of_rivals :
    letI : HashFunction := Engine.linearHash
    letI : SignatureScheme := Bls.scheme
    ∃ n, rivalNetwork {} 17 = some n ∧ n.store.IsAnchored ∧
      let d := (Draft.ofStore n.store).changeAll n.rules ((n.arrivals 120).take 4)
      let d' := d.change n.rules (.block n.second)
      Draft.Later n.rules (Draft.ofStore n.store) d ∧ d.KeepsOrder n.rules n.store ∧
        d'.view.justified.epoch < d.view.justified.epoch ∧
          d'.view.justified.epoch < d'.view.bestJustified.epoch ∧ d.Overruled n.rules d' := by
  let : HashFunction := Engine.linearHash
  let : SignatureScheme := Bls.scheme
  have hRuns : ((rivalNetwork {} 17).any fun n =>
      let d := (Draft.ofStore n.store).changeAll n.rules ((n.arrivals 120).take 4)
      let d' := d.change n.rules (.block n.second)
      decide (d'.view.justified.epoch < d.view.justified.epoch) &&
        decide (d'.view.justified.epoch < d'.view.bestJustified.epoch)) = true := by
    decide +kernel
  obtain ⟨n, hNetwork, hs, -, hRun⟩ := exists_rivalNetwork hRuns
  simp only [Bool.and_eq_true, decide_eq_true_eq] at hRun
  obtain ⟨hLower, hBehind⟩ := hRun
  have hLater := Draft.later_changeAll (t := n.rules) (Draft.ofStore n.store)
    ((n.arrivals 120).take 4)
  have hOrder := keepsOrder_of_later hs hLater
  exact ⟨n, hNetwork, hs, hLater, hOrder, hLower, hBehind,
    hOrder.lowered _ (.changed (.block n.second)) hLower⟩

end ForkChoice
