import ForkChoice.Proofs.Transition.Composition

/-!
# ForkChoice — blocks that are built are accepted

Whoever builds a block does not know its state root before the state after it is known, and that
state holds the header of the block. The circle is broken by the header having no state root while
its slot lasts. So the state after a block does not depend on the state root in the block: the
block is applied unchecked, with an arbitrary state root, and the root of the state that comes out
is the only one that the check accepts. Builder and check agree on the rest because they do the
same, except that the builder has slots processed first, and the check processes them itself.

* `processHeader_withStateRoot`, `applyBlock_eq_andThen` — the check of the state root comes last,
  and nothing before it depends on the state root;
* `applyBlock_withOtherRoot` — a block is accepted with one state root only;
* `Devnet.buildBlock_eq_ok`, `Devnet.accepted_of_buildBlock` — the blocks that are built are those
  that are accepted;
* `Devnet.InARow`, `Devnet.inARow_of_buildChain`, `Devnet.InARow.linked` — several blocks.
-/

namespace ForkChoice

section

variable [HashFunction] {p : Preset} {s s' post : BeaconState} {b block : Block} {slot : Slot}
  {root : Root}

namespace BeaconState

/-! ## The state root of a block -/

/-- The header of a block goes into the state without its state root. -/
theorem processHeader_withStateRoot (p : Preset) (s : BeaconState) (b : Block) (root : Root) :
    s.processHeader p { b with stateRoot := root } = s.processHeader p b := by
  have hCheck : s.checkHeader p { b with stateRoot := root } = s.checkHeader p b := rfl
  unfold processHeader Block.header
  rw [hCheck]
  cases b.body.treeRoot <;> rfl

theorem applyBlock_withStateRoot (p : Preset) (s : BeaconState) (b : Block) (policy : SlotPolicy)
    (root : Root) :
    s.applyBlock p { b with stateRoot := root } policy true = s.applyBlock p b policy true := by
  unfold applyBlock
  simp only [processHeader_withStateRoot]
  rfl

/-- The check of the state root comes last. -/
theorem applyBlock_eq_andThen (p : Preset) (s : BeaconState) (b : Block) (policy : SlotPolicy) :
    s.applyBlock p b policy false =
      (s.applyBlock p b policy true).andThen (·.checkStateRoot p b) := by
  unfold applyBlock
  simp only [Bool.false_eq_true, if_false, if_true]
  exact congrArg (Progress.andThen · (·.checkStateRoot p b)) Progress.andThen_done.symm

/-- A block is accepted if it can be applied unchecked, and has the root of the state after it. -/
theorem slotTransition_applyBlock_eq_ok :
    (slotTransition p).applyBlock s b = .ok s' ↔
      (s.applyBlock p b .ifNeeded true).toOutcome = .ok s' ∧ s'.treeRoot p = .ok b.stateRoot := by
  show (s.applyBlock p b .ifNeeded false).toOutcome = .ok s' ↔ _
  rw [applyBlock_eq_andThen, Progress.toOutcome_andThen, bind_eq_ok]
  simp only [checkStateRoot_eq_ok]
  constructor
  · rintro ⟨filled, hFilled, rfl, hRoot⟩
    exact ⟨hFilled, hRoot⟩
  · rintro ⟨hFilled, hRoot⟩
    exact ⟨s', hFilled, rfl, hRoot⟩

/-- **State roots.** A block that is accepted is not accepted with any other state root. -/
theorem applyBlock_withOtherRoot (h : (slotTransition p).applyBlock s b = .ok s')
    (hOther : root ≠ b.stateRoot) :
    (slotTransition p).applyBlock s { b with stateRoot := root } =
      Outcome.fail (.stateRootMismatch b.stateRoot root) := by
  obtain ⟨hFilled, hRoot⟩ := slotTransition_applyBlock_eq_ok.mp h
  show (s.applyBlock p { b with stateRoot := root } .ifNeeded false).toOutcome = _
  rw [applyBlock_eq_andThen, applyBlock_withStateRoot, Progress.toOutcome_andThen, hFilled, ok_bind,
    checkStateRoot, hRoot]
  dsimp only
  rw [if_pos hOther.symm]
  rfl

/-- Slots may be processed in front of a block instead of by it, and then there is no need for its
state root. -/
theorem applyBlock_unchecked_eq_ok (h : s.slot < b.slot) :
    (s.applyBlock p b .ifNeeded true).toOutcome = .ok s' ↔
      ∃ moved, (s.processSlots p b.slot).toOutcome = .ok moved ∧
        (moved.applyBlock p { b with stateRoot := 0 } .never true).toOutcome = .ok s' := by
  have hSame : s.applyBlock p b .ifNeeded true =
      (s.processSlots p b.slot).andThen (·.applyBlock p b .never true) := by
    unfold applyBlock
    rw [applies_of_later h, if_pos rfl, Progress.andThen_assoc]
    rfl
  rw [hSame, Progress.toOutcome_andThen, bind_eq_ok]
  simp only [applyBlock_withStateRoot]

/-! ## The latest header -/

theorem processSlot_latestHeader (h : s.processSlot p = .ok s') :
    ∃ stateRoot, s.treeRoot p = .ok stateRoot ∧
      s'.latestBlockHeader = s.filledHeader stateRoot := by
  simp only [processSlot, bind_eq_ok, pure_eq_ok] at h
  obtain ⟨stateRoot, hRoot, stateRoots, -, blockRoots, -, rfl⟩ := h
  exact ⟨stateRoot, hRoot, rfl⟩

/-- A header that has a state root stays as it is. -/
theorem advanceBy_latestHeader {count : Nat} (h : advanceBy p count s = .ok s')
    (hFilled : s.latestBlockHeader.stateRoot ≠ 0) :
    s'.latestBlockHeader = s.latestBlockHeader := by
  induction count generalizing s with
  | zero =>
    cases h
    rfl
  | succ count ih =>
    rw [advanceBy, bind_eq_ok] at h
    obtain ⟨first, hFirst, hRest⟩ := h
    obtain ⟨stateRoot, -, hLatest⟩ := processSlot_latestHeader hFirst
    rw [filledHeader_of_filled hFilled] at hLatest
    rw [← hLatest] at hFilled ⊢
    exact (ih hRest hFilled :)

/-- The header of the latest block is completed when its slot passes. -/
theorem processSlots_latestHeader (h : (s.processSlots p slot).toOutcome = .ok s')
    (hRoot : s.treeRoot p = .ok root) (hFilled : (s.filledHeader root).stateRoot ≠ 0) :
    s'.latestBlockHeader = s.filledHeader root := by
  have hLater := (processSlots_aged h).1
  rw [processSlots_of_later hLater, Progress.toOutcome_ofChecked] at h
  -- At least one slot passes.
  obtain ⟨count, hCount⟩ : ∃ count, (slot - s.slot).toNat = count + 1 := by
    rw [UInt64.toNat_sub_of_le _ _ (UInt64.le_of_lt hLater)]
    rw [UInt64.lt_iff_toNat_lt] at hLater
    exact ⟨slot.toNat - s.slot.toNat - 1, by omega⟩
  rw [hCount, advanceBy, bind_eq_ok] at h
  obtain ⟨first, hFirst, hRest⟩ := h
  obtain ⟨stateRoot, hStateRoot, hLatest⟩ := processSlot_latestHeader hFirst
  cases hRoot.symm.trans hStateRoot
  rw [← hLatest] at hFilled ⊢
  exact (advanceBy_latestHeader hRest hFilled :)

/-- The parent of a block is the block before it, if this one has a state root that does not look
as if it had none. -/
theorem treeRoot_eq_parentRoot {child : Block} (h : (slotTransition p).applyBlock s b = .ok s')
    (hNext : (slotTransition p).applyBlock s' child = .ok post) (hNonzero : b.stateRoot ≠ 0) :
    b.treeRoot = .ok child.parentRoot := by
  have hAfter := slotTransition_applyBlock h
  have hLater : s'.slot < child.slot := by
    rw [hAfter.slot, ← hAfter.headerSlot]
    exact (slotTransition_applyBlock hNext).later
  obtain ⟨aged, header, -, -, -, hHeader, hLatest, hRoot⟩ := exists_aged_of_applyBlock h
  have hTreeRoot : b.treeRoot = .ok header.treeRoot := by
    rw [Block.treeRoot, hHeader]
    rfl
  obtain ⟨hFilledRoot, hFilled⟩ :=
    filledHeader_of_block (s := s') hTreeRoot hHeader (by rw [hLatest])
  obtain ⟨moved, _, -, hMoved, hCheck, -⟩ := exists_aged_of_applyBlock hNext
  obtain ⟨hSlot, -, -, hParent⟩ := checkHeader_eq_ok.mp hCheck
  rcases hMoved with rfl | hMoved
  · -- The child is later, so at least one slot has passed.
    exact absurd (hSlot ▸ hLater) (UInt64.lt_irrefl _)
  · have hMovedHeader := processSlots_latestHeader hMoved hRoot (by rwa [hFilled])
    rw [hTreeRoot, hParent, hMovedHeader, hFilledRoot]

end BeaconState

/-! ## One block -/

namespace Devnet

open BeaconState

variable {graffiti : Root} {attestations : List Attestation}

theorem advance_eq_ok :
    advance p s slot = .ok s' ↔ (s.processSlots p slot).toOutcome = .ok s' :=
  Outcome.mapError_eq_ok

/-- What is built is the block with the given content that is accepted. -/
theorem buildBlock_eq_ok :
    buildBlock p s slot graffiti attestations = .ok (block, post) ↔
      s.slot < slot ∧ block.slot = slot ∧
        block.body = ⟨Bls.emptySignatureBytes, graffiti, attestations⟩ ∧
          (slotTransition p).applyBlock s block = .ok post := by
  simp only [buildBlock, bind_eq_ok, pure_eq_ok, advance_eq_ok, Outcome.mapError_eq_ok,
    Checked.liftM_eq, Checked.toOutcome_eq_ok, Prod.mk.injEq]
  constructor
  · -- The block that has been applied differs from the one that is handed out in its state root.
    rintro ⟨moved, hMoved, proposer, -, filled, hFilled, root, hRoot, rfl, rfl⟩
    have hLater : s.slot < slot := (processSlots_aged hMoved).1
    let built : Block := ⟨slot, proposer, moved.latestBlockHeader.treeRoot, root,
      ⟨Bls.emptySignatureBytes, graffiti, attestations⟩⟩
    have hUnchecked : (s.applyBlock p built .ifNeeded true).toOutcome = .ok filled :=
      (applyBlock_unchecked_eq_ok hLater).mpr ⟨moved, hMoved, hFilled⟩
    exact ⟨hLater, rfl, rfl, slotTransition_applyBlock_eq_ok.mpr ⟨hUnchecked, hRoot⟩⟩
  · rintro ⟨hLater, rfl, hBody, hApply⟩
    obtain ⟨hUnchecked, hRoot⟩ := slotTransition_applyBlock_eq_ok.mp hApply
    obtain ⟨moved, hMoved, hFilled⟩ := (applyBlock_unchecked_eq_ok hLater).mp hUnchecked
    -- What the builder computes is what the check compares with.
    have hHeader : (moved.processHeader p { block with stateRoot := 0 }).toOutcome = .ok post := by
      rw [← Progress.andThen_done (x := moved.processHeader p _)]
      exact hFilled
    obtain ⟨hCheck, -⟩ := processHeader_eq_ok.mp hHeader
    obtain ⟨-, -, hProposer, hParent⟩ := checkHeader_eq_ok.mp hCheck
    obtain ⟨slot, proposer, parentRoot, stateRoot, body⟩ := block
    subst hBody hParent
    exact ⟨moved, hMoved, proposer, hProposer, post, hFilled, stateRoot, hRoot, rfl, rfl⟩

/-- **Built blocks are accepted** with the state that came out when they were built, and each with
its own state root only. -/
theorem accepted_of_buildBlock
    (h : buildBlock p s slot graffiti attestations = .ok (block, post)) :
    (block.slot = slot ∧ block.body.graffiti = graffiti ∧ block.body.attestations = attestations) ∧
      (slotTransition p).applyBlock s block = .ok post ∧
        post.treeRoot p = .ok block.stateRoot ∧
          ∀ root, root ≠ block.stateRoot →
            (slotTransition p).applyBlock s { block with stateRoot := root } =
              Outcome.fail (.stateRootMismatch block.stateRoot root) := by
  obtain ⟨-, hSlot, hBody, hApply⟩ := buildBlock_eq_ok.mp h
  obtain ⟨-, hRoot⟩ := slotTransition_applyBlock_eq_ok.mp hApply
  have hContent : block.body.graffiti = graffiti ∧ block.body.attestations = attestations := by
    rw [hBody]
    exact ⟨rfl, rfl⟩
  exact ⟨⟨hSlot, hContent⟩, hApply, hRoot, fun root => applyBlock_withOtherRoot hApply⟩

omit [HashFunction] in
/-- A block with a vote is built two empty slots after genesis. -/
theorem accepted_after_emptySlots :
    letI : HashFunction := Engine.linearHash
    ∃ (n : Engine.ForkedNetwork) (votes : List Attestation) (block : Block) (post : BeaconState),
      Engine.forkedNetwork = some n ∧ votes.length = 1 ∧
        buildBlock .minimal n.state 3 7 votes = .ok (block, post) ∧
          (slotTransition .minimal).applyBlock n.state block = .ok post ∧
            post.treeRoot .minimal = .ok block.stateRoot ∧
              (slotTransition .minimal).applyBlock n.state { block with stateRoot := 0 } =
                Outcome.fail (.stateRootMismatch block.stateRoot 0) := by
  let : HashFunction := Engine.linearHash
  have hRuns : (Engine.forkedNetwork.any fun n =>
      decide (n.early.body.attestations.length = 1) &&
        (buildBlock .minimal n.state 3 7 n.early.body.attestations).toOption.any fun built =>
          decide (0 ≠ built.1.stateRoot)) = true := by
    decide +kernel
  simp only [Option.any_eq_true, Bool.and_eq_true, decide_eq_true_eq, Engine.toOption_eq_some]
    at hRuns
  obtain ⟨n, hNetwork, hVotes, ⟨block, post⟩, hBuilt, hNonzero⟩ := hRuns
  obtain ⟨-, hApply, hRoot, hOther⟩ := accepted_of_buildBlock hBuilt
  exact ⟨n, _, block, post, hNetwork, hVotes, hBuilt, hApply, hRoot, hOther 0 hNonzero⟩

/-! ## Several blocks -/

/-- Each block is accepted on the state after the one before it. -/
def InARow (p : Preset) : BeaconState → List (Block × BeaconState) → Prop
  | _, [] => True
  | s, (block, post) :: rest =>
    (slotTransition p).applyBlock s block = .ok post ∧ InARow p post rest

variable {slots : List Slot} {built : List (Block × BeaconState)}

/-- **Chains.** The blocks of a chain are accepted one after another, one in each of the slots. -/
theorem inARow_of_buildChain (h : buildChain p s slots = .ok built) :
    InARow p s built ∧ built.map (·.1.slot) = slots := by
  induction slots generalizing s built with
  | nil =>
    cases h
    exact ⟨trivial, rfl⟩
  | cons slot slots ih =>
    simp only [buildChain, bind_eq_ok, pure_eq_ok] at h
    obtain ⟨⟨block, post⟩, hFirst, rest, hRest, rfl⟩ := h
    obtain ⟨-, hSlot, -, hApply⟩ := buildBlock_eq_ok.mp hFirst
    obtain ⟨hRow, hSlots⟩ := ih hRest
    exact ⟨⟨hApply, hRow⟩, by rw [List.map_cons, hSlots, hSlot]⟩

/-- The parent of a block in a row is the block before it, if this one has a state root that does
not look as if it had none. -/
theorem InARow.linked (h : InARow p s built) (hRoots : ∀ entry ∈ built, entry.1.stateRoot ≠ 0) :
    (built.map Prod.fst).IsChain fun parent child => parent.treeRoot = .ok child.parentRoot := by
  induction built generalizing s with
  | nil => exact .nil
  | cons entry rest ih =>
    cases rest with
    | nil => exact .singleton _
    | cons next rest =>
      obtain ⟨hFirst, hRest⟩ := h
      have hNonzero := hRoots entry List.mem_cons_self
      exact .cons_cons (treeRoot_eq_parentRoot hFirst hRest.1 hNonzero)
        (ih hRest fun other hMem => hRoots other (List.mem_cons_of_mem _ hMem))

end Devnet

end

end ForkChoice
