import ForkChoice.Devnet.Building
import ForkChoice.Proofs.Merkle.Defined
import ForkChoice.Proofs.Transition.Network

/-!
# ForkChoice — what a state remembers of its chain

A state keeps the roots of the last blocks in a ring, one for each slot, and the header of the
latest block. Two things are done late: the root of a slot is written when the slot passes, and the
state root in the header is filled in with the first slot that passes after the block, because it
is the root of the state that holds the header. A zero stands for a state root that is missing, so
a state whose root is zero would be taken for one in which it has not been filled in yet.

Nothing here knows of a store. The chain is given by a relation `last`: which block is the last one
up to a slot. As the ring has no more entries than slots, a slot that passes overwrites the entry
of the slot that leaves the window, and no other one that is still asked for.

* `mod_ne_of_near` — slots in the window have entries of their own;
* `BeaconState.Remembers` — the ring and the header tell what `last` tells;
* `Remembers.entry_after` — what the ring tells when one more slot has been written down;
* `Remembers.advance`, `Remembers.processSlots` — slots that pass;
* `Remembers.applyBlock` — a block;
* `Remembers.blockRootAt`, `Remembers.latestBlockRoot` — what can be read.
-/

namespace ForkChoice

/-- Two slots that are not further apart than a ring is long have different places in it. -/
theorem mod_ne_of_near {t slot n : UInt64} (hBefore : t < slot)
    (hNear : slot.toNat < t.toNat + n.toNat) : (t % n).toNat ≠ (slot % n).toNat := by
  intro hSame
  rw [UInt64.toNat_mod, UInt64.toNat_mod] at hSame
  have hLt : t.toNat < slot.toNat := hBefore
  -- Their distance would be a multiple of the length, but it is between zero and the length.
  have hDistance : (slot.toNat - t.toNat) % n.toNat = 0 := Nat.sub_mod_eq_zero_of_mod_eq hSame.symm
  rw [Nat.mod_eq_of_lt (by omega)] at hDistance
  omega

theorem Preset.slotsPerHistoricalRoot_pos (p : Preset) : 0 < p.slotsPerHistoricalRoot.toNat := by
  cases p <;> decide

/-- Each slot has a place in the ring. -/
theorem Preset.historicalPlace_lt (p : Preset) (slot : Slot) :
    (slot % p.slotsPerHistoricalRoot).toNat < p.slotsPerHistoricalRoot.toNat := by
  rw [UInt64.toNat_mod]
  exact Nat.mod_lt _ p.slotsPerHistoricalRoot_pos

theorem Preset.slotsPerHistoricalRoot_le (p : Preset) :
    p.slotsPerHistoricalRoot.toNat ≤ 2 ^ Merkle.maxDepth := by
  cases p <;> decide

theorem Word.toNat_succ {slot : Slot} (h : slot.toNat + 1 < UInt64.size) :
    (slot + 1).toNat = slot.toNat + 1 := by
  rw [UInt64.toNat_add]
  exact Nat.mod_eq_of_lt h

namespace BeaconState

variable [HashFunction] {p : Preset} {s s' : BeaconState} {last : Slot → Root → Prop}
  {root stateRoot : Root} {slot t : Slot}

/-! ## The header of the latest block -/

/-- The header of the latest block with the state root filled in. -/
def filledHeader (s : BeaconState) (stateRoot : Root) : BlockHeader :=
  if s.latestBlockHeader.stateRoot = 0 then { s.latestBlockHeader with stateRoot := stateRoot }
  else s.latestBlockHeader

omit [HashFunction] in
theorem filledHeader_of_filled (h : s.latestBlockHeader.stateRoot ≠ 0) (stateRoot : Root) :
    s.filledHeader stateRoot = s.latestBlockHeader :=
  if_neg h

theorem latestBlockRoot_eq (h : s.treeRoot p = .ok stateRoot) :
    Devnet.latestBlockRoot p s = .ok (s.filledHeader stateRoot).treeRoot := by
  unfold Devnet.latestBlockRoot filledHeader
  dsimp only
  by_cases hMissing : s.latestBlockHeader.stateRoot = 0
  · rw [if_pos hMissing, if_pos hMissing, h]
    rfl
  · rw [if_neg hMissing, if_neg hMissing]
    rfl

/-- A state has a root if its rings are not too long, and there is one of its network that has a
root. -/
theorem treeRoot_defined (h : s.treeRoot p = .ok stateRoot)
    (hBlocks : s'.blockRoots.size ≤ p.slotsPerHistoricalRoot.toNat)
    (hStates : s'.stateRoots.size ≤ p.slotsPerHistoricalRoot.toNat)
    (hSame : s.SameNetwork s') : ∃ stateRoot', s'.treeRoot p = .ok stateRoot' := by
  simp only [treeRoot, bind_eq_ok, pure_eq_ok] at h
  obtain ⟨_, -, _, -, validators, hValidators, balances, hBalances, mixes, hMixes, -⟩ := h
  obtain ⟨blockRoots, hBlockRoots⟩ :=
    Merkle.vectorRoot_defined s'.blockRoots.toList p.slotsPerHistoricalRoot_le hBlocks
  obtain ⟨stateRoots, hStateRoots⟩ :=
    Merkle.vectorRoot_defined s'.stateRoots.toList p.slotsPerHistoricalRoot_le hStates
  have hRegistry : s'.validators = s.validators ∧ s'.balances = s.balances ∧
      s'.randaoMixes = s.randaoMixes := by
    rw [hSame]
    exact ⟨rfl, rfl, rfl⟩
  obtain ⟨hSameValidators, hSameBalances, hSameMixes⟩ := hRegistry
  simp only [treeRoot, bind_eq_ok, pure_eq_ok, hBlockRoots, hStateRoots, hSameValidators,
    hSameBalances, hSameMixes, hValidators, hBalances, hMixes]
  exact ⟨_, _, rfl, _, rfl, _, rfl, _, rfl, _, rfl, rfl⟩

/-! ## The ring -/

/-- The state has come out of the block with the given root, and its ring tells which blocks were
the last ones up to the slots before that of the state. -/
structure Remembers (p : Preset) (last : Slot → Root → Prop) (root : Root) (s : BeaconState) :
    Prop where
  blockRoots_size : s.blockRoots.size = p.slotsPerHistoricalRoot.toNat
  stateRoots_size : s.stateRoots.size = p.slotsPerHistoricalRoot.toNat
  latest : ∃ stateRoot, s.treeRoot p = .ok stateRoot ∧
    (s.filledHeader stateRoot).treeRoot = root ∧ (s.filledHeader stateRoot).stateRoot ≠ 0
  now : ∀ t, s.slot ≤ t → last t root
  before : ∀ t, t < s.slot → s.slot.toNat ≤ t.toNat + p.slotsPerHistoricalRoot.toNat →
    ∃ a, last t a ∧ s.blockRoots[(t % p.slotsPerHistoricalRoot).toNat]? = some a

/-- A slot passes: its block is written down in its place. -/
theorem processSlot_eq (h : s.treeRoot p = .ok stateRoot)
    (hBlocks : s.blockRoots.size = p.slotsPerHistoricalRoot.toNat)
    (hStates : s.stateRoots.size = p.slotsPerHistoricalRoot.toNat) :
    s.processSlot p = .ok { s with
      stateRoots := s.stateRoots.setIfInBounds (s.slot % p.slotsPerHistoricalRoot).toNat stateRoot
      latestBlockHeader := s.filledHeader stateRoot
      blockRoots := s.blockRoots.setIfInBounds (s.slot % p.slotsPerHistoricalRoot).toNat
        (s.filledHeader stateRoot).treeRoot } := by
  have hSet : ∀ (roots : Array Root) (r : Root), roots.size = p.slotsPerHistoricalRoot.toNat →
      Checked.setAt roots (s.slot % p.slotsPerHistoricalRoot).toNat r =
        .ok (roots.setIfInBounds (s.slot % p.slotsPerHistoricalRoot).toNat r) := by
    intro roots r hSize
    exact if_pos (hSize ▸ p.historicalPlace_lt s.slot)
  simp only [processSlot, bind_eq_ok, pure_eq_ok]
  exact ⟨stateRoot, h, _, hSet _ _ hStates, _, hSet _ _ hBlocks, rfl⟩

namespace Remembers

/-- The root of the latest block can be read at any time. -/
theorem latestBlockRoot (h : Remembers p last root s) : Devnet.latestBlockRoot p s = .ok root := by
  obtain ⟨stateRoot, hStateRoot, hRoot, -⟩ := h.latest
  rw [latestBlockRoot_eq hStateRoot, hRoot]

/-- An entry of the window is what a query gives, unless the end of the window does not fit into a
word. -/
theorem blockRootAt (h : Remembers p last root s) (hBefore : t < s.slot)
    (hWindow : s.slot.toNat ≤ t.toNat + p.slotsPerHistoricalRoot.toNat) :
    ∃ a, last t a ∧ ∀ bound, Word.add t p.slotsPerHistoricalRoot = .ok bound →
      s.blockRootAt p t = .ok a := by
  obtain ⟨a, hLast, hEntry⟩ := h.before t hBefore hWindow
  refine ⟨a, hLast, fun bound hBound => ?_⟩
  have hSum := Word.add_eq_ok.mp hBound
  have hInside : ¬bound < s.slot := by
    rw [UInt64.lt_iff_toNat_lt]
    omega
  simp only [BeaconState.blockRootAt, if_neg (UInt64.not_le.mpr hBefore), bind_eq_ok,
    Checked.liftM_eq, Checked.toOutcome_eq_ok]
  refine ⟨bound, hBound, ?_⟩
  rw [if_neg hInside, Checked.toOutcome_eq_ok, Checked.getAt, hEntry]

/-- When the slot of the state has passed and its block is written down, the ring tells about this
slot, too. Only the slot that has left the window is not told of any more. -/
theorem entry_after (h : Remembers p last root s) (ht : t.toNat ≤ s.slot.toNat)
    (hWindow : s.slot.toNat < t.toNat + p.slotsPerHistoricalRoot.toNat) :
    ∃ a, last t a ∧
      (s.blockRoots.setIfInBounds (s.slot % p.slotsPerHistoricalRoot).toNat root)[
        (t % p.slotsPerHistoricalRoot).toNat]? = some a := by
  by_cases hSame : t = s.slot
  · subst hSame
    have hPlace : (s.slot % p.slotsPerHistoricalRoot).toNat < s.blockRoots.size := by
      rw [h.blockRoots_size]
      exact p.historicalPlace_lt s.slot
    refine ⟨root, h.now _ (UInt64.le_refl _), ?_⟩
    rw [Array.getElem?_setIfInBounds_self_of_lt hPlace]
  · have hBefore : t < s.slot := by
      have hNe : t.toNat ≠ s.slot.toNat := fun hEq => hSame (UInt64.toNat_inj.mp hEq)
      rw [UInt64.lt_iff_toNat_lt]
      omega
    obtain ⟨a, hLast, hEntry⟩ := h.before t hBefore (Nat.le_of_lt hWindow)
    -- The entry of an earlier slot of the window is in another place.
    have hOther := mod_ne_of_near hBefore hWindow
    refine ⟨a, hLast, ?_⟩
    rw [Array.getElem?_setIfInBounds_ne (Ne.symm hOther), hEntry]

/-- **One slot.** The entry of the slot that has passed is the latest block, and no entry that is
still in the window is overwritten. -/
theorem advance (h : Remembers p last root s) (hRoom : s.slot.toNat + 1 < UInt64.size) :
    ∃ s', s.processSlot p = .ok s' ∧
      Remembers p last root { s' with slot := s'.slot + 1 } ∧ s'.slot = s.slot := by
  obtain ⟨stateRoot, hStateRoot, hRoot, hFilled⟩ := h.latest
  have hSlot := processSlot_eq hStateRoot h.blockRoots_size h.stateRoots_size
  have hAged := processSlot_aged hSlot
  have hNext := Word.toNat_succ hRoom
  let place := (s.slot % p.slotsPerHistoricalRoot).toNat
  let blockRoots := s.blockRoots.setIfInBounds place (s.filledHeader stateRoot).treeRoot
  let stateRoots := s.stateRoots.setIfInBounds place stateRoot
  have hBlocks : blockRoots.size = p.slotsPerHistoricalRoot.toNat := by
    rw [Array.size_setIfInBounds, h.blockRoots_size]
  have hStates : stateRoots.size = p.slotsPerHistoricalRoot.toNat := by
    rw [Array.size_setIfInBounds, h.stateRoots_size]
  let passed : BeaconState := { s with
    stateRoots := stateRoots
    latestBlockHeader := s.filledHeader stateRoot
    blockRoots := blockRoots }
  refine ⟨passed, hSlot, ?_, rfl⟩
  have hMoved : s.Aged { passed with slot := s.slot + 1 } := BeaconState.Aged.trans hAged rfl
  exact {
    blockRoots_size := hBlocks
    stateRoots_size := hStates
    latest := by
      obtain ⟨stateRoot', hNew⟩ := treeRoot_defined hStateRoot (Nat.le_of_eq hBlocks)
        (Nat.le_of_eq hStates) hMoved.sameNetwork
      -- The header is filled in now, and stays as it is.
      refine ⟨stateRoot', hNew, ?_, ?_⟩
      · rw [filledHeader_of_filled hFilled]
        exact hRoot
      · rw [filledHeader_of_filled hFilled]
        exact hFilled
    now := by
      intro t ht
      refine h.now t ?_
      rw [UInt64.le_iff_toNat_le] at ht ⊢
      change (s.slot + 1).toNat ≤ t.toNat at ht
      omega
    before := by
      intro t ht hWindow
      change t.toNat < (s.slot + 1).toNat at ht
      change (s.slot + 1).toNat ≤ t.toNat + p.slotsPerHistoricalRoot.toNat at hWindow
      show ∃ a, last t a ∧ blockRoots[_]? = some a
      rw [hNext] at ht hWindow
      have hEntry := h.entry_after (Nat.le_of_lt_succ ht) hWindow
      rwa [← hRoot] at hEntry }

/-- **Slots.** The window moves on with the state. -/
theorem advanceBy (h : Remembers p last root s) {count : Nat}
    (hRoom : s.slot.toNat + count < UInt64.size) :
    ∃ s', BeaconState.advanceBy p count s = .ok s' ∧ s'.slot.toNat = s.slot.toNat + count ∧
      Remembers p last root s' := by
  induction count generalizing s with
  | zero => exact ⟨s, rfl, rfl, h⟩
  | succ count ih =>
    obtain ⟨first, hFirst, hNext, hSlot⟩ := h.advance (by omega)
    have hMoved : (first.slot + 1).toNat = s.slot.toNat + 1 := by
      rw [hSlot]
      exact Word.toNat_succ (by omega)
    obtain ⟨s', hRest, hEnd, hs'⟩ := ih hNext (by
      show (first.slot + 1).toNat + count < UInt64.size
      omega)
    refine ⟨s', ?_, ?_, hs'⟩
    · rw [BeaconState.advanceBy, hFirst]
      exact hRest
    · change s'.slot.toNat = (first.slot + 1).toNat + count at hEnd
      omega

theorem processSlots (h : Remembers p last root s) (hLater : s.slot < slot) :
    ∃ s', (slotTransition p).processSlots s slot = .ok s' ∧ s'.slot = slot ∧
      Remembers p last root s' := by
  have hLt : s.slot.toNat < slot.toNat := hLater
  have hCount : (slot - s.slot).toNat = slot.toNat - s.slot.toNat :=
    UInt64.toNat_sub_of_le slot s.slot (UInt64.le_of_lt hLater)
  have hTarget : slot.toNat < UInt64.size := slot.toNat_lt
  have hRoom : s.slot.toNat + (slot - s.slot).toNat < UInt64.size := by omega
  obtain ⟨s', hMoved, hEnd, hs'⟩ := h.advanceBy hRoom
  refine ⟨s', ?_, UInt64.toNat_inj.mp (by omega), hs'⟩
  show (s.processSlots p slot).toOutcome = .ok s'
  rw [BeaconState.processSlots, if_neg (UInt64.not_le.mpr hLater), Progress.toOutcome_ofChecked]
  exact hMoved

end Remembers

/-! ## Blocks -/

/-- The header of a block, once its state root is filled in, has the root of the block. -/
theorem filledHeader_of_block {b : Block} {header : BlockHeader} (hRoot : b.treeRoot = .ok root)
    (hHeader : b.header = .ok header)
    (hLatest : s.latestBlockHeader = { header with stateRoot := 0 }) :
    (s.filledHeader b.stateRoot).treeRoot = root ∧
      (s.filledHeader b.stateRoot).stateRoot = b.stateRoot := by
  have hMissing : s.latestBlockHeader.stateRoot = 0 := by rw [hLatest]
  have hFilled : s.filledHeader b.stateRoot = header := by
    rw [filledHeader, if_pos hMissing, hLatest]
    simp only [Block.header, bind_eq_ok, pure_eq_ok] at hHeader
    obtain ⟨bodyRoot, -, rfl⟩ := hHeader
    rfl
  rw [hFilled]
  simp only [Block.treeRoot, hHeader, ok_bind, pure_eq_ok] at hRoot
  simp only [Block.header, bind_eq_ok, pure_eq_ok] at hHeader
  obtain ⟨bodyRoot, -, rfl⟩ := hHeader
  exact ⟨hRoot, rfl⟩

/-- **A block.** The ring of the state before it has been moved on to the slot of the block, and
what it tells is true of the chain of the block, too. -/
theorem Remembers.applyBlock {b : Block} {last' : Slot → Root → Prop}
    (h : Remembers p last b.parentRoot s) (hApply : (slotTransition p).applyBlock s b = .ok s')
    (hRoot : b.treeRoot = .ok root) (hNonzero : b.stateRoot ≠ 0)
    (hNow : ∀ t, b.slot ≤ t → last' t root)
    (hBefore : ∀ t a, t < b.slot → last t a → last' t a) : Remembers p last' root s' := by
  obtain ⟨aged, header, -, hAged, hCheck, hHeader, rfl, hStateRoot⟩ :=
    exists_aged_of_applyBlock hApply
  have hSlot : aged.slot = b.slot := (checkHeader_eq_ok.mp hCheck).1.symm
  have hRing : Remembers p last b.parentRoot aged := by
    rcases hAged with rfl | hSlots
    · exact h
    · -- Slots have passed before the block, and it is certain what they lead to.
      have hLater : s.slot < b.slot := (processSlots_aged hSlots).1
      obtain ⟨moved, hMoved, -, hRing⟩ := h.processSlots hLater
      cases hMoved.symm.trans hSlots
      exact hRing
  have hLatest : ({ aged with latestBlockHeader := { header with stateRoot := 0 } } :
      BeaconState).latestBlockHeader = { header with stateRoot := 0 } := rfl
  obtain ⟨hFilled, hFilledRoot⟩ := filledHeader_of_block hRoot hHeader hLatest
  exact {
    blockRoots_size := hRing.blockRoots_size
    stateRoots_size := hRing.stateRoots_size
    latest := ⟨b.stateRoot, hStateRoot, hFilled, hFilledRoot ▸ hNonzero⟩
    now := fun t ht => hNow t (hSlot ▸ ht)
    before := by
      intro t ht hWindow
      obtain ⟨a, hLast, hEntry⟩ := hRing.before t ht hWindow
      exact ⟨a, hBefore t a (hSlot ▸ ht) hLast, hEntry⟩ }

end BeaconState

end ForkChoice
