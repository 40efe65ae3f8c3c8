import ForkChoice.Proofs.Outcome
import ForkChoice.Store.View

/-!
# ForkChoice — the tree of known blocks

The block tree as the parent links span it, apart from how a store looks blocks up. The anchor is
the root of the tree: the link in it is not followed, whatever it points to.

* `StoreView.parent?`, `StoreView.back` — one link, and any number of links;
* `StoreView.Descends` — a block is on the chain that ends at another one;
* `StoreView.Extends` — more blocks are known, which leaves the links as they are (`back_mono`);
* `StoreView.Above` — the first blocks of a chain are known and later than a slot;
* `ancestor_eq_error`, `ancestor_eq_some`, `ancestor_eq_none` — when a bounded walk is too long,
  what it finds, and when it leaves the store;
* `StoreView.Descending` — slots fall along the links, which makes the walk up to the slot of a
  known block find that block if and only if it is an ancestor (`ancestor_eq_iff`).
-/

namespace ForkChoice

namespace StoreView

variable {v : StoreView} {slot : Slot} {a b c r : Root} {fuel k m n : Nat} {block : Block}

/-! ## Links -/

/-- The parent of a block other than the anchor. -/
def parent? (v : StoreView) (root : Root) : Option Root :=
  if root = v.anchorRoot then none else (v.block? root).map Block.parentRoot

/-- What is reached from `root` by following links. -/
def back (v : StoreView) : Nat → Root → Option Root
  | 0, root => some root
  | n + 1, root => (v.parent? root).bind (back v n)

/-- Whether `a` is on the chain that ends at `root`: `root` itself, or an ancestor of it. -/
def Descends (v : StoreView) (a root : Root) : Prop :=
  ∃ n, v.back n root = some a

theorem parent?_eq_some :
    v.parent? r = some a ↔
      r ≠ v.anchorRoot ∧ ∃ block, v.block? r = some block ∧ block.parentRoot = a := by
  unfold parent?
  split <;> simp_all

theorem parent?_eq (hBlock : v.block? r = some block) (hAnchor : r ≠ v.anchorRoot) :
    v.parent? r = some block.parentRoot :=
  parent?_eq_some.mpr ⟨hAnchor, block, hBlock, rfl⟩

@[simp] theorem back_zero : v.back 0 r = some r :=
  rfl

theorem back_succ : v.back (n + 1) r = (v.parent? r).bind (v.back n) :=
  rfl

theorem back_succ_of_parent (h : v.parent? r = some a) : v.back (n + 1) r = v.back n a := by
  rw [back_succ, h, Option.bind_some]

/-- Following links one after another. -/
theorem back_add : v.back (m + n) r = (v.back m r).bind (v.back n) := by
  induction m generalizing r with
  | zero => simp
  | succ m ih =>
    rw [Nat.succ_add, back_succ, back_succ]
    cases v.parent? r with
    | none => rfl
    | some p => exact ih

theorem Descends.refl (v : StoreView) (r : Root) : v.Descends r r :=
  ⟨0, rfl⟩

theorem Descends.trans (ha : v.Descends a b) (hb : v.Descends b r) : v.Descends a r := by
  obtain ⟨m, hm⟩ := ha
  obtain ⟨n, hn⟩ := hb
  exact ⟨n + m, by rw [back_add, hn, Option.bind_some, hm]⟩

/-- The chain of the anchor is the anchor. -/
theorem Descends.eq_anchor (h : v.Descends a v.anchorRoot) : a = v.anchorRoot := by
  obtain ⟨n, hn⟩ := h
  cases n with
  | zero => exact (Option.some.inj hn).symm
  | succ n =>
    rw [back_succ, parent?, if_pos rfl] at hn
    exact absurd hn (by simp)

/-- The chain of another block goes on with that of its parent. -/
theorem Descends.of_parent? (hParent : v.parent? r = some b) (h : v.Descends a r) :
    a = r ∨ v.Descends a b := by
  obtain ⟨n, hn⟩ := h
  cases n with
  | zero => exact Or.inl (Option.some.inj hn).symm
  | succ n =>
    rw [back_succ_of_parent hParent] at hn
    exact Or.inr ⟨n, hn⟩

/-- Of two blocks on one chain, one is on the chain of the other. -/
theorem Descends.total (ha : v.Descends a r) (hb : v.Descends b r) :
    v.Descends a b ∨ v.Descends b a := by
  obtain ⟨m, hm⟩ := ha
  obtain ⟨n, hn⟩ := hb
  -- The shorter of the two ways is the beginning of the longer one.
  rcases Nat.le_total m n with hle | hle
  · right
    obtain ⟨k, rfl⟩ := Nat.exists_eq_add_of_le hle
    exact ⟨k, by rwa [back_add, hm, Option.bind_some] at hn⟩
  · left
    obtain ⟨k, rfl⟩ := Nat.exists_eq_add_of_le hle
    exact ⟨k, by rwa [back_add, hn, Option.bind_some] at hm⟩

/-- All blocks of `v` are known in `v'`. -/
def Extends (v v' : StoreView) : Prop :=
  ∀ r block, v.block? r = some block → v'.block? r = some block

theorem Extends.refl (v : StoreView) : Extends v v :=
  fun _ _ => id

theorem Extends.trans {v' v'' : StoreView} (h : Extends v v') (h' : Extends v' v'') :
    Extends v v'' :=
  fun r block hBlock => h' r block (h r block hBlock)

/-- Links stay as they are when blocks are added. -/
theorem back_mono {v' : StoreView} (hAnchor : v'.anchorRoot = v.anchorRoot)
    (hBlocks : Extends v v') (h : v.back n r = some a) : v'.back n r = some a := by
  induction n generalizing r with
  | zero => exact h
  | succ n ih =>
    rw [back_succ] at h
    obtain ⟨p, hp, hn⟩ := Option.bind_eq_some_iff.mp h
    obtain ⟨hNe, block, hBlock, hParent⟩ := parent?_eq_some.mp hp
    rw [back_succ_of_parent (parent?_eq_some.mpr
      ⟨hAnchor ▸ hNe, block, hBlocks r block hBlock, hParent⟩)]
    exact ih hn

/-! ## Bounded walks -/

/-- The first `n` blocks of the chain that ends at `root` are known and later than `slot`. -/
def Above (v : StoreView) (slot : Slot) (root : Root) (n : Nat) : Prop :=
  ∀ m < n, ∃ r block, v.back m root = some r ∧ v.block? r = some block ∧ slot < block.slot

/-- The anchor is a block of the first slot. -/
def AnchoredAtGenesis (v : StoreView) : Prop :=
  ∀ block, v.block? v.anchorRoot = some block → block.slot = 0

theorem AnchoredAtGenesis.ne_anchor (hv : v.AnchoredAtGenesis) (hBlock : v.block? r = some block)
    (hSlot : slot < block.slot) : r ≠ v.anchorRoot := by
  rintro rfl
  rw [hv block hBlock] at hSlot
  exact absurd hSlot (by simp)

theorem Above.mono (h : v.Above slot r n) (hle : m ≤ n) : v.Above slot r m :=
  fun k hk => h k (Nat.lt_of_lt_of_le hk hle)

theorem above_succ (hBlock : v.block? r = some block) (hSlot : slot < block.slot)
    (hParent : v.parent? r = some a) : v.Above slot r (n + 1) ↔ v.Above slot a n := by
  constructor
  · intro h m hm
    have := h (m + 1) (by omega)
    rwa [back_succ_of_parent hParent] at this
  · rintro h (_ | m) hm
    · exact ⟨r, block, rfl, hBlock, hSlot⟩
    · rw [back_succ_of_parent hParent]
      exact h m (by omega)

theorem Above.first (h : v.Above slot r (n + 1)) :
    ∃ block, v.block? r = some block ∧ slot < block.slot := by
  obtain ⟨r', block, hBack, hBlock, hLate⟩ := h 0 (by omega)
  cases hBack
  exact ⟨block, hBlock, hLate⟩

/-- The walk is too long if and only if all blocks that it may visit are too late. -/
theorem ancestorFrom_eq_none (hv : v.AnchoredAtGenesis) :
    v.ancestorFrom slot fuel r = none ↔ v.Above slot r fuel := by
  induction fuel generalizing r with
  | zero => simp [ancestorFrom, Above]
  | succ fuel ih =>
    rw [ancestorFrom]
    cases hBlock : v.block? r with
    | none =>
      simp only [reduceCtorEq, false_iff]
      intro h
      obtain ⟨block, hSome, -⟩ := h.first
      rw [hBlock] at hSome
      exact absurd hSome (by simp)
    | some block =>
      by_cases hSlot : block.slot ≤ slot
      · simp only [hSlot, if_true, reduceCtorEq, false_iff]
        intro h
        obtain ⟨block', hSome, hLate⟩ := h.first
        cases hBlock.symm.trans hSome
        exact absurd hLate (UInt64.not_lt.mpr hSlot)
      · -- A block that is too late is not the anchor, so the walk goes on along a link.
        have hLate := UInt64.not_le.mp hSlot
        have hParent := parent?_eq hBlock (hv.ne_anchor hBlock hLate)
        simp only [hSlot, if_false]
        rw [ih, above_succ hBlock hLate hParent]

/-- What a walk up to `slot` says at `a`: that the chain has left the store, or that the block is
not too late. -/
def StopsAt (v : StoreView) (slot : Slot) (a : Root) : Option Root → Prop
  | none => v.block? a = none
  | some found => found = a ∧ ∃ block, v.block? a = some block ∧ block.slot ≤ slot

theorem StopsAt.not_later {result : Option Root} (h : v.StopsAt slot a result)
    (hBlock : v.block? a = some block) : block.slot ≤ slot := by
  cases result with
  | none => exact absurd (hBlock.symm.trans h) (by simp)
  | some found =>
    obtain ⟨-, block', hBlock', hSlot⟩ := h
    cases hBlock.symm.trans hBlock'
    exact hSlot

/-- The walk comes to an end if and only if there is a block close enough at which it stops, and
all blocks before are too late. -/
theorem ancestorFrom_eq_result (hv : v.AnchoredAtGenesis) {result : Option Root} :
    v.ancestorFrom slot fuel r = some result ↔
      ∃ n < fuel, v.Above slot r n ∧ ∃ a, v.back n r = some a ∧ v.StopsAt slot a result := by
  induction fuel generalizing r with
  | zero => simp [ancestorFrom]
  | succ fuel ih =>
    have hNothing : v.Above slot r 0 := fun m hm => absurd hm (Nat.not_lt_zero m)
    rw [ancestorFrom]
    cases hBlock : v.block? r with
    | none =>
      -- The chain has left the store, and there is nowhere to go on.
      simp only [Option.some.injEq]
      constructor
      · rintro rfl
        exact ⟨0, by omega, hNothing, r, rfl, hBlock⟩
      · rintro ⟨_ | n, -, hAbove, a, hBack, hStops⟩
        · cases hBack
          cases result with
          | none => rfl
          | some found =>
            obtain ⟨-, block, hSome, -⟩ := hStops
            exact absurd (hBlock.symm.trans hSome) (by simp)
        · obtain ⟨block, hSome, -⟩ := hAbove.first
          exact absurd (hBlock.symm.trans hSome) (by simp)
    | some block =>
      by_cases hSlot : block.slot ≤ slot
      · -- The walk ends here, as it would not if the block were one of those that are too late.
        simp only [hSlot, if_true, Option.some.injEq]
        constructor
        · rintro rfl
          exact ⟨0, by omega, hNothing, r, rfl, rfl, block, hBlock, hSlot⟩
        · rintro ⟨_ | n, -, hAbove, a, hBack, hStops⟩
          · cases hBack
            cases result with
            | none => exact absurd (hBlock.symm.trans hStops) (by simp)
            | some found => rw [hStops.1]
          · obtain ⟨block', hSome, hLate⟩ := hAbove.first
            cases hBlock.symm.trans hSome
            exact absurd hLate (UInt64.not_lt.mpr hSlot)
      · have hLate := UInt64.not_le.mp hSlot
        have hParent := parent?_eq hBlock (hv.ne_anchor hBlock hLate)
        simp only [hSlot, if_false]
        rw [ih]
        -- From the parent on it is one link less to the same end.
        constructor
        · rintro ⟨n, hn, hAbove, a, hBack, hStops⟩
          exact ⟨n + 1, by omega, (above_succ hBlock hLate hParent).mpr hAbove, a,
            by rwa [back_succ_of_parent hParent], hStops⟩
        · rintro ⟨_ | n, hn, hAbove, a, hBack, hStops⟩
          · cases hBack
            exact absurd (hStops.not_later hBlock) hSlot
          · exact ⟨n, by omega, (above_succ hBlock hLate hParent).mp hAbove, a,
              by rwa [back_succ_of_parent hParent] at hBack, hStops⟩

/-- The walk finds a block if and only if this is the first one of the chain that is not too
late, and close enough. -/
theorem ancestorFrom_eq_some (hv : v.AnchoredAtGenesis) :
    v.ancestorFrom slot fuel r = some (some a) ↔
      ∃ n < fuel, v.Above slot r n ∧ v.back n r = some a ∧
        ∃ block, v.block? a = some block ∧ block.slot ≤ slot := by
  rw [ancestorFrom_eq_result hv]
  constructor
  · rintro ⟨n, hn, hAbove, _, hBack, rfl, hEnd⟩
    exact ⟨n, hn, hAbove, hBack, hEnd⟩
  · rintro ⟨n, hn, hAbove, hBack, hEnd⟩
    exact ⟨n, hn, hAbove, a, hBack, rfl, hEnd⟩

/-- The greatest number of links that a walk follows. -/
def reach (v : StoreView) : Nat :=
  v.limits.maxAncestorDepth.toNat

theorem ancestor_eq_error (hv : v.AnchoredAtGenesis) {e : Failure StoreError} :
    v.ancestor r slot = .error e ↔
      v.Above slot r (v.reach + 1) ∧
        e = .error (.ancestorDepthExceeded r v.limits.maxAncestorDepth) := by
  rw [← ancestorFrom_eq_none hv, ancestor, reach]
  cases v.ancestorFrom slot (v.limits.maxAncestorDepth.toNat + 1) r <;> simp

theorem ancestor_eq_some (hv : v.AnchoredAtGenesis) :
    v.ancestor r slot = .ok (some a) ↔
      ∃ n ≤ v.reach, v.Above slot r n ∧ v.back n r = some a ∧
        ∃ block, v.block? a = some block ∧ block.slot ≤ slot := by
  have hFrom : v.ancestorFrom slot (v.reach + 1) r = some (some a) ↔ _ := ancestorFrom_eq_some hv
  simp only [Nat.lt_succ_iff] at hFrom
  rw [← hFrom, ancestor, reach]
  cases v.ancestorFrom slot (v.limits.maxAncestorDepth.toNat + 1) r <;> simp

theorem ancestor_eq_none (hv : v.AnchoredAtGenesis) :
    v.ancestor r slot = .ok none ↔
      ∃ n ≤ v.reach, v.Above slot r n ∧ ∃ a, v.back n r = some a ∧ v.block? a = none := by
  have hFrom : v.ancestorFrom slot (v.reach + 1) r = some none ↔ _ := ancestorFrom_eq_result hv
  simp only [Nat.lt_succ_iff] at hFrom
  show _ ↔ ∃ n ≤ v.reach, v.Above slot r n ∧ ∃ a, v.back n r = some a ∧ v.StopsAt slot a none
  rw [← hFrom, ancestor, reach]
  cases v.ancestorFrom slot (v.limits.maxAncestorDepth.toNat + 1) r <;> simp

/-! ## Slots along a chain -/

/-- The first block is the anchor, and each link leads to a known block of an earlier slot. -/
structure Descending (v : StoreView) : Prop where
  anchored : v.AnchoredAtGenesis
  parent : ∀ {r a : Root}, v.parent? r = some a →
    ∃ block parent, v.block? r = some block ∧ v.block? a = some parent ∧ parent.slot < block.slot

namespace Descending

variable {end_ : Block}

/-- An ancestor of a known block is known, and has an earlier slot. -/
theorem slot_lt (hv : v.Descending) (hBlock : v.block? r = some block)
    (hBack : v.back (n + 1) r = some a) :
    ∃ ancestor, v.block? a = some ancestor ∧ ancestor.slot < block.slot := by
  induction n generalizing r block with
  | zero =>
    rw [back_succ, Option.bind_eq_some_iff] at hBack
    obtain ⟨p, hParent, hEnd⟩ := hBack
    cases hEnd
    obtain ⟨block', parent, hBlock', hKnown, hLt⟩ := hv.parent hParent
    cases hBlock.symm.trans hBlock'
    exact ⟨parent, hKnown, hLt⟩
  | succ n ih =>
    rw [back_succ, Option.bind_eq_some_iff] at hBack
    obtain ⟨p, hParent, hRest⟩ := hBack
    obtain ⟨block', parent, hBlock', hKnown, hLt⟩ := hv.parent hParent
    cases hBlock.symm.trans hBlock'
    -- The parent is older, and the ancestor is older than the parent.
    obtain ⟨ancestor, hAncestor, hLt'⟩ := ih hKnown hRest
    exact ⟨ancestor, hAncestor, UInt64.lt_trans hLt' hLt⟩

/-- A block has no slot later than the blocks that descend from it. -/
theorem slot_le (hv : v.Descending) (hBlock : v.block? r = some block)
    (hAncestor : v.block? a = some end_) (h : v.Descends a r) : end_.slot ≤ block.slot := by
  obtain ⟨_ | n, hn⟩ := h
  · cases hn
    cases hBlock.symm.trans hAncestor
    exact UInt64.le_refl _
  · obtain ⟨ancestor, hAncestor', hLt⟩ := hv.slot_lt hBlock hn
    cases hAncestor.symm.trans hAncestor'
    exact UInt64.le_of_lt hLt

/-- The blocks between a block and an ancestor are later than the ancestor. -/
theorem above (hv : v.Descending) (hAncestor : v.block? a = some end_)
    (hBack : v.back n r = some a) : v.Above end_.slot r n := by
  intro m hm
  -- From the block after `m` links, at least one more link leads to the ancestor.
  obtain ⟨k, rfl⟩ := Nat.exists_eq_add_of_lt hm
  rw [Nat.add_assoc, back_add] at hBack
  obtain ⟨r', hFirst, hRest⟩ := Option.bind_eq_some_iff.mp hBack
  have hRest' := hRest
  rw [back_succ, Option.bind_eq_some_iff] at hRest'
  obtain ⟨p, hParent, -⟩ := hRest'
  obtain ⟨block, -, hBlock, -, -⟩ := hv.parent hParent
  obtain ⟨ancestor, hAncestor', hLt⟩ := hv.slot_lt hBlock hRest
  cases hAncestor.symm.trans hAncestor'
  exact ⟨r', block, hFirst, hBlock, hLt⟩

/-- **The slot of a known block tells its descendants.** A walk up to that slot which is not too
long finds the block if and only if it starts from a descendant. -/
theorem ancestor_eq_iff (hv : v.Descending) (hAncestor : v.block? a = some end_)
    {result : Option Root} (hResult : v.ancestor r end_.slot = .ok result) :
    result = some a ↔ v.Descends a r := by
  constructor
  · rintro rfl
    obtain ⟨n, -, -, hBack, -⟩ := (ancestor_eq_some hv.anchored).mp hResult
    exact ⟨n, hBack⟩
  · rintro ⟨n, hBack⟩
    have hAbove := hv.above hAncestor hBack
    -- The descendant is within reach, or else the walk would have been too long.
    by_cases hn : n ≤ v.reach
    · have hFound : v.ancestor r end_.slot = .ok (some a) :=
        (ancestor_eq_some hv.anchored).mpr
          ⟨n, hn, hAbove, hBack, end_, hAncestor, UInt64.le_refl _⟩
      rw [hResult] at hFound
      exact Except.ok.inj hFound
    · have hFails := (ancestor_eq_error hv.anchored).mpr
        ⟨hAbove.mono (by omega : v.reach + 1 ≤ n), rfl⟩
      rw [hResult] at hFails
      exact absurd hFails (by simp)

end Descending

end StoreView

end ForkChoice
