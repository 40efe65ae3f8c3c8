import ForkChoice.Proofs.Store.Checkpoints

/-!
# ForkChoice — walks to an ancestor

A walk goes along a chain until it comes to a block that is not later than a slot, or to a root that
is not known, or until it has followed as many links as its bound allows. The bound counts links,
so one block more than that is looked at: a walk without links still looks at its beginning.

The bound can only take an answer away. Where there is one, it is a property of the chain alone, and
so walks can be composed: what is left of a longer walk after a shorter one is the walk from the end
of the shorter one, and it is within the bound because it is only a part. Because slots fall along
a chain, the walk up to the slot of a block also tells whether the block is on the chain.

* `StoreView.FirstUpTo`, `StoreView.LeavesAfter` — the two ways in which a chain can answer,
  `FirstUpTo.unique` — no chain answers twice;
* `exists_firstUpTo_iff` — seen from the anchor, the first block is the last one up to the slot;
* `FirstUpTo.rest` — a longer walk begins with a shorter one;
* `Grown.leavesAfter_iff` — only the beginning of a walk can be unknown;
* `StoreView.BoundedWalks` — what walks with a given bound tell, `boundedWalks_of_shows` — they tell
  it of all that can be read after genesis.
-/

namespace ForkChoice

namespace StoreView

variable {v : StoreView} {slot slot' : Slot} {a b r root : Root} {block : Block} {m n : Nat}

/-! ## What a chain answers -/

/-- The first block that is not later than `slot` on the chain that ends at `root` is `a`, which is
`n` links away. -/
def FirstUpTo (v : StoreView) (slot : Slot) (root : Root) (n : Nat) (a : Root) : Prop :=
  v.Above slot root n ∧ v.back n root = some a ∧
    ∃ block, v.block? a = some block ∧ block.slot ≤ slot

/-- The chain that ends at `root` leaves the store after `n` links, and all blocks before are later
than `slot`. -/
def LeavesAfter (v : StoreView) (slot : Slot) (root : Root) (n : Nat) : Prop :=
  v.Above slot root n ∧ ∃ a, v.back n root = some a ∧ v.block? a = none

/-- **First and last.** Going back along a chain, the first block that is not later than a slot is
the last block up to the slot. -/
theorem exists_firstUpTo_iff (hv : v.AnchoredAtGenesis) :
    (∃ n, v.FirstUpTo slot root n a) ↔ v.LastUpTo slot root a := by
  constructor
  · rintro ⟨n, hAbove, hBack, block, hBlock, hSlot⟩
    induction n generalizing root with
    | zero =>
      cases hBack
      exact .here hBlock hSlot
    | succ n ih =>
      -- The first link leads from a block that is too late to the rest of the way.
      obtain ⟨first, hFirst, hLate⟩ := hAbove.first
      have hParent := parent?_eq hFirst (hv.ne_anchor hFirst hLate)
      rw [back_succ_of_parent hParent] at hBack
      exact .next hFirst hLate (ih ((above_succ hFirst hLate hParent).mp hAbove) hBack)
  · intro h
    induction h with
    | here hBlock hSlot =>
      exact ⟨0, fun m hm => absurd hm (Nat.not_lt_zero m), rfl, _, hBlock, hSlot⟩
    | next hBlock hLate _ ih =>
      obtain ⟨n, hAbove, hBack, hEnd⟩ := ih
      have hParent := parent?_eq hBlock (hv.ne_anchor hBlock hLate)
      exact ⟨n + 1, (above_succ hBlock hLate hParent).mpr hAbove,
        by rwa [back_succ_of_parent hParent], hEnd⟩

/-- Blocks that are all later than a slot do not reach beyond the first one that is not. -/
theorem FirstUpTo.le_of_above (h : v.FirstUpTo slot' root n b) (hAbove : v.Above slot root m)
    (hEarlier : slot' ≤ slot) : m ≤ n := by
  obtain ⟨-, hBack, block, hBlock, hSlot⟩ := h
  by_contra hPast
  obtain ⟨r, block', hBack', hBlock', hLate⟩ := hAbove n (Nat.not_le.mp hPast)
  cases hBack.symm.trans hBack'
  cases hBlock.symm.trans hBlock'
  exact absurd (UInt64.le_trans hSlot hEarlier) (UInt64.not_le.mpr hLate)

/-- A chain has only one first block up to a slot. -/
theorem FirstUpTo.unique (h : v.FirstUpTo slot root n a) (h' : v.FirstUpTo slot root m b) :
    n = m ∧ a = b := by
  have hSame : n = m := Nat.le_antisymm (h'.le_of_above h.1 (UInt64.le_refl _))
    (h.le_of_above h'.1 (UInt64.le_refl _))
  subst hSame
  exact ⟨rfl, Option.some.inj (h.2.1.symm.trans h'.2.1)⟩

/-- **Composition.** The way to the first block up to an earlier slot leads over the first block up
to a later one. -/
theorem FirstUpTo.rest (h : v.FirstUpTo slot root m a) (h' : v.FirstUpTo slot' root n b)
    (hEarlier : slot' ≤ slot) : ∃ k, m + k = n ∧ v.FirstUpTo slot' a k b := by
  obtain ⟨k, rfl⟩ := Nat.exists_eq_add_of_le (h'.le_of_above h.1 hEarlier)
  obtain ⟨-, hFirst, -⟩ := h
  obtain ⟨hAbove, hBack, hEnd⟩ := h'
  -- After `m` links of the longer way, `a` is where it has come to.
  have hFrom : ∀ j, v.back (m + j) root = v.back j a := fun j => by
    rw [back_add, hFirst, Option.bind_some]
  refine ⟨k, rfl, ?_, by rwa [hFrom] at hBack, hEnd⟩
  intro j hj
  rw [← hFrom]
  exact hAbove (m + j) (by omega)

/-- A block is the first one up to its own slot on the chains of its descendants. -/
theorem Descending.firstUpTo (hv : v.Descending) (hBlock : v.block? a = some block)
    (hBack : v.back n root = some a) : v.FirstUpTo block.slot root n a :=
  ⟨hv.above hBlock hBack, hBack, block, hBlock, UInt64.le_refl _⟩

/-- In a tree that has grown from genesis a chain leaves the store at once, or never. -/
theorem Grown.leavesAfter_iff [HashFunction] (hv : v.Grown) :
    v.LeavesAfter slot root n ↔ n = 0 ∧ v.block? root = none := by
  constructor
  · rintro ⟨hAbove, a, hBack, hUnknown⟩
    cases n with
    | zero =>
      cases hBack
      exact ⟨rfl, hUnknown⟩
    | succ n =>
      -- The ancestors of a known block are known.
      obtain ⟨block, hBlock, -⟩ := hAbove.first
      obtain ⟨ancestor, hKnown, -⟩ := hv.descending.slot_lt hBlock hBack
      exact absurd (hUnknown.symm.trans hKnown) (by simp)
  · rintro ⟨rfl, hUnknown⟩
    exact ⟨fun m hm => absurd hm (Nat.not_lt_zero m), root, rfl, hUnknown⟩

/-! ## Other bounds -/

/-- The same view with another bound on walks. -/
def withDepth (v : StoreView) (depth : UInt64) : StoreView :=
  { v with limits := { v.limits with maxAncestorDepth := depth } }

@[simp] theorem reach_withDepth (depth : UInt64) : (v.withDepth depth).reach = depth.toNat :=
  rfl

/-- Links do not depend on the bound. -/
@[simp] theorem back_withDepth (depth : UInt64) : (v.withDepth depth).back n r = v.back n r := by
  induction n generalizing r with
  | zero => rfl
  | succ n ih =>
    show (v.parent? r).bind ((v.withDepth depth).back n) = (v.parent? r).bind (v.back n)
    exact congrArg (v.parent? r).bind (funext fun _ => ih)

theorem above_withDepth (depth : UInt64) :
    (v.withDepth depth).Above slot r n ↔ v.Above slot r n := by
  unfold Above
  simp only [back_withDepth]
  rfl

theorem descends_withDepth (depth : UInt64) :
    (v.withDepth depth).Descends a r ↔ v.Descends a r := by
  unfold Descends
  simp only [back_withDepth]

theorem Descending.withDepth (hv : v.Descending) (depth : UInt64) :
    (v.withDepth depth).Descending :=
  ⟨hv.anchored, hv.parent⟩

/-! ## Bounded walks -/

/-- What walks of at most `depth` links tell. -/
structure BoundedWalks (v : StoreView) (depth : UInt64) : Prop where
  /-- A walk finds the first block that is not too late, if this is close enough. -/
  found : ∀ {root a : Root} {slot : Slot}, (v.withDepth depth).ancestor root slot = .ok (some a) ↔
    ∃ n ≤ depth.toNat, v.FirstUpTo slot root n a
  /-- A walk finds nothing if the chain leaves the store close enough. -/
  missing : ∀ {root : Root} {slot : Slot}, (v.withDepth depth).ancestor root slot = .ok none ↔
    ∃ n ≤ depth.toNat, v.LeavesAfter slot root n
  /-- In all other cases it is too long. -/
  tooLong : ∀ {root : Root} {slot : Slot},
    (v.withDepth depth).ancestor root slot = Outcome.fail (.ancestorDepthExceeded root depth) ↔
      ¬ (∃ n ≤ depth.toNat, ∃ a, v.FirstUpTo slot root n a) ∧
        ¬ ∃ n ≤ depth.toNat, v.LeavesAfter slot root n
  /-- A walk to an earlier slot can start from where a walk to a later slot has ended. -/
  composed : ∀ {root a b : Root} {slot slot' : Slot}, slot' ≤ slot →
    (v.withDepth depth).ancestor root slot = .ok (some a) →
      (v.withDepth depth).ancestor root slot' = .ok (some b) →
        (v.withDepth depth).ancestor a slot' = .ok (some b)
  /-- A walk up to the slot of a block tells whether the block is on the chain. -/
  member : ∀ {root c : Root} {block : Block} {result : Option Root}, v.block? c = some block →
    (v.withDepth depth).ancestor root block.slot = .ok result →
      (result = some c ↔ v.Descends c root)

namespace Descending

variable {depth : UInt64}

theorem ancestor_eq_found (hv : v.Descending) :
    (v.withDepth depth).ancestor root slot = .ok (some a) ↔
      ∃ n ≤ depth.toNat, v.FirstUpTo slot root n a := by
  rw [ancestor_eq_some (hv.withDepth depth).anchored]
  simp only [above_withDepth, back_withDepth, reach_withDepth]
  rfl

theorem ancestor_eq_missing (hv : v.Descending) :
    (v.withDepth depth).ancestor root slot = .ok none ↔
      ∃ n ≤ depth.toNat, v.LeavesAfter slot root n := by
  rw [ancestor_eq_none (hv.withDepth depth).anchored]
  simp only [above_withDepth, back_withDepth, reach_withDepth]
  rfl

/-- A walk that does not come to an end fails, and in one way only. -/
theorem ancestor_eq_tooLong (hv : v.Descending) :
    (v.withDepth depth).ancestor root slot = Outcome.fail (.ancestorDepthExceeded root depth) ↔
      ¬ (∃ n ≤ depth.toNat, ∃ a, v.FirstUpTo slot root n a) ∧
        ¬ ∃ n ≤ depth.toNat, v.LeavesAfter slot root n := by
  rw [← hv.ancestor_eq_missing]
  constructor
  · -- A walk that has failed has given neither of the two answers.
    intro hFails
    refine ⟨?_, fun hMissing => ?_⟩
    · rintro ⟨n, hn, a, hFirst⟩
      have hFound := hv.ancestor_eq_found.mpr ⟨n, hn, hFirst⟩
      exact absurd (hFails.symm.trans hFound) (by simp [Outcome.fail])
    · exact absurd (hFails.symm.trans hMissing) (by simp [Outcome.fail])
  · rintro ⟨hNotFound, hNotMissing⟩
    cases hWalk : (v.withDepth depth).ancestor root slot with
    | error e => rw [((ancestor_eq_error (hv.withDepth depth).anchored).mp hWalk).2]; rfl
    | ok result =>
      cases result with
      | none => exact absurd hWalk hNotMissing
      | some a =>
        obtain ⟨n, hn, hFirst⟩ := hv.ancestor_eq_found.mp hWalk
        exact absurd ⟨n, hn, a, hFirst⟩ hNotFound

/-- Wherever slots fall along the links, walks tell what the chains are. -/
theorem boundedWalks (hv : v.Descending) (depth : UInt64) : v.BoundedWalks depth where
  found := hv.ancestor_eq_found
  missing := hv.ancestor_eq_missing
  tooLong := hv.ancestor_eq_tooLong
  composed hEarlier hFirst hSecond := by
    obtain ⟨m, -, hm⟩ := hv.ancestor_eq_found.mp hFirst
    obtain ⟨n, hn, hn'⟩ := hv.ancestor_eq_found.mp hSecond
    -- What is left to follow is a part of the longer walk, and so within the bound.
    obtain ⟨k, rfl, hRest⟩ := hm.rest hn' hEarlier
    exact hv.ancestor_eq_found.mpr ⟨k, by omega, hRest⟩
  member hBlock hWalk := by
    rw [← descends_withDepth depth]
    exact (hv.withDepth depth).ancestor_eq_iff hBlock hWalk

end Descending

/-- **Walks to an ancestor.** In every store that comes from genesis and in every draft of it, and
for every bound, a walk finds the first block of the chain that is not too late if this is within
the bound, finds nothing if the chain leaves the store within the bound, and fails otherwise. Walks
can be composed, and tell what the ancestors of a block are. -/
theorem boundedWalks_of_shows [HashFunction] [SignatureScheme] {s : Store} (hs : s.IsGenesis)
    (hv : s.Shows (slotTransition s.preset) v) (depth : UInt64) : v.BoundedWalks depth :=
  (grownFrom_of_shows hs hv).grown.descending.boundedWalks depth

/-- Two blocks in a row. The anchor is two links away from the second one: a walk of at most one
link finds the first block, and does not reach the anchor. -/
theorem boundedWalks_of_chained :
    letI : HashFunction := Engine.linearHash
    letI : SignatureScheme := Bls.scheme
    ∃ (n : Engine.ChainedNetwork) (v : StoreView) (first second : Root),
      Engine.chainedNetwork = some n ∧ n.store.IsGenesis ∧
        n.store.Shows (slotTransition n.store.preset) v ∧ v.BoundedWalks 1 ∧
          v.block? first = some n.first ∧ v.block? second = some n.second ∧
            v.FirstUpTo 0 second 2 v.anchorRoot ∧
              (v.withDepth 1).ancestor second 1 = .ok (some first) ∧
                (v.withDepth 1).ancestor second 0 =
                  Outcome.fail (.ancestorDepthExceeded second 1) := by
  let : HashFunction := Engine.linearHash
  let : SignatureScheme := Bls.scheme
  let history (n : Engine.ChainedNetwork) : List Transaction :=
    [⟨[.tick 18, .block n.first, .block n.second], true⟩]
  let after (n : Engine.ChainedNetwork) : StoreView :=
    (n.store.after (slotTransition n.store.preset) (history n)).view
  have hRuns : (Engine.chainedNetwork.any fun n =>
      n.first.treeRoot.toOption.any fun first => n.second.treeRoot.toOption.any fun second =>
        decide ((after n).block? first = some n.first) &&
          decide ((after n).block? second = some n.second) &&
            decide ((after n).back 1 second = some first) &&
              decide ((after n).back 2 second = some (after n).anchorRoot) &&
                decide (n.first.slot = 1)) = true := by
    decide +kernel
  obtain ⟨n, hNetwork, hs, hRun⟩ := Engine.exists_chainedNetwork hRuns
  simp only [Bool.and_eq_true, Option.any_eq_true, decide_eq_true_eq] at hRun
  obtain ⟨first, -, second, -, ⟨⟨⟨hFirst, hSecond⟩, hLink⟩, hLinks⟩, hSlot⟩ := hRun
  have hShows : n.store.Shows (slotTransition n.store.preset) (after n) := ⟨history n, Or.inl rfl⟩
  have hWalks := boundedWalks_of_shows hs hShows 1
  have hGrown := (grownFrom_of_shows hs hShows).grown
  have hNear := hGrown.descending.firstUpTo hFirst hLink
  rw [hSlot] at hNear
  obtain ⟨anchor, hAnchor, hZero⟩ := hGrown.anchor
  have hFar := hGrown.descending.firstUpTo hAnchor hLinks
  rw [hZero] at hFar
  refine ⟨n, _, first, second, hNetwork, hs, hShows, hWalks, hFirst, hSecond, hFar,
    hWalks.found.mpr ⟨1, Nat.le_refl _, hNear⟩, hWalks.tooLong.mpr ⟨?_, ?_⟩⟩
  · rintro ⟨m, hm, a, hOther⟩
    -- The anchor is the only answer, and two links are more than one.
    rw [(hOther.unique hFar).1] at hm
    exact absurd hm (by decide)
  · rintro ⟨m, -, hLeaves⟩
    rw [(hGrown.leavesAfter_iff.mp hLeaves).2] at hSecond
    exact absurd hSecond (by simp)

end StoreView

end ForkChoice
