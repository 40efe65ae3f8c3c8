import ForkChoice.Proofs.Store.Head

/-!
# ForkChoice — when the search for the head fails

Two walks have the same bound. A block is admitted if the anchor is within reach of its parent, so
a block may be one link further away from the anchor than the bound says. The walk that counts a
vote starts from the block itself. It ends before the anchor if the block whose votes are counted
is as late as the first block on its way; but if a sibling of this first block is earlier, then the
walk up to the slot of the sibling goes on to the anchor, and that is one link too many.

* `StoreView.OneLinkTooFar` — a vote of this kind;
* `Grown.outOfReach_iff` — no other vote is out of reach;
* `Grown.head_eq_error_iff` — the search for the head fails if and only if there is such a vote.
-/

namespace ForkChoice

namespace StoreView

variable {v : StoreView} {messages : LatestMessages} {c p r : Root} {block : Block}

/-- A vote for a block that is one link further away from the anchor than walks reach, on a branch
whose first block has an earlier sibling. -/
def OneLinkTooFar (v : StoreView) (messages : LatestMessages) : Prop :=
  ∃ index message first sibling, messages.get? index = some message ∧
    v.back v.reach message.root = some first ∧ v.parent? first = some v.anchorRoot ∧
      v.parent? sibling = some v.anchorRoot ∧ v.slotAt sibling < v.slotAt first

/-- What one link leads to is what is reached with one link more. -/
theorem back_succ_end {n : Nat} {a first : Root} (hBack : v.back n r = some first) :
    v.back (n + 1) r = some a ↔ v.parent? first = some a := by
  rw [back_add, hBack, Option.bind_some, back_succ]
  cases v.parent? first <;> simp

/-- A support that is computed reaches the slot of the block from all roots. -/
theorem not_above_of_supportFrom (hv : v.AnchoredAtGenesis) {slot : Slot}
    {counts : List (Root × Nat)} {n : Nat} (h : v.supportFrom c slot counts = .ok n)
    {entry : Root × Nat} (hEntry : entry ∈ counts) : ¬ v.Above slot entry.1 (v.reach + 1) := by
  induction counts generalizing n with
  | nil => exact absurd hEntry List.not_mem_nil
  | cons first rest ih =>
    simp only [supportFrom, bind_eq_ok] at h
    obtain ⟨ancestor, hWalk, others, hOthers, -⟩ := h
    rcases List.mem_cons.mp hEntry with rfl | hRest
    · intro hAbove
      have hFails := (ancestor_eq_error hv).mpr ⟨hAbove, rfl⟩
      rw [hWalk] at hFails
      exact absurd hFails (by simp)
    · exact ih hOthers hRest

variable [HashFunction]

namespace Grown

/-- The chain of a block other than the anchor begins with a child of the anchor. -/
theorem exists_first (hv : v.Grown) (hBlock : v.block? c = some block) (hNe : c ≠ v.anchorRoot) :
    ∃ n ≤ v.reach, ∃ first, v.back n c = some first ∧ v.parent? first = some v.anchorRoot := by
  obtain ⟨n, hReach, hNear⟩ := (hv.placed hBlock hNe).near
  have hAnchor : v.back (n + 1) c = some v.anchorRoot := by
    rwa [back_succ_of_parent (parent?_eq hBlock hNe)]
  have hSplit := hAnchor
  rw [back_add, Option.bind_eq_some_iff] at hSplit
  obtain ⟨first, hFirst, -⟩ := hSplit
  exact ⟨n, hReach, first, hFirst, (back_succ_end hFirst).mp hAnchor⟩

/-- No known block is later than those that descend from it. -/
theorem slotAt_le (hv : v.Grown) {a : Root} (hParent : v.parent? a = some p)
    (hBlock : v.block? r = some block) (hDescends : v.Descends a r) :
    v.slotAt a ≤ v.slotAt r := by
  obtain ⟨first, hFirst⟩ := known_of_child hParent
  rw [slotAt_eq hFirst, slotAt_eq hBlock]
  exact hv.descending.slot_le hBlock hFirst hDescends

/-- A walk that is too long visits exactly the blocks up to a child of the anchor. -/
theorem first_of_above (hv : v.Grown) {slot : Slot} (hAbove : v.Above slot r (v.reach + 1)) :
    ∃ first, v.back v.reach r = some first ∧ v.parent? first = some v.anchorRoot ∧
      slot < v.slotAt first := by
  obtain ⟨block, hBlock, hLate⟩ := hAbove.first
  have hNe := hv.anchored.ne_anchor hBlock hLate
  obtain ⟨n, hReach, first, hFirst, hAnchor⟩ := hv.exists_first hBlock hNe
  -- If the anchor were closer, the walk would have stopped there, because its slot is zero.
  have hExact : n = v.reach := by
    by_contra hLess
    obtain ⟨anchor, hKnown, hZero⟩ := hv.anchor
    obtain ⟨a, last, hLast, hSome, hLater⟩ := hAbove (n + 1) (by omega)
    rw [(back_succ_end hFirst).mpr hAnchor] at hLast
    cases hLast
    cases hKnown.symm.trans hSome
    rw [hZero] at hLater
    exact absurd hLater UInt64.not_lt_zero
  subst hExact
  obtain ⟨a, last, hLast, hSome, hLater⟩ := hAbove v.reach (by omega)
  cases hFirst.symm.trans hLast
  exact ⟨first, hFirst, hAnchor, by rwa [slotAt_eq hSome]⟩

/-- The first blocks of a chain are later than a slot that a child of the anchor is later than. -/
theorem above_of_first (hv : v.Grown) {slot : Slot} {first : Root}
    (hFirst : v.back v.reach r = some first) (hAnchor : v.parent? first = some v.anchorRoot)
    (hLate : slot < v.slotAt first) : v.Above slot r (v.reach + 1) := by
  obtain ⟨block, hBlock⟩ := known_of_child hAnchor
  rw [slotAt_eq hBlock] at hLate
  intro m hm
  -- The blocks before the first one of the branch are even later than that.
  rcases Nat.lt_or_ge m v.reach with hLess | hEq
  · obtain ⟨a, last, hLast, hSome, hLater⟩ := hv.descending.above hBlock hFirst m hLess
    exact ⟨a, last, hLast, hSome, UInt64.lt_trans hLate hLater⟩
  · have hm : m = v.reach := by omega
    exact ⟨first, block, by rw [hm, hFirst], hBlock, hLate⟩

/-- A vote from which the slot of any block is out of reach is one link too far away from the
anchor. -/
theorem outOfReach_iff (hv : v.Grown) : v.OutOfReach messages ↔ v.OneLinkTooFar messages := by
  constructor
  · rintro ⟨c, p, root, hChild, hVoted, hAbove⟩
    obtain ⟨index, message, hMessage, rfl⟩ := LatestMessages.mem_votedRoots.mp hVoted
    obtain ⟨first, hFirst, hAnchor, hLate⟩ := hv.first_of_above hAbove
    -- The first block on the way to `c` is the sibling.
    obtain ⟨hNe, block, hBlock, -⟩ := parent?_eq_some.mp hChild
    obtain ⟨n, -, sibling, hSibling, hSiblingParent⟩ := hv.exists_first hBlock hNe
    have hEarly := hv.slotAt_le hSiblingParent hBlock ⟨n, hSibling⟩
    exact ⟨index, message, first, sibling, hMessage, hFirst, hAnchor, hSiblingParent,
      UInt64.lt_of_le_of_lt hEarly hLate⟩
  · -- The walk up to the slot of the sibling passes the first block of the branch.
    rintro ⟨index, message, first, sibling, hMessage, hFirst, hAnchor, hSibling, hLate⟩
    exact ⟨sibling, v.anchorRoot, message.root, hSibling,
      LatestMessages.mem_votedRoots.mpr ⟨index, message, hMessage, rfl⟩,
      hv.above_of_first hFirst hAnchor hLate⟩

theorem headStart_eq (hv : v.Grown) : v.headStart = v.anchorRoot := by
  rw [headStart, hv.justified]
  split <;> rfl

/-- **When the search fails.** The search for the head fails if and only if there is a vote that is
one link too far away from the anchor, on a branch whose first block has an earlier sibling. -/
theorem head_eq_error_iff (hv : v.Grown) (messages : LatestMessages) :
    (∃ root, v.head messages =
      Outcome.fail (.ancestorDepthExceeded root v.limits.maxAncestorDepth)) ↔
        v.OneLinkTooFar messages := by
  rw [← hv.outOfReach_iff]
  constructor
  · rintro ⟨root, hFails⟩
    rcases hv.head_eq messages with ⟨h, hFound, -⟩ | ⟨e, -, -, hFar⟩
    · rw [hFound] at hFails
      exact absurd hFails (by simp [Outcome.fail])
    · exact hFar
  · intro hFar
    rcases hv.head_eq messages with ⟨h, hFound, -⟩ | ⟨e, hFails, ⟨root, rfl⟩, -⟩
    · -- The search looks at all children of the anchor before it goes on.
      exfalso
      obtain ⟨index, message, first, sibling, hMessage, hFirst, hAnchor, hSibling, hLate⟩ :=
        hv.outOfReach_iff.mp hFar
      have hAbove := hv.above_of_first hFirst hAnchor hLate
      have hCounted : (message.root, messages.votedRoots.count message.root) ∈
          messages.voteCounts :=
        LatestMessages.mem_voteCounts.mpr
          ⟨LatestMessages.mem_votedRoots.mpr ⟨index, message, hMessage, rfl⟩, rfl⟩
      rw [head, headFrom, hv.headStart_eq, bind_eq_ok] at hFound
      obtain ⟨best, hBest, -⟩ := hFound
      have hMem := hv.mem_children.mpr hSibling
      have hPick := bestChild_eq_ok hBest
      cases best with
      | none =>
        have hNil : v.children v.anchorRoot = [] := hPick
        rw [hNil] at hMem
        exact absurd hMem List.not_mem_nil
      | some best =>
        obtain ⟨-, -, hAll⟩ := hPick
        obtain ⟨n, hSupport, -⟩ := hAll sibling hMem
        obtain ⟨block, hBlock⟩ := known_of_child hSibling
        rw [support_of_known hBlock, ← slotAt_eq hBlock] at hSupport
        exact not_above_of_supportFrom hv.anchored hSupport hCounted hAbove
    · exact ⟨root, hFails⟩

end Grown

end StoreView

end ForkChoice
