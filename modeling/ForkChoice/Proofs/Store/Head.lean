import Mathlib.Data.Finset.Max
import Mathlib.Data.Prod.Lex
import ForkChoice.Bls.Keys
import ForkChoice.Proofs.Store.Growth
import ForkChoice.Proofs.Store.Votes

/-!
# ForkChoice — the head is where the votes lead

The path that the votes lead along is defined on the tree alone: from a block it goes on to the
child with the greatest number of supporters, the greater root deciding among equals, and it ends
at a block without children. In a store that has grown from genesis the search for the head
follows this path. It reaches the end of it, unless a walk that counts votes is too long.

* `StoreView.IsBestChild`, `StoreView.LeadsTo` — the path;
* `LeadsTo.unique`, `Grown.exists_leadsTo` — it has one end;
* `LeadsTo.of_parent?` — links and votes are all that it depends on;
* `bestChild_eq_ok`, `Grown.headFrom_eq` — one step of the search, and all of it;
* `StoreView.FollowsVotes`, `followsVotes_of_shows` — what is known of the head.
-/

namespace ForkChoice

namespace StoreView

variable {v : StoreView} {messages : LatestMessages} {c p r h h' : Root} {block : Block}

/-! ## The path -/

/-- A child that has more supporters than any other child, or as many and a greater root. -/
structure IsBestChild (v : StoreView) (messages : LatestMessages) (p c : Root) : Prop where
  child : v.parent? c = some p
  best : ∀ c', v.parent? c' = some p → c' ≠ c →
    v.weight messages c' < v.weight messages c ∨
      (v.weight messages c' = v.weight messages c ∧ c' < c)

/-- The path from a block on, always to the best child, ends at the block `h`. -/
inductive LeadsTo (v : StoreView) (messages : LatestMessages) : Root → Root → Prop
  | leaf {r : Root} (hLeaf : ∀ c, v.parent? c ≠ some r) : LeadsTo v messages r r
  | step {p c h : Root} (hBest : v.IsBestChild messages p c) (hRest : LeadsTo v messages c h) :
    LeadsTo v messages p h

theorem IsBestChild.unique (hc : v.IsBestChild messages p c) (hr : v.IsBestChild messages p r) :
    c = r := by
  -- Each of two best children would go before the other.
  by_contra hNe
  have hLess := hc.best r hr.child (Ne.symm hNe)
  have hLess' := hr.best c hc.child hNe
  rw [BitVec.lt_def] at hLess hLess'
  omega

/-- The path has no other end. -/
theorem LeadsTo.unique (hl : v.LeadsTo messages r h) (hl' : v.LeadsTo messages r h') : h = h' := by
  induction hl with
  | leaf hLeaf =>
    cases hl' with
    | leaf => rfl
    | step hBest _ => exact absurd hBest.child (hLeaf _)
  | step hBest _ ih =>
    cases hl' with
    | leaf hLeaf => exact absurd hBest.child (hLeaf _)
    | step hBest' hRest' =>
      rw [hBest'.unique hBest] at hRest'
      exact ih hRest'

/-- The votes for a block are told by the links alone. -/
theorem weight_eq {v' : StoreView} (hParent : v'.parent? = v.parent?) :
    v'.weight messages r = v.weight messages r := by
  have hBack : ∀ n r, v'.back n r = v.back n r := by
    intro n
    induction n with
    | zero => exact fun _ => rfl
    | succ n ih =>
      intro r
      rw [back_succ, back_succ, hParent, funext ih]
  simp only [weight, supporters, Descends, hBack]

/-- The path is told by votes and links alone, in whatever order the blocks have come. -/
theorem LeadsTo.of_parent? {v' : StoreView} (hParent : v'.parent? = v.parent?)
    (hl : v.LeadsTo messages r h) : v'.LeadsTo messages r h := by
  induction hl with
  | leaf hLeaf =>
    refine .leaf ?_
    rwa [hParent]
  | step hBest _ ih =>
    refine .step ⟨?_, ?_⟩ ih
    · rw [hParent]
      exact hBest.child
    · simp only [hParent, weight_eq hParent]
      exact hBest.best

/-! ## How far the path can go -/

/-- The slot of a block that is known. -/
def slotAt (v : StoreView) (root : Root) : Slot :=
  match v.block? root with
  | some block => block.slot
  | none => 0

/-- The blocks of a list that are later than `root`. -/
def laterThan (v : StoreView) (imported : List Root) (root : Root) : Finset Root :=
  imported.toFinset.filter fun r => v.slotAt root < v.slotAt r

theorem slotAt_eq (hBlock : v.block? r = some block) : v.slotAt r = block.slot := by
  rw [slotAt, hBlock]

theorem Descending.slotAt_lt (hv : v.Descending) (hChild : v.parent? c = some p) :
    v.slotAt p < v.slotAt c := by
  obtain ⟨block, parent, hBlock, hParent, hLt⟩ := hv.parent hChild
  rw [slotAt_eq hBlock, slotAt_eq hParent]
  exact hLt

/-- Fewer blocks are later than a child than are later than its parent. -/
theorem Descending.laterThan_ssubset (hv : v.Descending) {imported : List Root}
    (hChild : v.parent? c = some p) (hImported : c ∈ imported) :
    v.laterThan imported c ⊂ v.laterThan imported p := by
  have hLt := hv.slotAt_lt hChild
  rw [Finset.ssubset_iff_of_subset]
  · refine ⟨c, ?_, ?_⟩
    · simp [laterThan, hImported, hLt]
    · simp [laterThan]
  · intro r hr
    simp only [laterThan, Finset.mem_filter] at hr ⊢
    exact ⟨hr.1, UInt64.lt_trans hLt hr.2⟩

theorem card_laterThan_le (imported : List Root) :
    (v.laterThan imported r).card ≤ imported.length :=
  (Finset.card_filter_le _ _).trans imported.toFinset_card_le

/-! ## One step of the search -/

theorem outweighs_iff {a b : Nat × Root} :
    outweighs a b ↔ b.1 < a.1 ∨ (a.1 = b.1 ∧ b.2.toNat ≤ a.2.toNat) := by
  simp [outweighs, BitVec.le_def]

/-- A child with its support that no other one goes before, or none if there are no children. -/
def IsPick (v : StoreView) (votes : List (Root × Nat)) (children : List Root) :
    Option (Nat × Root) → Prop
  | none => children = []
  | some best => best.2 ∈ children ∧ v.support votes best.2 = .ok best.1 ∧
      ∀ c' ∈ children, ∃ n, v.support votes c' = .ok n ∧ outweighs best (n, c')

theorem bestChild_eq_ok {votes : List (Root × Nat)} {children : List Root}
    {result : Option (Nat × Root)} (h : v.bestChild votes children = .ok result) :
    v.IsPick votes children result := by
  induction children generalizing result with
  | nil =>
    cases h
    rfl
  | cons child rest ih =>
    simp only [bestChild, bind_eq_ok] at h
    obtain ⟨n, hSupport, other, hRest, hResult⟩ := h
    have hOther : v.IsPick votes rest other := ih hRest
    have hSelf : outweighs (n, child) (n, child) := outweighs_iff.mpr (Or.inr ⟨rfl, le_refl _⟩)
    cases other with
    | none =>
      cases hResult
      have hNil : rest = [] := hOther
      subst hNil
      exact ⟨List.mem_singleton_self _, hSupport, by simpa using ⟨n, hSupport, hSelf⟩⟩
    | some best =>
      obtain ⟨hMem, hBest, hAll⟩ := hOther
      rw [← Except.ok.inj hResult]
      -- The best of the rest goes before the first child, or the other way round.
      by_cases hWins : outweighs best (n, child)
      · rw [if_pos hWins]
        refine ⟨List.mem_cons_of_mem _ hMem, hBest, ?_⟩
        intro c' hc'
        rcases List.mem_cons.mp hc' with rfl | hc'
        · exact ⟨n, hSupport, hWins⟩
        · exact hAll c' hc'
      · rw [if_neg hWins]
        refine ⟨List.mem_cons_self, hSupport, ?_⟩
        intro c' hc'
        rcases List.mem_cons.mp hc' with rfl | hc'
        · exact ⟨n, hSupport, hSelf⟩
        · obtain ⟨n', hSupport', hLoses⟩ := hAll c' hc'
          refine ⟨n', hSupport', ?_⟩
          rw [outweighs_iff] at hWins hLoses ⊢
          dsimp only at hWins hLoses ⊢
          omega

/-- A failure of a walk that is too long. -/
def IsTooLong (v : StoreView) (e : Failure StoreError) : Prop :=
  ∃ root, e = .error (.ancestorDepthExceeded root v.limits.maxAncestorDepth)

/-- From a root that is voted for, the slot of some block other than the anchor is out of
reach. -/
def OutOfReach (v : StoreView) (messages : LatestMessages) : Prop :=
  ∃ c p root, v.parent? c = some p ∧ root ∈ messages.votedRoots ∧
    v.Above (v.slotAt c) root (v.reach + 1)

theorem supportFrom_eq_error (hv : v.AnchoredAtGenesis) {slot : Slot} {counts : List (Root × Nat)}
    {e : Failure StoreError} (hFails : v.supportFrom c slot counts = .error e) :
    v.IsTooLong e ∧ ∃ entry ∈ counts, v.Above slot entry.1 (v.reach + 1) := by
  induction counts with
  | nil => exact absurd hFails (by simp [supportFrom])
  | cons entry rest ih =>
    simp only [supportFrom, bind_eq_error, pure_ne_error, and_false, exists_false, or_false]
      at hFails
    rcases hFails with hWalk | ⟨ancestor, -, hRest⟩
    · obtain ⟨hAbove, hError⟩ := (ancestor_eq_error hv).mp hWalk
      exact ⟨⟨_, hError⟩, entry, List.mem_cons_self, hAbove⟩
    · obtain ⟨hLong, entry', hMem, hAbove⟩ := ih hRest
      exact ⟨hLong, entry', List.mem_cons_of_mem _ hMem, hAbove⟩

theorem bestChild_eq_error (hv : v.AnchoredAtGenesis) {votes : List (Root × Nat)}
    {children : List Root} (hKnown : ∀ c ∈ children, ∃ block, v.block? c = some block)
    {e : Failure StoreError} (hFails : v.bestChild votes children = .error e) :
    v.IsTooLong e ∧ ∃ c ∈ children, ∃ entry ∈ votes,
      v.Above (v.slotAt c) entry.1 (v.reach + 1) := by
  induction children with
  | nil => exact absurd hFails (by simp [bestChild])
  | cons child rest ih =>
    rw [List.forall_mem_cons] at hKnown
    obtain ⟨⟨block, hBlock⟩, hRest⟩ := hKnown
    rw [bestChild, bind_eq_error] at hFails
    rcases hFails with hSupport | ⟨n, -, hOthers⟩
    · rw [support_of_known hBlock, ← slotAt_eq hBlock] at hSupport
      obtain ⟨hLong, hFar⟩ := supportFrom_eq_error hv hSupport
      exact ⟨hLong, child, List.mem_cons_self, hFar⟩
    · rw [bind_eq_error] at hOthers
      rcases hOthers with hOthers | ⟨other, -, hPick⟩
      · obtain ⟨hLong, c, hMem, hFar⟩ := ih hRest hOthers
        exact ⟨hLong, c, List.mem_cons_of_mem _ hMem, hFar⟩
      · cases other <;> exact absurd hPick pure_ne_error

theorem known_of_child (hChild : v.parent? c = some p) : ∃ block, v.block? c = some block := by
  obtain ⟨-, block, hBlock, -⟩ := parent?_eq_some.mp hChild
  exact ⟨block, hBlock⟩

namespace Grown

variable [HashFunction]

/-- The child that the search goes on to is the best one. -/
theorem isBestChild (hv : v.Grown) {n : Nat}
    (h : v.bestChild messages.voteCounts (v.children p) = .ok (some (n, c))) :
    v.IsBestChild messages p c := by
  obtain ⟨hMem, hSupport, hAll⟩ := bestChild_eq_ok h
  have hChild := hv.mem_children.mp hMem
  have hWeight : ∀ {c n}, v.parent? c = some p → v.support messages.voteCounts c = .ok n →
      n = v.weight messages c := by
    intro c n hChild hSupport
    obtain ⟨block, hBlock⟩ := known_of_child hChild
    exact hv.descending.support_eq_weight hBlock hSupport
  refine ⟨hChild, ?_⟩
  intro c' hChild' hNe
  obtain ⟨n', hSupport', hWins⟩ := hAll c' (hv.mem_children.mpr hChild')
  rw [outweighs_iff, hWeight hChild hSupport, hWeight hChild' hSupport'] at hWins
  have hRoots : c'.toNat ≠ c.toNat := fun hEq => hNe (BitVec.eq_of_toNat_eq hEq)
  rw [BitVec.lt_def]
  dsimp only at hWins
  omega

theorem leaf_of_bestChild (hv : v.Grown)
    (h : v.bestChild messages.voteCounts (v.children p) = .ok none) (c : Root) :
    v.parent? c ≠ some p := by
  have hNil : v.children p = [] := bestChild_eq_ok h
  rw [Ne, ← hv.mem_children, hNil]
  exact List.not_mem_nil

/-! ## The whole search -/

/-- The search from a block on reaches the end of the path with enough fuel, unless some vote is
out of reach. -/
theorem headFrom_eq (hv : v.Grown) {imported : List Root}
    (hImported : ∀ {r block}, v.block? r = some block → r ≠ v.anchorRoot → r ∈ imported)
    {fuel : Nat} (hFuel : (v.laterThan imported r).card < fuel) :
    (∃ h, v.headFrom messages.voteCounts fuel r = .ok h ∧ v.LeadsTo messages r h) ∨
      ∃ e, v.headFrom messages.voteCounts fuel r = .error e ∧ v.IsTooLong e ∧
        v.OutOfReach messages := by
  induction fuel generalizing r with
  | zero => omega
  | succ fuel ih =>
    rw [headFrom]
    cases hBest : v.bestChild messages.voteCounts (v.children r) with
    | error e =>
      right
      have hKnown : ∀ c ∈ v.children r, ∃ block, v.block? c = some block :=
        fun c hc => known_of_child (hv.mem_children.mp hc)
      obtain ⟨hLong, c, hMem, entry, hEntry, hAbove⟩ :=
        bestChild_eq_error hv.anchored hKnown hBest
      exact ⟨e, rfl, hLong, c, r, entry.1, hv.mem_children.mp hMem,
        (LatestMessages.mem_voteCounts.mp hEntry).1, hAbove⟩
    | ok best =>
      cases best with
      | none =>
        left
        exact ⟨r, rfl, LeadsTo.leaf (hv.leaf_of_bestChild hBest)⟩
      | some best =>
        -- Fewer blocks are later than the child, so the fuel that is left is enough.
        obtain ⟨n, c⟩ := best
        have hStep := hv.isBestChild hBest
        obtain ⟨hNe, block, hBlock, -⟩ := parent?_eq_some.mp hStep.child
        have hFewer := Finset.card_lt_card
          (hv.descending.laterThan_ssubset hStep.child (hImported hBlock hNe))
        rcases ih (r := c) (by omega) with ⟨h, hHead, hPath⟩ | hFails
        · left
          exact ⟨h, hHead, LeadsTo.step hStep hPath⟩
        · right
          exact hFails

/-- The search for the head reaches the end of the path, unless some vote is out of reach. -/
theorem head_eq (hv : v.Grown) (messages : LatestMessages) :
    (∃ h, v.head messages = .ok h ∧ v.LeadsTo messages v.headStart h) ∨
      ∃ e, v.head messages = .error e ∧ v.IsTooLong e ∧ v.OutOfReach messages := by
  obtain ⟨imported, hLength, hImported⟩ := hv.imports
  have hBound := card_laterThan_le (v := v) (r := v.headStart) imported
  exact hv.headFrom_eq hImported (by omega)

/-- Among the children of a block there is a best one, if there are any. -/
theorem exists_isBestChild (hv : v.Grown) (messages : LatestMessages)
    (hChild : v.parent? c = some p) : ∃ best, v.IsBestChild messages p best := by
  -- The order of the pairs is that of the weights first, and of the roots among equals.
  let order (r : Root) : ℕ ×ₗ ℕ := toLex (v.weight messages r, r.toNat)
  have hMem : ∀ {r}, r ∈ (v.children p).toFinset ↔ v.parent? r = some p := by
    intro r
    rw [List.mem_toFinset, hv.mem_children]
  obtain ⟨best, hBest, hMax⟩ :=
    Finset.exists_max_image (v.children p).toFinset order ⟨c, hMem.mpr hChild⟩
  refine ⟨best, hMem.mp hBest, ?_⟩
  intro c' hChild' hNe
  have hLe := hMax c' (hMem.mpr hChild')
  rw [Prod.Lex.toLex_le_toLex] at hLe
  have hRoots : c'.toNat ≠ best.toNat := fun hEq => hNe (BitVec.eq_of_toNat_eq hEq)
  rw [BitVec.lt_def]
  dsimp only at hLe
  omega

/-- The path has an end. -/
theorem exists_leadsTo (hv : v.Grown) (messages : LatestMessages) (r : Root) :
    ∃ h, v.LeadsTo messages r h := by
  -- The induction is on the number of blocks that are later than `r`.
  obtain ⟨imported, -, hImported⟩ := hv.imports
  induction hLater : (v.laterThan imported r).card using Nat.strong_induction_on generalizing r with
  | _ later ih =>
    by_cases hLeaf : ∃ c, v.parent? c = some r
    · obtain ⟨c, hChild⟩ := hLeaf
      obtain ⟨best, hBest⟩ := hv.exists_isBestChild messages hChild
      obtain ⟨hNe, block, hBlock, -⟩ := parent?_eq_some.mp hBest.child
      have hFewer := Finset.card_lt_card
        (hv.descending.laterThan_ssubset hBest.child (hImported hBlock hNe))
      obtain ⟨h, hPath⟩ := ih _ (hLater ▸ hFewer) best rfl
      exact ⟨h, LeadsTo.step hBest hPath⟩
    · exact ⟨r, LeadsTo.leaf fun c hChild => hLeaf ⟨c, hChild⟩⟩

end Grown

/-- What is known of the head that is found from votes. -/
structure FollowsVotes (v : StoreView) (messages : LatestMessages) : Prop where
  /-- The head is the end of the path. -/
  head : ∀ h, v.head messages = .ok h → v.LeadsTo messages v.headStart h
  /-- The path has one end. -/
  ends : ∃! h, v.LeadsTo messages v.headStart h
  /-- The search fails only where a walk is too long, and only if some vote is out of reach. -/
  fails : ∀ e, v.head messages = .error e → v.IsTooLong e ∧ v.OutOfReach messages
  support : ∀ child block n, v.block? child = some block →
    v.support messages.voteCounts child = .ok n → n = v.weight messages child
  /-- Nobody is counted for two siblings. -/
  disjoint : ∀ p a b, v.parent? a = some p → v.parent? b = some p → a ≠ b →
    ∀ index ∈ v.supporters messages a, index ∉ v.supporters messages b
  /-- A vote for a root that is not known counts for nothing. -/
  unknown : ∀ index message, messages.get? index = some message →
    v.block? message.root = none →
      ∀ root block, v.block? root = some block → index ∉ v.supporters messages root

end StoreView

open StoreView

/-- **The head.** In every store that comes from genesis and in every draft of it, the head that
is found from any votes is the block that the votes lead to. -/
theorem Store.followsVotes_of_shows [HashFunction] [SignatureScheme] {s : Store} (hs : s.IsGenesis)
    {v : StoreView} (hv : s.Shows (slotTransition s.preset) v) (messages : LatestMessages) :
    v.FollowsVotes messages := by
  have hGrown := (grownFrom_of_shows hs hv).grown
  have hHead := hGrown.head_eq messages
  obtain ⟨last, hLast⟩ := hGrown.exists_leadsTo messages v.headStart
  exact {
    head := by
      intro h hFound
      rcases hHead with ⟨h', hFound', hPath⟩ | ⟨e, hFails, -, -⟩
      · cases hFound.symm.trans hFound'
        exact hPath
      · rw [hFound] at hFails
        exact absurd hFails (by simp)
    ends := ⟨last, hLast, fun h hPath => hPath.unique hLast⟩
    fails := by
      intro e hFails
      rcases hHead with ⟨h, hFound, -⟩ | ⟨e', hFails', hLong, hFar⟩
      · rw [hFound] at hFails
        exact absurd hFails (by simp)
      · cases hFails.symm.trans hFails'
        exact ⟨hLong, hFar⟩
    support := fun child block n hBlock => hGrown.descending.support_eq_weight hBlock
    disjoint := fun p a b hA hB hNe index =>
      hGrown.descending.not_mem_supporters_of_sibling hA hB hNe
    unknown := fun index message hMessage hUnknown root block =>
      not_mem_supporters_of_unknown hMessage hUnknown }

section

open Engine (ChainedNetwork chainedNetwork checkBranches linearHash toOption_eq_some)

/-- The votes of the first validators, each for another block. -/
def LatestMessages.inOrder (roots : List Root) : LatestMessages :=
  roots.zipIdx.foldl (fun votes (root, index) => votes.merge (UInt64.ofNat index) ⟨0, root⟩) .empty

/-- Two branches of a small network, the longer one in an open draft. Two votes lead along it and
one along the other, and a fourth one is for a block that nobody knows. -/
theorem Store.followsVotes_of_fork :
    letI : HashFunction := linearHash
    letI : SignatureScheme := Bls.scheme
    ∃ (n : ChainedNetwork) (v : StoreView) (first second rival : Root),
      chainedNetwork = some n ∧ n.store.IsGenesis ∧
        n.store.Shows (slotTransition n.store.preset) v ∧
          v.parent? first = some n.store.anchorRoot ∧ v.parent? second = some first ∧
            v.parent? rival = some n.store.anchorRoot ∧ v.block? 0 = none ∧
              let messages := LatestMessages.inOrder [rival, first, second, 0]
              v.head messages = .ok second ∧ v.FollowsVotes messages := by
  let : HashFunction := linearHash
  let : SignatureScheme := Bls.scheme
  let shown (n : ChainedNetwork) (other : Block) : StoreView :=
    ((Draft.ofStore (n.store.after (slotTransition n.store.preset)
      [⟨[.tick 18, .block n.first, .block other], true⟩])).changeAll
        (slotTransition n.store.preset) [.block n.second]).view
  have hRuns : checkBranches (fun n other first second rival =>
      let v := shown n other
      decide (v.parent? first = some n.store.anchorRoot) &&
        decide (v.parent? second = some first) &&
          decide (v.parent? rival = some n.store.anchorRoot) && decide (v.block? 0 = none) &&
            decide ((v.head (.inOrder [rival, first, second, 0])).toOption = some second)) =
              true := by
    decide +kernel
  obtain ⟨n, other, first, second, rival, hNetwork, hs, -, hRun⟩ := Engine.exists_branches hRuns
  simp only [Bool.and_eq_true, decide_eq_true_eq] at hRun
  obtain ⟨⟨⟨⟨hFirst, hSecond⟩, hRival⟩, hUnknown⟩, hHead⟩ := hRun
  have hShows : n.store.Shows (slotTransition n.store.preset) (shown n other) :=
    ⟨[⟨[.tick 18, .block n.first, .block other], true⟩], Or.inr ⟨[.block n.second], rfl⟩⟩
  exact ⟨n, shown n other, first, second, rival, hNetwork, hs, hShows, hFirst, hSecond, hRival,
    hUnknown, toOption_eq_some.mp hHead, Store.followsVotes_of_shows hs hShows _⟩

end

end ForkChoice
