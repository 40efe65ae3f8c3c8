import Mathlib.Data.FinEnum
import ForkChoice.Proofs.Store.Frame
import ForkChoice.Proofs.Store.Lineage
import ForkChoice.Proofs.Store.Reach
import ForkChoice.Proofs.Store.Tree

/-!
# ForkChoice — how far the head can move

The head is the end of a path that always goes on to the best child. Two things are done to a store
all the time, and neither of them can throw the head far away. A vote for the head makes each block
on the path to it heavier, or leaves it as heavy as it was, and it makes no sibling of these blocks
heavier, so the path stays as it is. A new block that nobody has voted for changes no weight at all.
It is one more candidate at one block of the path, and if it wins there, the path ends at it.

* `LatestMessages.record`, `LatestMessages.Rallied` — one vote replaced, and any number of votes
  replaced by votes for one block;
* `LeadsTo.of_rallied` — the path stays as it is, `Store.keepsHead_of_votes` — and so
  does the head;
* `Rooted.weight_withBlock`, `LeadsTo.of_withBlock` — weights and the path after an import,
  `Store.movesHead_of_import` — the head after it;
* `Grown.head_found_iff` — when there is a head at all.
-/

namespace ForkChoice

/-! ## Votes for one block -/

namespace LatestMessages

variable {m m' m'' : LatestMessages} {index index' : ValidatorIndex} {message : LatestMessage}
  {indices : List ValidatorIndex} {root : Root}

/-- Records a vote in place of the present one, if there is one, whatever their epochs are. -/
def record (m : LatestMessages) (index : ValidatorIndex) (message : LatestMessage) :
    LatestMessages :=
  ⟨m.messages.insert index message⟩

theorem get?_record : (m.record index message).get? index' =
    if index = index' then some message else m.get? index' :=
  Table.getElem?_insert _ _ _ _

/-- The votes of `m'` are those of `m`, but for votes for `root`. -/
def Rallied (root : Root) (m m' : LatestMessages) : Prop :=
  ∀ index, m'.get? index = m.get? index ∨
    ∃ message, m'.get? index = some message ∧ message.root = root

theorem rallied_record (hVote : message.root = root) : Rallied root m (m.record index message) := by
  intro index'
  rw [get?_record]
  split
  · exact Or.inr ⟨message, rfl, hVote⟩
  · exact Or.inl rfl

namespace Rallied

theorem refl (root : Root) (m : LatestMessages) : Rallied root m m :=
  fun _ => Or.inl rfl

theorem trans (h : Rallied root m m') (h' : Rallied root m' m'') : Rallied root m m'' := by
  intro index
  rcases h' index with hSame | hVoted
  · rw [hSame]
    exact h index
  · exact Or.inr hVoted

end Rallied

/-- A vote that is merged is recorded, or it changes nothing. -/
theorem rallied_merge (hVote : message.root = root) : Rallied root m (m.merge index message) := by
  unfold merge
  split
  · exact rallied_record hVote
  · exact Rallied.refl root m

/-- The votes of all participants of an attestation are for one block. -/
theorem rallied_mergeAll (hVote : message.root = root) :
    Rallied root m (m.mergeAll indices message) := by
  unfold mergeAll
  induction indices generalizing m with
  | nil => exact Rallied.refl root m
  | cons index rest ih => exact (rallied_merge hVote).trans ih

end LatestMessages

namespace StoreView

variable {v : StoreView} {messages messages' : LatestMessages} {a c p r h h' root : Root}
  {block : Block} {state : BeaconState}

open LatestMessages (Rallied)

/-! ## Weights and the path when votes are for the head -/

/-- A block on the chain of `h` loses nobody when votes are replaced by votes for `h`. -/
theorem weight_le_of_descends (hVotes : Rallied h messages messages') (hOn : v.Descends a h) :
    v.weight messages a ≤ v.weight messages' a := by
  refine Set.ncard_le_ncard ?_ (Set.toFinite _)
  rintro index ⟨message, hMessage, hDescends⟩
  rcases hVotes index with hSame | ⟨message', hMessage', rfl⟩
  · exact ⟨message, hSame.trans hMessage, hDescends⟩
  · exact ⟨message', hMessage', hOn⟩

/-- A block that is not on the chain of `h` gains nobody. -/
theorem weight_le_of_not_descends (hVotes : Rallied h messages messages')
    (hOff : ¬ v.Descends a h) : v.weight messages' a ≤ v.weight messages a := by
  refine Set.ncard_le_ncard ?_ (Set.toFinite _)
  rintro index ⟨message, hMessage, hDescends⟩
  rcases hVotes index with hSame | ⟨message', hMessage', rfl⟩
  · exact ⟨message, hSame.symm.trans hMessage, hDescends⟩
  · cases hMessage.symm.trans hMessage'
    exact absurd hDescends hOff

/-- The best child stays the best one if it is on the chain of the block that is voted for. -/
theorem IsBestChild.of_rallied (hv : v.Descending) (hVotes : Rallied h messages messages')
    (hBest : v.IsBestChild messages p c) (hOn : v.Descends c h) :
    v.IsBestChild messages' p c where
  child := hBest.child
  best := by
    intro c' hChild hNe
    have hOff : ¬ v.Descends c' h := fun hOn' =>
      hNe (hv.eq_of_siblings hChild hBest.child hOn' hOn)
    have hGains := weight_le_of_descends hVotes hOn
    have hLoses := weight_le_of_not_descends hVotes hOff
    rcases hBest.best c' hChild hNe with hLess | ⟨hEqual, hSmaller⟩
    · exact Or.inl (by omega)
    · -- As many as the best child had before; now there may be fewer.
      rcases Nat.lt_or_ge (v.weight messages' c') (v.weight messages' c) with hNow | hNow
      · exact Or.inl hNow
      · exact Or.inr ⟨by omega, hSmaller⟩

/-- The path leads to a descendant. -/
theorem LeadsTo.descends (hPath : v.LeadsTo messages r h) : v.Descends r h := by
  induction hPath with
  | leaf => exact Descends.refl v _
  | step hBest _ ih =>
    exact Descends.trans ⟨1, by rw [back_succ_of_parent hBest.child, back_zero]⟩ ih

/-- The path ends at a block without children. -/
theorem LeadsTo.end_leaf (hPath : v.LeadsTo messages r h) (c : Root) : v.parent? c ≠ some h := by
  induction hPath with
  | leaf hLeaf => exact hLeaf c
  | step _ _ ih => exact ih

/-- **The path** stays as it is when votes are replaced by votes for its end. -/
theorem LeadsTo.of_rallied (hv : v.Descending) (hVotes : Rallied h messages messages')
    (hPath : v.LeadsTo messages r h) : v.LeadsTo messages' r h := by
  -- Each best child on the way has the end of the path below it, so the votes count for it.
  induction hPath with
  | leaf hLeaf => exact .leaf hLeaf
  | step hBest hRest ih => exact .step (hBest.of_rallied hv hVotes hRest.descends) (ih hVotes)

/-! ## Weights and the path after a new block -/

/-- A root that is not known has no link. -/
theorem ne_of_child (hFresh : v.block? root = none) (hChild : v.parent? c = some p) :
    c ≠ root := by
  rintro rfl
  obtain ⟨b, hKnown⟩ := known_of_child hChild
  rw [hFresh] at hKnown
  exact absurd hKnown (by simp)

namespace Rooted

variable (hv : v.Rooted) (hFresh : v.block? root = none)
include hv hFresh

/-- Other blocks keep their links. -/
theorem withBlock_parent?_of_ne (hNe : r ≠ root) :
    (v.withBlock root block state).parent? r = v.parent? r := by
  rw [withBlock_parent? (hv.ne_anchor hFresh), if_neg (Ne.symm hNe)]

theorem withBlock_parent?_self :
    (v.withBlock root block state).parent? root = some block.parentRoot := by
  rw [withBlock_parent? (hv.ne_anchor hFresh), if_pos rfl]

/-- What another block links to is not the new block. -/
theorem ne_of_parent? (hChild : v.parent? c = some p) : p ≠ root := by
  rintro rfl
  obtain ⟨parent, hKnown⟩ := hv.parent_known hChild
  rw [hFresh] at hKnown
  exact absurd hKnown (by simp)

/-- No chain of another block leads over the new one. -/
theorem back_withBlock {n : Nat} (hNe : r ≠ root) :
    (v.withBlock root block state).back n r = v.back n r := by
  induction n generalizing r with
  | zero => rfl
  | succ n ih =>
    rw [back_succ, back_succ, hv.withBlock_parent?_of_ne hFresh hNe]
    cases hParent : v.parent? r with
    | none => rfl
    | some p => exact ih (hv.ne_of_parent? hFresh hParent)

/-- **Weights** are those before the block came if nobody has voted for it. -/
theorem weight_withBlock
    (hUnvoted : ∀ index message, messages.get? index = some message → message.root ≠ root) :
    (v.withBlock root block state).weight messages a = v.weight messages a := by
  have hSupporters : (v.withBlock root block state).supporters messages a =
      v.supporters messages a := by
    ext index
    refine exists_congr fun message => and_congr_right fun hMessage => ?_
    simp only [Descends, hv.back_withBlock hFresh (hUnvoted index message hMessage)]
  rw [weight, weight, hSupporters]

/-- A new block has no children. -/
theorem withBlock_leaf (hParent : ∃ parent, v.block? block.parentRoot = some parent) (c : Root) :
    (v.withBlock root block state).parent? c ≠ some root := by
  rw [withBlock_parent? (hv.ne_anchor hFresh)]
  split
  · -- The parent of the new block was known before it.
    rintro hSelf
    obtain ⟨parent, hKnown⟩ := hParent
    rw [Option.some.inj hSelf, hFresh] at hKnown
    exact absurd hKnown (by simp)
  · exact fun hChild => hv.ne_of_parent? hFresh hChild rfl

end Rooted

/-- A best child other than the new block was the best one before. -/
theorem IsBestChild.of_withBlock (hv : v.Rooted) (hFresh : v.block? root = none)
    (hUnvoted : ∀ index message, messages.get? index = some message → message.root ≠ root)
    (hBest : (v.withBlock root block state).IsBestChild messages p c) (hNe : c ≠ root) :
    v.IsBestChild messages p c where
  child := by
    rw [← hv.withBlock_parent?_of_ne hFresh hNe]
    exact hBest.child
  best := by
    intro c' hChild hOther
    have hOld : c' ≠ root := ne_of_child hFresh hChild
    have hLess := hBest.best c' (by rwa [hv.withBlock_parent?_of_ne hFresh hOld]) hOther
    rwa [hv.weight_withBlock hFresh hUnvoted, hv.weight_withBlock hFresh hUnvoted] at hLess

/-- **The path** ends where it has ended, or at the new block. -/
theorem LeadsTo.of_withBlock (hv : v.Rooted) (hFresh : v.block? root = none)
    (hParent : ∃ parent, v.block? block.parentRoot = some parent)
    (hUnvoted : ∀ index message, messages.get? index = some message → message.root ≠ root)
    (hPath : v.LeadsTo messages r h)
    (hPath' : (v.withBlock root block state).LeadsTo messages r h') : h' = h ∨ h' = root := by
  -- The two paths go on together until the new block wins, or to the end.
  induction hPath' with
  | leaf hLeaf' =>
    left
    cases hPath with
    | leaf => rfl
    | @step _ c _ hBest _ =>
      have hOld : c ≠ root := ne_of_child hFresh hBest.child
      exact absurd (by rw [hv.withBlock_parent?_of_ne hFresh hOld, hBest.child]) (hLeaf' c)
  | @step p c h' hBest' hRest' ih =>
    by_cases hNew : c = root
    · -- The new block has won, and the path does not go on from it.
      subst hNew
      right
      cases hRest' with
      | leaf => rfl
      | @step _ c' _ hBest'' _ => exact absurd hBest''.child (hv.withBlock_leaf hFresh hParent c')
    · have hBest := hBest'.of_withBlock hv hFresh hUnvoted hNew
      cases hPath with
      | leaf hLeaf => exact absurd hBest.child (hLeaf c)
      | step hOther hRest =>
        rw [hOther.unique hBest] at hRest
        exact ih hRest

/-- If the path has ended at the parent of the new block, it now ends at the new block. -/
theorem LeadsTo.end_eq_of_parentRoot (hv : v.Rooted) (hFresh : v.block? root = none)
    (hParent : ∃ parent, v.block? block.parentRoot = some parent)
    (hUnvoted : ∀ index message, messages.get? index = some message → message.root ≠ root)
    (hPath : v.LeadsTo messages r block.parentRoot)
    (hPath' : (v.withBlock root block state).LeadsTo messages r h') : h' = root := by
  rcases hPath.of_withBlock hv hFresh hParent hUnvoted hPath' with rfl | hNew
  · -- The path cannot end at a block with a child.
    exact absurd (hv.withBlock_parent?_self hFresh) (hPath'.end_leaf root)
  · exact hNew

/-! ## The head -/

/-- The head is `h`, if there is one; and there is one unless some vote is one link too far away
from the anchor. -/
structure KeepsHead (v : StoreView) (h : Root) (messages : LatestMessages) : Prop where
  same : ∀ h', v.head messages = .ok h' → h' = h
  found : v.head messages = .ok h ↔ ¬ v.OneLinkTooFar messages

section

variable [HashFunction]

namespace Grown

/-- The head is the end of the path. -/
theorem leadsTo_of_head (hv : v.Grown) (hHead : v.head messages = .ok h) :
    v.LeadsTo messages v.headStart h := by
  rcases hv.head_eq messages with ⟨h', hFound, hPath⟩ | ⟨e, hFails, -⟩
  · cases hHead.symm.trans hFound
    exact hPath
  · rw [hHead] at hFails
    exact absurd hFails (by simp)

/-- A head is found if no vote is one link too far away from the anchor, and only then. -/
theorem head_found_iff (hv : v.Grown) :
    (∃ h, v.head messages = .ok h) ↔ ¬ v.OneLinkTooFar messages := by
  rw [← hv.head_eq_error_iff]
  rcases hv.head_eq messages with ⟨h, hFound, -⟩ | ⟨e, hFails, ⟨root, rfl⟩, -⟩
  · simp [hFound, Outcome.fail]
  · simp [hFails, Outcome.fail]

/-- **Votes for the head**, of however many validators, leave the head where it is. -/
theorem keepsHead_of_rallied (hv : v.Grown) (hVotes : Rallied h messages messages')
    (hHead : v.head messages = .ok h) : v.KeepsHead h messages' := by
  have hPath := (hv.leadsTo_of_head hHead).of_rallied hv.descending hVotes
  have hSame : ∀ h', v.head messages' = .ok h' → h' = h := fun h' hHead' =>
    (hv.leadsTo_of_head hHead').unique hPath
  refine ⟨hSame, ?_⟩
  rw [← hv.head_found_iff]
  constructor
  · exact fun hFound => ⟨h, hFound⟩
  · rintro ⟨h', hFound⟩
    rwa [hSame h' hFound] at hFound

end Grown

end

end StoreView

open StoreView

namespace Store

section

variable [HashFunction] [SignatureScheme] {s : Store} {messages : LatestMessages} {h h' root : Root}

/-- **A vote for the head** keeps the head: in every store that comes from genesis and in every
draft of it, the head after the vote is the head before it, whether the validator has voted before
or not, and so it is after the votes of all participants of an attestation for the head. -/
theorem keepsHead_of_votes (hs : s.IsGenesis) {v : StoreView}
    (hv : s.Shows (slotTransition s.preset) v) (hHead : v.head messages = .ok h)
    {message : LatestMessage} (hVote : message.root = h) :
    (∀ index, v.KeepsHead h (messages.record index message)) ∧
      ∀ indices, v.KeepsHead h (messages.mergeAll indices message) := by
  have hGrown := (grownFrom_of_shows hs hv).grown
  constructor
  · intro index
    exact hGrown.keepsHead_of_rallied (LatestMessages.rallied_record hVote) hHead
  · intro indices
    exact hGrown.keepsHead_of_rallied (LatestMessages.rallied_mergeAll hVote) hHead

/-- **An import** moves the head to the new block or not at all, if nobody has voted for the block
yet: in every draft of a store that comes from genesis, and in the store that the draft leaves. If
the parent of the block was the head, then the block is the head now. -/
theorem movesHead_of_import (hs : s.IsGenesis) {d d' : Draft}
    (hd : s.Shows (slotTransition s.preset) d.view) {b : Block}
    (hImport : d.importBlock (slotTransition s.preset) b = (.ok (.imported root), d'))
    (hUnvoted : ∀ index message, messages.get? index = some message → message.root ≠ root)
    (hHead : d.view.head messages = .ok h) {v : StoreView}
    (hAfter : v = d'.view ∨ v = d'.commit.view) (hHead' : v.head messages = .ok h') :
    b.treeRoot = .ok root ∧ (h' = h ∨ h' = root) ∧ (b.parentRoot = h → h' = root) := by
  have hBefore := grownFrom_of_shows hs hd
  have hTree : d.view.Rooted := (stable_rooted _).shows (rooted_of_anchored hs.isAnchored) hd
  obtain ⟨state, hFits, hFresh, -, hView⟩ := hBefore.fits_of_imported hImport
  obtain ⟨parentState, -, hParentState, -⟩ := hFits.applied
  have hParent := hTree.known_of_state hParentState
  have hGrown : d'.view.Grown := by
    have hLater := hBefore.importBlock b
    rw [hImport] at hLater
    exact hLater.grown
  -- A commit does not touch what the head depends on.
  have hFound : d'.view.head messages = .ok h' := by
    rcases hAfter with rfl | rfl
    · exact hHead'
    · rwa [d'.commit_sameChain.head_eq] at hHead'
  have hPath := hBefore.grown.leadsTo_of_head hHead
  have hPath' := hGrown.leadsTo_of_head hFound
  rw [hView] at hPath'
  refine ⟨hFits.root_eq, hPath.of_withBlock hTree hFresh hParent hUnvoted hPath', ?_⟩
  rintro rfl
  exact hPath.end_eq_of_parentRoot hTree hFresh hParent hUnvoted hPath'

end

end Store

/-! ## A small network -/

section

open Engine (ChainedNetwork chainedNetwork checkBranches linearHash toOption_eq_some)

/-- One vote for each of three blocks. -/
def LatestMessages.oneEach (a b c : Root) : LatestMessages :=
  ((LatestMessages.empty.record 0 ⟨0, a⟩).record 1 ⟨0, b⟩).record 2 ⟨0, c⟩

theorem LatestMessages.root_of_oneEach {a b c : Root} {index : ValidatorIndex}
    {message : LatestMessage} (h : (oneEach a b c).get? index = some message) :
    message.root = a ∨ message.root = b ∨ message.root = c := by
  have hNone : LatestMessages.empty.get? index = none := Std.TreeMap.getElem?_emptyc
  simp only [oneEach, get?_record, hNone] at h
  split at h
  · exact Or.inr (Or.inr (Option.some.inj h ▸ rfl))
  · split at h
    · exact Or.inr (Or.inl (Option.some.inj h ▸ rfl))
    · split at h
      · exact Or.inl (Option.some.inj h ▸ rfl)
      · exact absurd h (by simp)

/-- The validator that has voted for the rival of the first block votes for the second block, which
is the head; or two others do. -/
theorem Store.keepsHead_of_switchedVote :
    letI : HashFunction := linearHash
    letI : SignatureScheme := Bls.scheme
    ∃ (n : ChainedNetwork) (v : StoreView) (first second rival : Root),
      chainedNetwork = some n ∧ n.store.IsGenesis ∧
        n.store.Shows (slotTransition n.store.preset) v ∧
          v.head (.oneEach rival first second) = .ok second ∧
            v.KeepsHead second ((LatestMessages.oneEach rival first second).record 0 ⟨0, second⟩) ∧
              v.KeepsHead second
                ((LatestMessages.oneEach rival first second).mergeAll [3, 4] ⟨0, second⟩) := by
  let : HashFunction := linearHash
  let : SignatureScheme := Bls.scheme
  let history (n : ChainedNetwork) (other : Block) : List Transaction :=
    [⟨[.tick 18, .block n.first, .block other, .block n.second], true⟩]
  have hRuns : checkBranches (fun n other first second rival =>
      decide (((n.store.after (slotTransition n.store.preset) (history n other)).view.head
        (.oneEach rival first second)).toOption = some second)) = true := by
    decide +kernel
  obtain ⟨n, other, first, second, rival, hNetwork, hs, -, hRun⟩ := Engine.exists_branches hRuns
  have hHead := toOption_eq_some.mp (of_decide_eq_true hRun)
  have hShows : n.store.Shows (slotTransition n.store.preset) _ := ⟨history n other, Or.inl rfl⟩
  have hVote : (⟨0, second⟩ : LatestMessage).root = second := rfl
  obtain ⟨hRecorded, hMerged⟩ := Store.keepsHead_of_votes hs hShows hHead hVote
  exact ⟨n, _, first, second, rival, hNetwork, hs, hShows, hHead, hRecorded 0, hMerged [3, 4]⟩

/-- The second block comes when its parent, the first one, is the head and outweighs its rival. -/
theorem Store.movesHead_of_second :
    letI : HashFunction := linearHash
    letI : SignatureScheme := Bls.scheme
    ∃ (n : ChainedNetwork) (d d' : Draft) (first second rival : Root),
      chainedNetwork = some n ∧ n.store.IsGenesis ∧
        n.store.Shows (slotTransition n.store.preset) d.view ∧
          d.importBlock (slotTransition n.store.preset) n.second = (.ok (.imported second), d') ∧
            d.view.head (.oneEach rival first first) = .ok first ∧
              d'.commit.view.head (.oneEach rival first first) = .ok second ∧
                n.second.treeRoot = .ok second ∧ n.second.parentRoot = first := by
  let : HashFunction := linearHash
  let : SignatureScheme := Bls.scheme
  let draft (n : ChainedNetwork) (other : Block) : Draft :=
    (Draft.ofStore n.store).changeAll (slotTransition n.store.preset)
      [.tick 18, .block n.first, .block other]
  let imported (n : ChainedNetwork) (other : Block) : Outcome StoreError ImportResult × Draft :=
    (draft n other).importBlock (slotTransition n.store.preset) n.second
  have hRuns : checkBranches (fun n other first second rival =>
      decide ((imported n other).1.toOption = some (.imported second)) &&
        decide (((draft n other).view.head (.oneEach rival first first)).toOption = some first) &&
          ((imported n other).2.commit.view.head (.oneEach rival first first)).toOption.isSome &&
            decide (rival ≠ second) && decide (first ≠ second) &&
              decide (n.second.parentRoot = first)) = true := by
    decide +kernel
  obtain ⟨n, other, first, second, rival, hNetwork, hs, -, hRun⟩ := Engine.exists_branches hRuns
  simp only [Bool.and_eq_true, decide_eq_true_eq, toOption_eq_some, Option.isSome_iff_exists]
    at hRun
  obtain ⟨⟨⟨⟨⟨hImported, hHead⟩, head, hHead'⟩, hRival⟩, hFirst⟩, hParent⟩ := hRun
  have hShows : n.store.Shows (slotTransition n.store.preset) (draft n other).view :=
    ⟨[], Or.inr ⟨_, rfl⟩⟩
  have hImport : (draft n other).importBlock (slotTransition n.store.preset) n.second =
      (.ok (.imported second), (imported n other).2) := Prod.ext hImported rfl
  have hUnvoted : ∀ index message,
      (LatestMessages.oneEach rival first first).get? index = some message →
        message.root ≠ second := by
    intro index message hMessage hVote
    rcases LatestMessages.root_of_oneEach hMessage with hRoot | hRoot | hRoot
    · exact hRival (hRoot.symm.trans hVote)
    · exact hFirst (hRoot.symm.trans hVote)
    · exact hFirst (hRoot.symm.trans hVote)
  obtain ⟨hRoot, -, hMoved⟩ :=
    Store.movesHead_of_import hs hShows hImport hUnvoted hHead (Or.inr rfl) hHead'
  rw [hMoved hParent] at hHead'
  exact ⟨n, _, _, first, second, rival, hNetwork, hs, hShows, hImport, hHead, hHead', hRoot,
    hParent⟩

end

end ForkChoice
