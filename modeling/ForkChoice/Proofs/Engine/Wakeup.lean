import ForkChoice.Proofs.Engine.Desk
import ForkChoice.Proofs.Engine.Reach
import ForkChoice.Proofs.Engine.Waiting
import ForkChoice.Proofs.Store.Frame
import ForkChoice.Proofs.Store.Tree

/-!
# ForkChoice — nothing waits in vain

What waits is taken in hand at the moment at which it does not have to wait any more, and only
then. A block waits for its slot only when its parent is known, because the check for the parent
comes first; so when its slot has come, or when its parent has been imported, its parent is known.
This is why a block that has waited never finds its parent missing, and is never dropped for that.

The rules by which states move on do not matter for this, nor does the trusted block with which
the store begins.

* `Waiting.Awaits` — what is waited for has not happened;
* `Desk.NothingOverdue` — the invariant, with what is known of things in hand and of the journal;
* `nothingOverdue_move` — no move destroys it;
* `Engine.AwaitsAll`, `awaitsAll_of_run` — what follows for the runs without failures.
-/

namespace ForkChoice

open StoreView

/-! ## What is waited for -/

/-- What is waited for has not happened: a slot has not come, a parent or another block is not
known. The parent of a block that waits for its slot is known. -/
structure Waiting.Awaits (w : Waiting) (v : StoreView) : Prop where
  untilSlot : ∀ b ∈ w.blocksUntilSlot, v.currentSlot < b.block.slot ∧
    ∃ parent, v.block? b.block.parentRoot = some parent
  untilParent : ∀ b ∈ w.blocksUntilParent, v.block? b.block.parentRoot = none
  untilBlock : ∀ entry ∈ w.attestationsUntilBlock, v.block? entry.1 = none

namespace Waiting.Awaits

variable {w : Waiting} {v v' : StoreView}

/-- Only the known blocks and the slot matter. -/
theorem of_eq (h : w.Awaits v) (hBlocks : v'.block? = v.block?)
    (hSlot : v'.currentSlot = v.currentSlot) : w.Awaits v' where
  untilSlot b hb := by
    rw [hBlocks, hSlot]
    exact h.untilSlot b hb
  untilParent b hb := by
    rw [hBlocks]
    exact h.untilParent b hb
  untilBlock entry he := by
    rw [hBlocks]
    exact h.untilBlock entry he

theorem of_sameChain (h : w.Awaits v) (hSame : SameChain v v') : w.Awaits v' := by
  refine h.of_eq ?_ ?_ <;> rw [hSame]
  rfl

theorem delayUntilSlot {b : PendingBlock} (h : w.Awaits v) (hSlot : v.currentSlot < b.block.slot)
    (hParent : ∃ parent, v.block? b.block.parentRoot = some parent) :
    (w.delayUntilSlot b).Awaits v where
  untilSlot b' hb' := by
    rcases List.mem_append.mp hb' with hOld | hNew
    · exact h.untilSlot b' hOld
    · rw [List.mem_singleton.mp hNew]
      exact ⟨hSlot, hParent⟩
  untilParent := h.untilParent
  untilBlock := h.untilBlock

theorem delayUntilParent {b : PendingBlock} (h : w.Awaits v)
    (hParent : v.block? b.block.parentRoot = none) : (w.delayUntilParent b).Awaits v where
  untilSlot := h.untilSlot
  untilParent b' hb' := by
    rcases List.mem_append.mp hb' with hOld | hNew
    · exact h.untilParent b' hOld
    · rw [List.mem_singleton.mp hNew]
      exact hParent
  untilBlock := h.untilBlock

theorem delayUntilBlock {root : Root} {a : ReceivedAttestation} (h : w.Awaits v)
    (hUnknown : v.block? root = none) : (w.delayUntilBlock root a).Awaits v where
  untilSlot := h.untilSlot
  untilParent := h.untilParent
  untilBlock entry he := by
    rcases List.mem_append.mp he with hOld | hNew
    · exact h.untilBlock entry hOld
    · rw [List.mem_singleton.mp hNew]
      exact hUnknown

/-- Time moves on, and the blocks of slots that have come are taken. -/
theorem takeUntilSlot (h : w.Awaits v) (hBlocks : v'.block? = v.block?) :
    (w.takeUntilSlot v'.currentSlot).2.Awaits v' where
  untilSlot b hb := by
    obtain ⟨hOld, hLater⟩ := mem_takeUntilSlot_rest.mp hb
    rw [hBlocks]
    exact ⟨hLater, (h.untilSlot b hOld).2⟩
  untilParent b hb := by
    rw [hBlocks]
    exact h.untilParent b hb
  untilBlock entry he := by
    rw [hBlocks]
    exact h.untilBlock entry he

/-- A block becomes known, and all that has waited for it is taken. -/
theorem takeUntilKnown {root : Root} {block : Block} (h : w.Awaits v)
    (hBlocks : ∀ r, v'.block? r = if root = r then some block else v.block? r)
    (hSlot : v'.currentSlot = v.currentSlot) :
    ((w.takeUntilParent root).2.takeUntilBlock root).2.Awaits v' where
  untilSlot b hb := by
    obtain ⟨hLater, parent, hParent⟩ := h.untilSlot b hb
    rw [hSlot, hBlocks]
    refine ⟨hLater, ?_⟩
    split
    · exact ⟨block, rfl⟩
    · exact ⟨parent, hParent⟩
  untilParent b hb := by
    obtain ⟨hOld, hOther⟩ := mem_takeUntilParent_rest.mp hb
    rw [hBlocks, if_neg (Ne.symm hOther)]
    exact h.untilParent b hOld
  untilBlock entry he := by
    obtain ⟨hOld, hOther⟩ := mem_takeUntilBlock_rest.mp he
    rw [hBlocks, if_neg (Ne.symm hOther)]
    exact h.untilBlock entry hOld

end Waiting.Awaits

/-! ## The invariant -/

/-- What is waited for has not happened, what has waited has found its parent, what has been
imported is known, and what has been refused will not become acceptable. -/
structure Desk.NothingOverdue [HashFunction] (k : Desk) : Prop where
  tree : k.view.Rooted
  awaits : k.waiting.Awaits k.view
  retried : ∀ b ∈ k.blocks, b.retried = true →
    ∃ parent, k.view.block? b.block.parentRoot = some parent
  imported : ∀ b, .blockImported b ∈ k.journal →
    ∃ root block, b.treeRoot = .ok root ∧ k.view.block? root = some block
  refused : ∀ b reason, .blockRefused b reason ∈ k.journal → reason.isDelayable = false

section

variable [HashFunction] {k k' : Desk}

theorem nothingOverdue_arrival {x : Delivery} (h : Arrival k x k')
    (hk : k.NothingOverdue) : k'.NothingOverdue := by
  cases h with
  | @tick time d hd =>
    have hSame : SameTree k.view (d.tick time).view := hd ▸ d.tick_sameTree time
    exact {
      tree := hk.tree.of_sameTree hSame
      awaits := hk.awaits.takeUntilSlot hSame.block?
      retried := by
        intro b hb _
        -- A block that is due has waited for its slot alone.
        obtain ⟨b', hDue, rfl⟩ := List.mem_map.mp hb
        rw [hSame.block?]
        exact (hk.awaits.untilSlot b' (Waiting.mem_takeUntilSlot.mp hDue).1).2
      imported := by
        rw [hSame.block?]
        exact hk.imported
      refused := hk.refused }
  | block b =>
    exact { hk with
      retried := by
        intro b' hb' hRetried
        rw [List.mem_singleton.mp hb'] at hRetried
        exact absurd hRetried (by simp) }
  | burst attestations => exact { hk with }
  | justified => exact hk

namespace Desk.NothingOverdue

/-- What does not touch the tree keeps the promises about things in hand, too. -/
theorem of_sameChain (hk : k.NothingOverdue) (hView : SameChain k.view k'.view)
    (hAwaits : k'.waiting.Awaits k'.view) (hBlocks : k'.blocks = k.blocks)
    (hJournal : ∀ fate ∈ k'.journal, fate ∈ k.journal ∨
      (∀ b, fate ≠ .blockImported b) ∧ ∀ b reason, fate ≠ .blockRefused b reason) :
    k'.NothingOverdue where
  tree := hk.tree.of_sameTree hView.sameTree
  awaits := hAwaits
  retried := by
    rw [hBlocks, hView.sameTree.block?]
    exact hk.retried
  imported b hb := by
    rw [hView.sameTree.block?]
    rcases hJournal _ hb with hOld | ⟨hOther, -⟩
    · exact hk.imported b hOld
    · exact absurd rfl (hOther b)
  refused b reason hb := by
    rcases hJournal _ hb with hOld | ⟨-, hOther⟩
    · exact hk.refused b reason hOld
    · exact absurd rfl (hOther b reason)

/-- A block that is put away, without an import, leaves the other ones in hand. -/
theorem putAway {b : PendingBlock} {rest : List PendingBlock} {waiting : Waiting}
    {journal : List Fate} (hk : k.NothingOverdue) (hHand : k.blocks = b :: rest)
    (hAwaits : waiting.Awaits k.view)
    (hJournal : ∀ fate ∈ journal, fate ∈ k.journal ∨
      (∀ b, fate ≠ .blockImported b) ∧
        ∀ b reason, fate = .blockRefused b reason → reason.isDelayable = false) :
    { k with waiting := waiting, journal := journal, blocks := rest }.NothingOverdue where
  tree := hk.tree
  awaits := hAwaits
  retried b' hb' := hk.retried b' (hHand ▸ List.mem_cons_of_mem b hb')
  imported b' hb' := by
    rcases hJournal _ hb' with hOld | ⟨hOther, -⟩
    · exact hk.imported b' hOld
    · exact absurd rfl (hOther b')
  refused b' reason hb' := by
    rcases hJournal _ hb' with hOld | ⟨-, hFinal⟩
    · exact hk.refused b' reason hOld
    · exact hFinal b' reason rfl

end Desk.NothingOverdue

variable [SignatureScheme] {t : StateTransition}

/-- A move of an attestation changes nothing but votes and the states at checkpoints. -/
theorem attest_view {d d' : Draft} {v : StoreView} {a : ReceivedAttestation}
    {result : Outcome StoreError (List ValidatorIndex)} (hd : d.view = v)
    (hAttest : d.attest t .skip a.attestation = (result, d')) : SameChain v d'.view := by
  have hSame := d.attest_sameChain t .skip a.attestation
  rwa [hd, hAttest] at hSame

/-- **One move.** No move makes anything wait for what has happened. -/
theorem nothingOverdue_move (h : Move t k k') (hk : k.NothingOverdue) : k'.NothingOverdue := by
  cases h with
  | @forget d hd =>
    have hSame : SameChain k.view d.discardVotes.view := hd ▸ d.discardVotes_sameChain
    exact hk.of_sameChain hSame (hk.awaits.of_sameChain hSame) rfl fun _ => Or.inl
  | collect => exact { hk with }
  | takeUntilTick => exact { hk with awaits := { hk.awaits with } }
  | arrange => exact { hk with }
  | @imported b rest d d' root hHand hd hImport =>
    obtain ⟨parentState, state, hAdmitted, -, hView⟩ := Draft.importBlock_imported hImport
    obtain ⟨hRoot, -⟩ := admitBlock_eq_fresh.mp hAdmitted
    have hTree : d'.view.Rooted := (stable_rooted t).importBlock hImport (hd ▸ hk.tree)
    rw [hd] at hView
    have hBlocks : ∀ r, d'.view.block? r = if root = r then some b.block else k.view.block? r := by
      rw [hView]
      exact fun r => rfl
    have hSlot : d'.view.currentSlot = k.view.currentSlot := by
      rw [hView]
      rfl
    have hMore : ∀ {r block}, k.view.block? r = some block →
        ∃ block, d'.view.block? r = some block := by
      intro r block hKnown
      rw [hBlocks]
      split
      · exact ⟨_, rfl⟩
      · exact ⟨_, hKnown⟩
    exact {
      tree := hTree
      awaits := hk.awaits.takeUntilKnown hBlocks hSlot
      retried := by
        intro b' hb' hRetried
        rcases List.mem_append.mp hb' with hRest | hChild
        · obtain ⟨parent, hParent⟩ :=
            hk.retried b' (hHand ▸ List.mem_cons_of_mem b hRest) hRetried
          exact hMore hParent
        · -- A child of the block goes on because its parent is known now.
          obtain ⟨child, hTaken, rfl⟩ := List.mem_map.mp hChild
          have hParent : child.retry.block.parentRoot = root :=
            (Waiting.mem_takeUntilParent.mp hTaken).2
          rw [hParent, hBlocks, if_pos rfl]
          exact ⟨_, rfl⟩
      imported := by
        intro b' hb'
        rcases List.mem_cons.mp hb' with hNew | hOld
        · cases hNew
          exact ⟨root, b.block, hRoot, by rw [hBlocks, if_pos rfl]⟩
        · obtain ⟨root', block, hRoot', hKnown⟩ := hk.imported b' hOld
          obtain ⟨block', hKnown'⟩ := hMore hKnown
          exact ⟨root', block', hRoot', hKnown'⟩
      refused := by
        intro b' reason hb'
        rcases List.mem_cons.mp hb' with hNew | hOld
        · cases hNew
        · exact hk.refused b' reason hOld }
  | known hHand =>
    refine hk.putAway hHand hk.awaits fun fate hFate => ?_
    rcases List.mem_cons.mp hFate with rfl | hOld
    · exact Or.inr ⟨by simp, by simp⟩
    · exact Or.inl hOld
  | refused hHand _ _ hFinal =>
    refine hk.putAway hHand hk.awaits fun fate hFate => ?_
    rcases List.mem_cons.mp hFate with rfl | hOld
    · refine Or.inr ⟨by simp, fun b reason hSame => ?_⟩
      cases hSame
      exact hFinal
    · exact Or.inl hOld
  | @dropped b rest reason hHand hRetried hParent =>
    -- A block that has waited before has a known parent.
    obtain ⟨parent, hKnown⟩ := hk.retried b (hHand ▸ List.mem_cons_self) hRetried
    rw [hk.tree.state?_eq_none, hKnown] at hParent
    exact absurd hParent (by simp)
  | untilParent hHand hParent =>
    rw [hk.tree.state?_eq_none] at hParent
    exact hk.putAway hHand (hk.awaits.delayUntilParent hParent) fun _ => Or.inl
  | untilSlot hHand hParent hSlot =>
    have hKnown := hk.tree.known_of_state hParent
    exact hk.putAway hHand (hk.awaits.delayUntilSlot hSlot hKnown) fun _ => Or.inl
  | applied _ hd hAttest =>
    have hSame := attest_view hd hAttest
    refine hk.of_sameChain hSame (hk.awaits.of_sameChain hSame) rfl fun fate hFate => ?_
    rcases List.mem_cons.mp hFate with rfl | hOld
    · exact Or.inr ⟨by simp, by simp⟩
    · exact Or.inl hOld
  | rejected _ hd hAttest =>
    have hSame := attest_view hd hAttest
    refine hk.of_sameChain hSame (hk.awaits.of_sameChain hSame) rfl fun fate hFate => ?_
    rcases List.mem_cons.mp hFate with rfl | hOld
    · exact Or.inr ⟨by simp, by simp⟩
    · exact Or.inl hOld
  | untilTick _ hd hAttest =>
    have hSame := attest_view hd hAttest
    have hAwaits := hk.awaits.of_sameChain hSame
    exact hk.of_sameChain hSame { hAwaits with } rfl fun _ => Or.inl
  | @untilBlock a rest d d' root reason _ hd hAttest hUnknown =>
    have hSame := attest_view hd hAttest
    -- What is not known as a block has no state, and the other way round.
    have hMissing : d'.view.block? root = none := by
      rw [hSame.sameTree.block?]
      rcases hUnknown with hBlock | hState
      · exact hBlock
      · exact hk.tree.state?_eq_none.mp hState
    exact hk.of_sameChain hSame ((hk.awaits.of_sameChain hSame).delayUntilBlock hMissing) rfl
      fun _ => Or.inl

end

/-! ## Runs without failures -/

/-- Between messages, nothing waits for what has happened. -/
structure Engine.AwaitsAll [HashFunction] (e : Engine) : Prop where
  /-- A block waits for its slot only if the slot has not come and the parent is known. -/
  untilSlot : ∀ b ∈ e.waiting.blocksUntilSlot, e.store.view.currentSlot < b.block.slot ∧
    ∃ parent, e.store.view.block? b.block.parentRoot = some parent
  /-- A block waits for its parent only if the parent is not known. -/
  untilParent : ∀ b ∈ e.waiting.blocksUntilParent, e.store.view.block? b.block.parentRoot = none
  /-- An attestation waits for a block only if the block is not known. -/
  untilBlock : ∀ entry ∈ e.waiting.attestationsUntilBlock, e.store.view.block? entry.1 = none
  /-- Nothing waits for a block that has been imported. -/
  imported : ∀ b, .blockImported b ∈ e.journal → ∃ root, b.treeRoot = .ok root ∧
    (∀ b' ∈ e.waiting.blocksUntilParent, b'.block.parentRoot ≠ root) ∧
      ∀ entry ∈ e.waiting.attestationsUntilBlock, entry.1 ≠ root
  /-- No block has been dropped because its parent was not known. -/
  neverDropped : ∀ b root parent, .blockRefused b (.noParentBlock root parent) ∉ e.journal

theorem Desk.NothingOverdue.awaitsAll [HashFunction] {e : Engine} (h : e.atRest.NothingOverdue) :
    e.AwaitsAll where
  untilSlot := h.awaits.untilSlot
  untilParent := h.awaits.untilParent
  untilBlock := h.awaits.untilBlock
  imported b hb := by
    obtain ⟨root, block, hRoot, hKnown⟩ := h.imported b hb
    have hKnown : e.store.view.block? root = some block := hKnown
    refine ⟨root, hRoot, ?_, ?_⟩
    · rintro b' hb' rfl
      have hUnknown : e.store.view.block? b'.block.parentRoot = none := h.awaits.untilParent b' hb'
      rw [hUnknown] at hKnown
      exact absurd hKnown (by simp)
    · rintro entry he rfl
      have hUnknown : e.store.view.block? entry.1 = none := h.awaits.untilBlock entry he
      rw [hUnknown] at hKnown
      exact absurd hKnown (by simp)
  neverDropped b root parent hb := by
    have hFinal := h.refused b _ hb
    exact absurd hFinal (by simp [StoreError.isDelayable])

namespace Engine

section

variable [HashFunction] [SignatureScheme] {t : StateTransition} {s : Store}

omit [SignatureScheme] in
theorem nothingOverdue_start (hs : s.IsAnchored) :
    (Engine.atRest { store := s }).NothingOverdue where
  tree := rooted_of_anchored hs
  awaits := ⟨fun _ h => absurd h List.not_mem_nil, fun _ h => absurd h List.not_mem_nil,
    fun _ h => absurd h List.not_mem_nil⟩
  retried _ h := absurd h List.not_mem_nil
  imported _ h := absurd h List.not_mem_nil
  refused _ _ h := absurd h List.not_mem_nil

theorem nothingOverdue_of_run (hs : s.IsAnchored) {deliveries : List Delivery}
    (hOk : (runFrom t s deliveries).failure = none) :
    (runFrom t s deliveries).engine.atRest.NothingOverdue := by
  exact holds_of_run (P := fun _ => Desk.NothingOverdue) (nothingOverdue_start hs)
    (fun _ _ hArrival => nothingOverdue_arrival hArrival) nothingOverdue_move hOk

/-- **No lost wakeup.** In a run without failures, after each message, whatever waits still has to
wait, and no block has been dropped after it had waited. -/
theorem awaitsAll_of_run (t : StateTransition) (hs : s.IsAnchored) (deliveries : List Delivery)
    (hOk : (runFrom t s deliveries).failure = none) (n : Nat) :
    (runFrom t s (deliveries.take n)).engine.AwaitsAll :=
  (nothingOverdue_of_run hs (failure_take t hOk n)).awaitsAll

end

/-! ## A network in which everything comes too early -/

/-- The second block waits for the first one, as does the vote, and the first one for its slot. -/
def ChainedNetwork.tooEarly (n : ChainedNetwork) : List Delivery :=
  [.block n.second, .burst [n.vote], .block n.first, .tick 6, .tick 12]

/-- In a small network two blocks and a vote wait after three messages of five. -/
theorem awaitsAll_of_tooEarly :
    letI : HashFunction := linearHash
    letI : SignatureScheme := Bls.scheme
    ∃ n : ChainedNetwork, chainedNetwork = some n ∧ n.store.IsAnchored ∧
      (runFrom (slotTransition n.store.preset) n.store n.tooEarly).failure = none ∧
        let e := (runFrom (slotTransition n.store.preset) n.store (n.tooEarly.take 3)).engine
        e.waiting.blockCount = 2 ∧ e.waiting.attestationCount = 1 ∧ e.AwaitsAll := by
  let : HashFunction := linearHash
  let : SignatureScheme := Bls.scheme
  have hRuns : (chainedNetwork.any fun n =>
      let waiting := (runFrom (slotTransition n.store.preset) n.store
        (n.tooEarly.take 3)).engine.waiting
      (runFrom (slotTransition n.store.preset) n.store n.tooEarly).failure.isNone &&
        waiting.blockCount = 2 && waiting.attestationCount = 1) = true := by
    decide +kernel
  obtain ⟨n, hNetwork, hGenesis, hRun⟩ := exists_chainedNetwork hRuns
  simp only [Bool.and_eq_true, Option.isNone_iff_eq_none, decide_eq_true_eq] at hRun
  obtain ⟨⟨hOk, hBlocks⟩, hAttestations⟩ := hRun
  have hs := hGenesis.isAnchored
  exact ⟨n, hNetwork, hs, hOk, hBlocks, hAttestations, awaitsAll_of_run _ hs n.tooEarly hOk 3⟩

end Engine

end ForkChoice
