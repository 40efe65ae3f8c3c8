import ForkChoice.Bls.Keys
import ForkChoice.Proofs.Store.Growth

/-!
# ForkChoice — stores are well formed

What a reader of a store may rely on, in a committed store as well as in an open draft: blocks and
states come in pairs that belong together, the blocks form a tree under the anchor in which slots
fall towards the anchor, and the children of a block are listed without gaps and repetitions.

* `StoreView.WellFormed` — the property;
* `Grown.wellFormed` — the invariant implies it;
* `wellFormed_of_history` — it holds after any history from genesis and any changes of a draft.
-/

namespace ForkChoice

open StoreView

/-- What a reader of a store may rely on. -/
structure StoreView.WellFormed [HashFunction] (v : StoreView) : Prop where
  anchor_known : ∃ block, v.block? v.anchorRoot = some block
  /-- Blocks and states come in pairs. -/
  paired : ∀ r, (v.block? r).isSome ↔ (v.state? r).isSome
  root_eq : ∀ r block, v.block? r = some block → block.treeRoot = .ok r
  stateRoot_eq : ∀ r block state, v.block? r = some block → v.state? r = some state →
    state.treeRoot v.preset = .ok block.stateRoot
  /-- The parent of a block other than the anchor is known and older. -/
  parent_older : ∀ r block, v.block? r = some block → r ≠ v.anchorRoot →
    ∃ parent, v.block? block.parentRoot = some parent ∧ parent.slot < block.slot
  /-- The links lead from every block to the anchor. -/
  reaches_anchor : ∀ r block, v.block? r = some block → v.Descends v.anchorRoot r
  /-- The children of a block are those blocks whose parent it is, but for the anchor. -/
  mem_children : ∀ p c, c ∈ v.children p ↔
    c ≠ v.anchorRoot ∧ ∃ block, v.block? c = some block ∧ block.parentRoot = p
  nodup_children : ∀ p, (v.children p).Nodup

theorem StoreView.Grown.wellFormed [HashFunction] {v : StoreView} (hv : v.Grown) :
    v.WellFormed where
  anchor_known := by
    obtain ⟨block, hAnchor, -⟩ := hv.anchor
    exact ⟨block, hAnchor⟩
  paired r := by
    rw [Option.isSome_iff_exists, Option.isSome_iff_exists]
    constructor
    · rintro ⟨block, hBlock⟩
      obtain ⟨state, hState, -⟩ := hv.entry hBlock
      exact ⟨state, hState⟩
    · rintro ⟨state, hState⟩
      exact hv.known hState
  root_eq r block hBlock := by
    obtain ⟨state, -, hEntry⟩ := hv.entry hBlock
    exact hEntry.root_eq
  stateRoot_eq r block state hBlock hState := by
    obtain ⟨_, hStored, hEntry⟩ := hv.entry hBlock
    cases hState.symm.trans hStored
    exact hEntry.stateRoot_eq
  parent_older r block hBlock hNe := (hv.placed hBlock hNe).parent
  reaches_anchor r block hBlock := hv.descends_anchor hBlock
  mem_children p c := by rw [hv.mem_children, parent?_eq_some]
  nodup_children := hv.nodup_children

namespace Store

/-- **Well-formedness.** After any history from genesis, of transactions that are committed or
given up and of operations that succeed or fail, the store is well formed, and so is what any
open draft of it shows. -/
theorem wellFormed_of_history [HashFunction] [SignatureScheme] {s : Store} (hs : s.IsGenesis)
    (history : List Transaction) (changes : List Change) :
    (s.after (slotTransition s.preset) history).view.WellFormed ∧
      ((Draft.ofStore (s.after (slotTransition s.preset) history)).changeAll
        (slotTransition s.preset) changes).view.WellFormed := by
  have hStore := grownFrom_of_shows hs ⟨history, Or.inl rfl⟩
  have hDraft := grownFrom_of_shows hs ⟨history, Or.inr ⟨changes, rfl⟩⟩
  exact ⟨hStore.grown.wellFormed, hDraft.grown.wellFormed⟩

section

open Engine (ChainedNetwork chainedNetwork checkBranches linearHash)

/-- Two blocks beside each other are added to a small network, after one has been refused, and a
draft is given up in between. -/
theorem wellFormed_of_fork :
    letI : HashFunction := linearHash
    letI : SignatureScheme := Bls.scheme
    ∃ (n : ChainedNetwork) (other : Block) (first second rival : Root),
      chainedNetwork = some n ∧ n.store.IsGenesis ∧ n.rival? = some other ∧
        let t := slotTransition n.store.preset
        let s := n.store.after t [⟨[.tick 18, .block n.second, .block n.first], true⟩,
          ⟨[.block n.second], false⟩, ⟨[.block other], true⟩]
        let d := (Draft.ofStore s).changeAll t
          [.block n.second, .attestation .skip (n.voteFor 2 second), .discardVotes]
        s.view.children n.store.anchorRoot = [first, rival] ∧ s.view.block? second = none ∧
          d.view.children first = [second] ∧ s.view.WellFormed ∧ d.view.WellFormed := by
  let : HashFunction := linearHash
  let : SignatureScheme := Bls.scheme
  let history (n : ChainedNetwork) (other : Block) : List Transaction :=
    [⟨[.tick 18, .block n.second, .block n.first], true⟩, ⟨[.block n.second], false⟩,
      ⟨[.block other], true⟩]
  let changes (n : ChainedNetwork) (second : Root) : List Change :=
    [.block n.second, .attestation .skip (n.voteFor 2 second), .discardVotes]
  have hRuns : checkBranches (fun n other first second rival =>
      let t := slotTransition n.store.preset
      let s := n.store.after t (history n other)
      decide (s.view.children n.store.anchorRoot = [first, rival]) &&
        decide (s.view.block? second = none) &&
          decide (((Draft.ofStore s).changeAll t (changes n second)).view.children first =
            [second])) = true := by
    decide +kernel
  obtain ⟨n, other, first, second, rival, hNetwork, hs, hRival, hRun⟩ :=
    Engine.exists_branches hRuns
  simp only [Bool.and_eq_true, decide_eq_true_eq] at hRun
  obtain ⟨⟨hChildren, hRefused⟩, hDraft⟩ := hRun
  obtain ⟨hStore, hOpen⟩ := wellFormed_of_history hs (history n other) (changes n second)
  exact ⟨n, other, first, second, rival, hNetwork, hs, hRival, hChildren, hRefused, hDraft, hStore,
    hOpen⟩

end

end Store

end ForkChoice
