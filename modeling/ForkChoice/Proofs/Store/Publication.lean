import ForkChoice.Proofs.Store.Commit

/-!
# ForkChoice — what a commit publishes

A draft is read through its overlay: time and checkpoints from the overlay if they are there,
blocks and states from the overlay first, children from both, votes from the store only if they
have not been discarded. A commit makes one table of each of these. What it publishes reads
exactly as the draft did, so whoever asks the store afterwards (for an ancestor, for the head) is
told what the draft would have told.

Only votes could go wrong here: they are merged with those of the store, and not put in their
place. `Newer.commit_view` shows that none of them is lost.

* `Draft.Publishes` — the store reads as the draft does;
* `publishes_commit` — it does after a commit, whatever has been done with the draft.
-/

namespace ForkChoice

/-- The votes that a store keeps are those that can be read from it. -/
theorem Store.mem_latestMessages {s : Store} {index : ValidatorIndex} {message : LatestMessage} :
    (index, message) ∈ s.latestMessages.toList ↔ s.view.latestMessage? index = some message :=
  Std.TreeMap.mem_toList_iff_getElem?_eq_some

namespace Draft

/-- Whatever is asked of the store, the draft gives the same answer. -/
structure Publishes (d : Draft) (s : Store) : Prop where
  time : s.view.time = d.view.time
  currentSlot : s.view.currentSlot = d.view.currentSlot
  justified : s.view.justified = d.view.justified
  bestJustified : s.view.bestJustified = d.view.bestJustified
  finalized : s.view.finalized = d.view.finalized
  block? : ∀ root, s.view.block? root = d.view.block? root
  state? : ∀ root, s.view.state? root = d.view.state? root
  checkpointState? : ∀ checkpoint,
    s.view.checkpointState? checkpoint = d.view.checkpointState? checkpoint
  latestMessage? : ∀ index, s.view.latestMessage? index = d.view.latestMessage? index
  /-- The children of a block, in the same order. -/
  children : ∀ root, s.view.children root = d.view.children root
  /-- The store keeps a vote of exactly those validators of which the draft shows one. -/
  latestMessages : ∀ index message,
    (index, message) ∈ s.latestMessages.toList ↔ d.view.latestMessage? index = some message
  ancestor : ∀ root slot, s.view.ancestor root slot = d.view.ancestor root slot
  head : ∀ messages, s.view.head messages = d.view.head messages

theorem publishes_of_view {d : Draft} {s : Store} (h : s.view = d.view) : d.Publishes s where
  time := congrArg StoreView.time h
  currentSlot := congrArg StoreView.currentSlot h
  justified := congrArg StoreView.justified h
  bestJustified := congrArg StoreView.bestJustified h
  finalized := congrArg StoreView.finalized h
  block? root := congrArg (StoreView.block? · root) h
  state? root := congrArg (StoreView.state? · root) h
  checkpointState? checkpoint := congrArg (StoreView.checkpointState? · checkpoint) h
  latestMessage? index := congrArg (StoreView.latestMessage? · index) h
  children root := congrArg (StoreView.children · root) h
  latestMessages index message := by rw [Store.mem_latestMessages, h]
  ancestor root slot := congrArg (StoreView.ancestor · root slot) h
  head messages := congrArg (StoreView.head · messages) h

/-- **Commits.** After any operations on a draft of any store, whether they have succeeded or
failed, the commit publishes what the draft shows. -/
theorem publishes_commit [HashFunction] [SignatureScheme] (t : StateTransition) (s : Store)
    (changes : List Change) :
    ((ofStore s).changeAll t changes).Publishes (s.transact t ⟨changes, true⟩) := by
  have hCommit : s.transact t ⟨changes, true⟩ = ((ofStore s).changeAll t changes).commit :=
    if_pos rfl
  rw [hCommit]
  exact publishes_of_view (commit_view_changeAll s changes)

end Draft

end ForkChoice
