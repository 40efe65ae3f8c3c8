import ForkChoice.Proofs.Engine.Run
import ForkChoice.Proofs.Store.Reach

/-!
# ForkChoice — votes that stop the engine

An engine that cannot find the head stops. This happens although each block that it imports is
within reach of the anchor by the measure of the import: the walk that counts a vote for the block
has one link more to follow. How the votes and the blocks got there does not matter.

* `grownFrom_of_run` — the store of an engine grows from genesis, also in a run that fails;
* `head_fails_iff_of_run` — the votes with which the head cannot be found;
* `ForkedNetwork.run`, `forked_network_stops` — a run in which two blocks stop the engine.
-/

namespace ForkChoice

open StoreView

namespace Engine

theorem updateHead_store (e : Engine) : e.updateHead.engine.store = e.store := by
  unfold Engine.updateHead
  rcases e.tracker.updateHead e.store.view with ⟨_ | _, tracker⟩ <;> rfl

section

variable [HashFunction] [SignatureScheme] {s : Store}

/-- Every step of an engine leaves a store that has grown from genesis. -/
theorem invariant_grownFrom (s : Store) :
    Invariant (slotTransition s.preset) (fun e => GrownFrom s e.store.view) fun _ => True where
  silent e e' hStore _ := by
    rw [hStore]
    exact ⟨id, id⟩
  publish {e} changes h := by
    have hStable := stable_grownFrom s
    exact hStable.commit _ (hStable.draft changes h)
  publishVotes _ _ _ := trivial
  recordVotes _ h := h
  forgetVotes _ h := h
  updateHead {e} h := by
    -- The search for the head reads the store only.
    have hStore : GrownFrom s e.updateHead.engine.store.view := by rwa [updateHead_store]
    exact ⟨hStore, fun _ => trivial⟩

theorem grownFrom_of_run (hs : s.IsGenesis) (deliveries : List Delivery) :
    GrownFrom s (runFrom (slotTransition s.preset) s deliveries).engine.store.view :=
  ((invariant_grownFrom s).runFrom (grownFrom_self hs) deliveries).1

/-- **When the engine cannot find the head.** After any messages, the search for the head exceeds
its bound if and only if a validator has voted for a block that is exactly one link further away
from the anchor than the bound says, on a branch whose first block has an earlier sibling. -/
theorem head_fails_iff_of_run (hs : s.IsGenesis) (deliveries : List Delivery) :
    let e := (runFrom (slotTransition s.preset) s deliveries).engine
    let v := e.store.view
    (∃ root, v.head e.tracker.votes =
        Outcome.fail (.ancestorDepthExceeded root s.limits.maxAncestorDepth)) ↔
      ∃ index message first sibling, e.tracker.votes.get? index = some message ∧
        v.back s.limits.maxAncestorDepth.toNat message.root = some first ∧
          v.parent? first = some s.anchorRoot ∧ v.parent? sibling = some s.anchorRoot ∧
            v.slotAt sibling < v.slotAt first := by
  intro e v
  have h : GrownFrom s v := grownFrom_of_run hs deliveries
  have hFails := h.grown.head_eq_error_iff e.tracker.votes
  rw [OneLinkTooFar, reach, h.limits, h.anchorRoot] at hFails
  exact hFails

end

/-! ## A network that stops -/

/-- The run in which the two blocks arrive in their slots, the later one first. -/
def ForkedNetwork.run [HashFunction] [SignatureScheme] (n : ForkedNetwork) : Run :=
  runFrom (slotTransition n.store.preset) n.store [.tick 12, .block n.late, .block n.early]

/-- Whether the run stops because the vote for the later block is out of reach. -/
def ForkedNetwork.stops [HashFunction] [SignatureScheme] (n : ForkedNetwork) : Bool :=
  n.store.limits.maxAncestorDepth = 0 &&
    n.run.failure = some (.error (.ancestorDepthExceeded n.lateRoot 0)) &&
      match n.run.engine.store.view.head n.run.engine.tracker.votes with
      | .ok _ => false
      | .error e => e = .error (.ancestorDepthExceeded n.lateRoot 0)

/-- What it means that the run stops. -/
theorem ForkedNetwork.of_stops [HashFunction] [SignatureScheme] {n : ForkedNetwork}
    (h : n.stops = true) : n.store.limits.maxAncestorDepth = 0 ∧
      n.run.failure = some (.error (.ancestorDepthExceeded n.lateRoot 0)) ∧
        n.run.engine.store.view.head n.run.engine.tracker.votes =
          Outcome.fail (.ancestorDepthExceeded n.lateRoot 0) := by
  simp only [stops, Bool.and_eq_true, decide_eq_true_eq] at h
  obtain ⟨⟨hLimit, hFailure⟩, hHead⟩ := h
  refine ⟨hLimit, hFailure, ?_⟩
  split at hHead
  · exact absurd hHead (by simp)
  · rename_i e hFails
    rw [hFails, of_decide_eq_true hHead]
    rfl

/-- The run is computed, genesis included; only that it is a genesis is not. -/
theorem exists_stops :
    letI : HashFunction := linearHash
    letI : SignatureScheme := Bls.scheme
    ∃ n : ForkedNetwork, forkedNetwork = some n ∧ n.store.IsGenesis ∧ n.stops = true := by
  let : HashFunction := linearHash
  let : SignatureScheme := Bls.scheme
  have hStops : forkedNetwork.any ForkedNetwork.stops = true := by decide +kernel
  exact exists_forkedNetwork hStops

/-- The search for the head fails after the two blocks, and so a validator has voted for a block
that is one link too far away. -/
theorem head_fails_iff_after_two_blocks :
    letI : HashFunction := linearHash
    letI : SignatureScheme := Bls.scheme
    ∃ n : ForkedNetwork, forkedNetwork = some n ∧ n.store.IsGenesis ∧
      let e := n.run.engine
      let v := e.store.view
      v.head e.tracker.votes = Outcome.fail (.ancestorDepthExceeded n.lateRoot 0) ∧
        ((∃ root, v.head e.tracker.votes =
            Outcome.fail (.ancestorDepthExceeded root n.store.limits.maxAncestorDepth)) ↔
          ∃ index message first sibling, e.tracker.votes.get? index = some message ∧
            v.back n.store.limits.maxAncestorDepth.toNat message.root = some first ∧
              v.parent? first = some n.store.anchorRoot ∧
                v.parent? sibling = some n.store.anchorRoot ∧
                  v.slotAt sibling < v.slotAt first) := by
  let : HashFunction := linearHash
  let : SignatureScheme := Bls.scheme
  obtain ⟨n, hNetwork, hs, hStops⟩ := exists_stops
  obtain ⟨-, -, hHead⟩ := ForkedNetwork.of_stops hStops
  exact ⟨n, hNetwork, hs, hHead, head_fails_iff_of_run hs [.tick 12, .block n.late, .block n.early]⟩

/-- Two blocks stop the engine of a network that has begun at genesis. -/
theorem forked_network_stops :
    letI : HashFunction := linearHash
    letI : SignatureScheme := Bls.scheme
    ∃ n : ForkedNetwork, forkedNetwork = some n ∧ n.store.IsGenesis ∧
      n.store.limits.maxAncestorDepth = 0 ∧
        n.run.failure = some (.error (.ancestorDepthExceeded n.lateRoot 0)) ∧
          n.run.engine.store.view.head n.run.engine.tracker.votes =
            Outcome.fail (.ancestorDepthExceeded n.lateRoot 0) := by
  let : HashFunction := linearHash
  let : SignatureScheme := Bls.scheme
  obtain ⟨n, hNetwork, hs, hStops⟩ := exists_stops
  exact ⟨n, hNetwork, hs, ForkedNetwork.of_stops hStops⟩

end Engine

end ForkChoice
