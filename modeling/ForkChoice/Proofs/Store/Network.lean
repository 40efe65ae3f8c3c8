import ForkChoice.Proofs.Store.States
import ForkChoice.Proofs.Transition.Network

/-!
# ForkChoice — all states of a store are of one network

The rules do not lead out of the network of a state. So whatever has been done, and on whatever
branch they are, all states that a store shows are states of the network of the first one.

* `StoreView.InNetwork` — the states of a view;
* `keeps_sameNetwork` — the rules do not lead out of a network;
* `exists_inNetwork_of_shows` — all that can be read after genesis.
-/

namespace ForkChoice

namespace StoreView

/-- The view has the rules of the store `s`, and its states are of the network of `origin`. -/
structure InNetwork (s : Store) (origin : BeaconState) (v : StoreView) : Prop where
  preset : v.preset = s.preset
  config : v.config = s.config
  state : ∀ {root : Root} {state : BeaconState}, v.state? root = some state →
    origin.SameNetwork state
  checkpointState : ∀ {c : Checkpoint} {state : BeaconState}, v.checkpointState? c = some state →
    origin.SameNetwork state

variable {s : Store} {origin state : BeaconState} {v : StoreView} {d : Draft}

/-- To be in a network is a property of states. -/
theorem inNetwork_iff : v.InNetwork s origin ↔ v.StatesHave s origin.SameNetwork :=
  ⟨fun h => ⟨h.preset, h.config, h.state, h.checkpointState⟩,
    fun h => ⟨h.preset, h.config, h.state, h.checkpointState⟩⟩

/-- What the rules make of a state of the network is a state of the network. -/
theorem keeps_sameNetwork [HashFunction] (p : Preset) (origin : BeaconState) :
    (slotTransition p).Keeps origin.SameNetwork where
  processSlots hState h :=
    hState.trans (BeaconState.slotTransition_processSlots_sameNetwork h)
  applyBlock hState h := hState.trans (BeaconState.slotTransition_applyBlock_sameNetwork h)

/-- A state at a checkpoint comes from the state after its block. -/
theorem InNetwork.checkpointState_draft [HashFunction] (h : InNetwork s origin d.view)
    (hState : origin.SameNetwork state) (target : Checkpoint) :
    InNetwork s origin (d.checkpointState (slotTransition s.preset) target state).2.view ∧
      ∀ found, (d.checkpointState (slotTransition s.preset) target state).1 = .ok found →
        origin.SameNetwork found := by
  obtain ⟨hAfter, hFound⟩ := (inNetwork_iff.mp h).checkpointState_draft
    (keeps_sameNetwork s.preset origin) hState target
  exact ⟨inNetwork_iff.mpr hAfter, hFound⟩

/-- **One network.** All states that can be read after genesis are of one network. -/
theorem exists_inNetwork_of_shows [HashFunction] [SignatureScheme] {s : Store} (hs : s.IsGenesis) :
    ∃ origin, ∀ {v : StoreView}, s.Shows (slotTransition s.preset) v → InNetwork s origin v := by
  obtain ⟨root, block, origin, hFacts⟩ := hs.facts
  refine ⟨origin, fun hv => inNetwork_iff.mpr ?_⟩
  exact statesHave_of_shows (keeps_sameNetwork s.preset origin) hFacts
    (BeaconState.SameNetwork.refl origin) hv

end StoreView

end ForkChoice
