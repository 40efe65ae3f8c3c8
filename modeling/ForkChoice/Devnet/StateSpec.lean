import ForkChoice.Devnet.Attempt

/-!
# ForkChoice — descriptions of states

A state is described by what distinguishes it from the state of a new network: changes that are
made one after another.

* `GenesisSpec` — descriptions of new networks, `GenesisSpec.build` — the state of one;
* `StateChange` — changes, `StateChange.apply` — the state after one;
* `StateChange.applyAll` — the state after several, up to the first that cannot be made.
-/

namespace ForkChoice

namespace Devnet

/-- A new network. -/
structure GenesisSpec where
  validators : Nat := 32
  /-- Whether the validators have keys that follow from their indices, or none at all. -/
  hasKeys : Bool := false
  genesisTime : UInt64 := 0

/-- What is to be different in a validator. -/
inductive ValidatorChange where
  | publicKey (key : PublicKeyBytes)
  /-- The key is that of the validator with this index. -/
  | keyOf (index : UInt64)
  | withdrawalCredentials (root : Root)
  | effectiveBalance (amount : UInt64)
  | slashed (holds : Bool)
  | activationEligibilityEpoch (epoch : Epoch)
  | activationEpoch (epoch : Epoch)
  | exitEpoch (epoch : Epoch)
  | withdrawableEpoch (epoch : Epoch)

/-- What distinguishes the latest block. -/
structure HeaderPatch where
  slot : Option Slot := none
  proposerIndex : Option ValidatorIndex := none
  parentRoot : Option Root := none
  stateRoot : Option Root := none
  bodyRoot : Option Root := none

/-- What is to be different in a state. -/
inductive StateChange where
  | validator (index : Nat) (changes : List ValidatorChange)
  | balance (index : Nat) (amount : UInt64)
  | randaoMix (index : Nat) (mix : Root)
  | blockRoot (index : Nat) (root : Root)
  | stateRoot (index : Nat) (root : Root)
  | slot (n : Slot)
  | genesisValidatorsRoot (root : Root)
  | fork (versions : Fork)
  | header (patch : HeaderPatch)
  | previousJustified (checkpoint : Checkpoint)
  | currentJustified (checkpoint : Checkpoint)
  | finalized (checkpoint : Checkpoint)
  /-- The state moves on to a later slot. -/
  | advance (later : Slot)

/-- The header with the described differences. -/
def HeaderPatch.apply (patch : HeaderPatch) (h : BlockHeader) : BlockHeader where
  slot := patch.slot.getD h.slot
  proposerIndex := patch.proposerIndex.getD h.proposerIndex
  parentRoot := patch.parentRoot.getD h.parentRoot
  stateRoot := patch.stateRoot.getD h.stateRoot
  bodyRoot := patch.bodyRoot.getD h.bodyRoot

section

variable [HashFunction]

/-- The state of the described network when it is new. -/
def GenesisSpec.build (spec : GenesisSpec) (p : Preset) (config : Config) : Checked BeaconState :=
  if spec.hasKeys then quickStartState p config spec.genesisTime spec.validators
  else genesisState p config spec.genesisTime ((List.range spec.validators).map keylessValidator)

/-- The validator after a change. -/
def ValidatorChange.apply (v : Validator) : ValidatorChange → Checked Validator
  | .publicKey key => .ok { v with publicKey := key }
  | .keyOf index => do return { v with publicKey := (← secretKeyOf index).publicKey.toBytes }
  | .withdrawalCredentials root => .ok { v with withdrawalCredentials := root }
  | .effectiveBalance amount => .ok { v with effectiveBalance := amount }
  | .slashed holds => .ok { v with slashed := holds }
  | .activationEligibilityEpoch epoch => .ok { v with activationEligibilityEpoch := epoch }
  | .activationEpoch epoch => .ok { v with activationEpoch := epoch }
  | .exitEpoch epoch => .ok { v with exitEpoch := epoch }
  | .withdrawableEpoch epoch => .ok { v with withdrawableEpoch := epoch }

namespace StateChange

/-- The state after a change. -/
def apply (p : Preset) (s : BeaconState) : StateChange → Attempt BeaconState
  | .validator index changes =>
    match s.validators[index]? with
    | none => Outcome.fail (.unfit "indices")
    | some v => do
      let v ← (changes.foldlM ValidatorChange.apply v : Checked Validator)
      return { s with validators := s.validators.setIfInBounds index v }
  | .balance index amount => do
    return { s with balances := ← Checked.setAt s.balances index amount }
  | .randaoMix index mix => do
    return { s with randaoMixes := ← Checked.setAt s.randaoMixes index mix }
  | .blockRoot index root => do
    return { s with blockRoots := ← Checked.setAt s.blockRoots index root }
  | .stateRoot index root => do
    return { s with stateRoots := ← Checked.setAt s.stateRoots index root }
  | .slot n => .ok { s with slot := n }
  | .genesisValidatorsRoot root => .ok { s with genesisValidatorsRoot := root }
  | .fork versions => .ok { s with fork := versions }
  | .header patch => .ok { s with latestBlockHeader := patch.apply s.latestBlockHeader }
  | .previousJustified checkpoint => .ok { s with previousJustified := checkpoint }
  | .currentJustified checkpoint => .ok { s with currentJustified := checkpoint }
  | .finalized checkpoint => .ok { s with finalized := checkpoint }
  | .advance later => .ofBuild (Devnet.advance p s later)

/-- The state after changes that are made in order, up to the first that cannot be made, and why it
cannot. -/
def applyAll (p : Preset) : BeaconState → List StateChange → BeaconState × Attempt Unit
  | s, [] => (s, .ok ())
  | s, change :: rest =>
    match change.apply p s with
    | .ok s => applyAll p s rest
    | .error reason => (s, .error reason)

end StateChange

end

end Devnet

end ForkChoice
