import ForkChoice.Bls.Keys
import ForkChoice.Chain.State

/-!
# ForkChoice — small test networks

Test networks start from a state in which all validators are active from the beginning. The keys
of the validators follow from their indices, so that everybody can sign for them.

* `secretKeyOf` — the key of a validator;
* `genesisState` — the state of a network with given validators, `quickStartState` — with
  validators whose keys follow from their indices;
* `genesisBlock` — the block that belongs to such a state.
-/

namespace ForkChoice

namespace Devnet

open Bls (SecretKey groupOrder)

section

variable [HashFunction]

/-- The secret key of the validator with the given index: the little-endian number that the hash
of the index is, modulo the group order. -/
def secretKeyOf (index : UInt64) : Checked SecretKey :=
  let number := Bytes.toNat (Bytes.ofBitVec (hashRoot (wordChunk index))).reverse
  match SecretKey.ofBytes (BitVec.ofNat 256 (number % groupOrder)) with
  | .ok key => .ok key
  | .error _ =>
    .error (.violated "the algorithm given in the standard should produce valid secret keys")

/-- The hash of the public key with the first byte replaced by zero. -/
def withdrawalCredentials (key : PublicKeyBytes) : Root :=
  0#8 ++ (hashPublicKey key).setWidth 248

end

/-- A validator that is active from the beginning and will stay so. -/
def activeValidator (key : PublicKeyBytes) (credentials : Root) : Validator where
  publicKey := key
  withdrawalCredentials := credentials
  effectiveBalance := maxEffectiveBalance
  slashed := false
  activationEligibilityEpoch := 0
  activationEpoch := 0
  exitEpoch := farFutureEpoch
  withdrawableEpoch := farFutureEpoch

/-- A validator whose key is not the encoding of a point: the index in 48 bytes. -/
def keylessValidator (index : Nat) : Validator :=
  activeValidator (BitVec.ofNat 384 index) 0

section

variable [HashFunction]

/-- The validator whose key follows from its index. -/
def quickStartValidator (index : Nat) : Checked Validator := do
  let key := (← secretKeyOf (UInt64.ofNat index)).publicKey.toBytes
  return activeValidator key (withdrawalCredentials key)

/-- The content of a block without anything in it. -/
def emptyBody : BlockBody := ⟨0, 0, []⟩

/-- The state of a network with the given validators at its beginning. -/
def genesisState (p : Preset) (config : Config) (genesisTime : UInt64)
    (validators : List Validator) : Checked BeaconState := do
  let validatorsRoot ←
    Merkle.listRoot (validators.map Validator.treeRoot) validatorRegistryLimit
  let bodyRoot ← emptyBody.treeRoot
  let history := Array.replicate p.slotsPerHistoricalRoot.toNat (0 : Root)
  return {
    genesisTime := genesisTime
    genesisValidatorsRoot := validatorsRoot
    slot := 0
    fork := ⟨config.genesisForkVersion, config.genesisForkVersion, 0⟩
    latestBlockHeader := ⟨0, 0, 0, 0, bodyRoot⟩
    blockRoots := history
    stateRoots := history
    validators := validators.toArray
    balances := (validators.map Validator.effectiveBalance).toArray
    randaoMixes := Array.replicate p.epochsPerHistoricalVector.toNat (hashOfBeginning)
    previousJustified := .empty
    currentJustified := .empty
    finalized := .empty }
where
  /-- The source of randomness at the beginning: 32 equal bytes. -/
  hashOfBeginning : Root := 0x4242424242424242424242424242424242424242424242424242424242424242

/-- The state of a network with `count` validators whose keys follow from their indices. -/
def quickStartState (p : Preset) (config : Config) (genesisTime : UInt64) (count : Nat) :
    Checked BeaconState := do
  genesisState p config genesisTime (← (List.range count).mapM quickStartValidator)

/-- The block that a state is the state after, if the state is that of a new network. -/
def genesisBlock (p : Preset) (s : BeaconState) : Checked Block := do
  return ⟨s.slot, 0, 0, ← s.treeRoot p, emptyBody⟩

/-- The number of validators that fill one committee in each slot of an epoch. -/
def smallestCount (p : Preset) : Nat :=
  (Word.satMul p.targetCommitteeSize p.slotsPerEpoch).toNat

end

end Devnet

end ForkChoice
