import ForkChoice.Chain.Block

/-!
# ForkChoice — beacon states

What a chain of blocks amounts to at a slot, as far as the choice of the head depends on it.

* `Validator`, `Fork`, `BeaconState` — the parts;
* `BeaconState.treeRoot` — the hash tree root, which exists if no vector is longer than its
  preset admits;
* `signingRoot` — what is signed in place of an object.
-/

namespace ForkChoice

/-- The versions of the protocol before and from an epoch on. -/
structure Fork where
  previousVersion : Version
  currentVersion : Version
  epoch : Epoch
  deriving Repr, DecidableEq, Inhabited

/-- The hash tree root. -/
def Fork.treeRoot [HashFunction] (f : Fork) : Root :=
  Merkle.containerRoot
    [versionChunk f.previousVersion, versionChunk f.currentVersion, wordChunk f.epoch]

/-- What tells apart the chains of different networks. -/
structure ForkData where
  currentVersion : Version
  genesisValidatorsRoot : Root
  deriving Repr, DecidableEq, Inhabited

/-- The hash tree root. -/
def ForkData.treeRoot [HashFunction] (f : ForkData) : Root :=
  Merkle.containerRoot [versionChunk f.currentVersion, f.genesisValidatorsRoot]

/-- The root of an object and the domain in which it is signed. -/
structure SigningData where
  objectRoot : Root
  domain : Root
  deriving Repr, DecidableEq, Inhabited

/-- The hash tree root. -/
def SigningData.treeRoot [HashFunction] (d : SigningData) : Root :=
  Merkle.containerRoot [d.objectRoot, d.domain]

/-- What is signed in place of an object with the given root. -/
def signingRoot [HashFunction] (objectRoot domain : Root) : Root :=
  (SigningData.mk objectRoot domain).treeRoot

/-- An entry of the registry. -/
structure Validator where
  publicKey : PublicKeyBytes
  withdrawalCredentials : Root
  effectiveBalance : UInt64
  slashed : Bool
  activationEligibilityEpoch : Epoch
  activationEpoch : Epoch
  exitEpoch : Epoch
  withdrawableEpoch : Epoch
  deriving Repr, DecidableEq, Inhabited

namespace Validator

/-- The hash tree root. -/
def treeRoot [HashFunction] (v : Validator) : Root :=
  Merkle.containerRoot
    [Merkle.publicKeyRoot v.publicKey, v.withdrawalCredentials, wordChunk v.effectiveBalance,
      boolChunk v.slashed, wordChunk v.activationEligibilityEpoch, wordChunk v.activationEpoch,
      wordChunk v.exitEpoch, wordChunk v.withdrawableEpoch]

/-- Whether the validator is active in an epoch. -/
def isActive (v : Validator) (epoch : Epoch) : Bool :=
  v.activationEpoch ≤ epoch && epoch < v.exitEpoch

end Validator

/-- What a chain of blocks amounts to at a slot. -/
structure BeaconState where
  genesisTime : UInt64
  genesisValidatorsRoot : Root
  slot : Slot
  fork : Fork
  latestBlockHeader : BlockHeader
  blockRoots : Array Root
  stateRoots : Array Root
  validators : Array Validator
  balances : Array UInt64
  randaoMixes : Array Root
  previousJustified : Checkpoint
  currentJustified : Checkpoint
  finalized : Checkpoint
  deriving DecidableEq, Inhabited

/-- The hash tree root. -/
def BeaconState.treeRoot [HashFunction] (p : Preset) (s : BeaconState) : Checked Root := do
  let roots := p.slotsPerHistoricalRoot.toNat
  let blockRoots ← Merkle.vectorRoot s.blockRoots.toList roots
  let stateRoots ← Merkle.vectorRoot s.stateRoots.toList roots
  let validators ← Merkle.listRoot (s.validators.toList.map Validator.treeRoot) validatorRegistryLimit
  let balances ← Merkle.wordListRoot s.balances.toList validatorRegistryLimit
  let randaoMixes ← Merkle.vectorRoot s.randaoMixes.toList p.epochsPerHistoricalVector.toNat
  return Merkle.containerRoot
    [wordChunk s.genesisTime, s.genesisValidatorsRoot, wordChunk s.slot, s.fork.treeRoot,
      s.latestBlockHeader.treeRoot, blockRoots, stateRoots, validators, balances, randaoMixes,
      s.previousJustified.treeRoot, s.currentJustified.treeRoot, s.finalized.treeRoot]

end ForkChoice
