import ForkChoice.Chain.State
import ForkChoice.Wire.Value

/-!
# ForkChoice — the objects of the chain as documents

Every container is an object whose fields have the names that the chain gives to them, in the
order in which they are hashed.
-/

namespace ForkChoice

instance : Wire Checkpoint where
  write c := .object [("epoch", write c.epoch), ("root", write c.root)]
  read? v := do
    let [epoch, root] ← v.fields? ["epoch", "root"] | none
    return ⟨← read? epoch, ← read? root⟩

instance : Wire AttestationData where
  write d := .object [("slot", write d.slot), ("index", write d.index),
    ("beacon_block_root", write d.blockRoot), ("source", write d.source), ("target", write d.target)]
  read? v := do
    let [slot, index, blockRoot, source, target] ←
      v.fields? ["slot", "index", "beacon_block_root", "source", "target"] | none
    return ⟨← read? slot, ← read? index, ← read? blockRoot, ← read? source, ← read? target⟩

instance : Wire Attestation where
  write a := .object [("aggregation_bits", write a.aggregationBits), ("data", write a.data),
    ("signature", write a.signature)]
  read? v := do
    let [bits, data, signature] ← v.fields? ["aggregation_bits", "data", "signature"] | none
    return ⟨← read? bits, ← read? data, ← read? signature⟩

instance : Wire IndexedAttestation where
  write a := .object [("attesting_indices", write a.attestingIndices), ("data", write a.data),
    ("signature", write a.signature)]
  read? v := do
    let [indices, data, signature] ← v.fields? ["attesting_indices", "data", "signature"] | none
    return ⟨← read? indices, ← read? data, ← read? signature⟩

instance : Wire BlockHeader where
  write h := .object [("slot", write h.slot), ("proposer_index", write h.proposerIndex),
    ("parent_root", write h.parentRoot), ("state_root", write h.stateRoot),
    ("body_root", write h.bodyRoot)]
  read? v := do
    let [slot, proposer, parent, state, body] ←
      v.fields? ["slot", "proposer_index", "parent_root", "state_root", "body_root"] | none
    return ⟨← read? slot, ← read? proposer, ← read? parent, ← read? state, ← read? body⟩

instance : Wire BlockBody where
  write b := .object [("randao_reveal", write b.randaoReveal), ("graffiti", write b.graffiti),
    ("attestations", write b.attestations)]
  read? v := do
    let [reveal, graffiti, attestations] ←
      v.fields? ["randao_reveal", "graffiti", "attestations"] | none
    return ⟨← read? reveal, ← read? graffiti, ← read? attestations⟩

instance : Wire Block where
  write b := .object [("slot", write b.slot), ("proposer_index", write b.proposerIndex),
    ("parent_root", write b.parentRoot), ("state_root", write b.stateRoot),
    ("body", write b.body)]
  read? v := do
    let [slot, proposer, parent, state, body] ←
      v.fields? ["slot", "proposer_index", "parent_root", "state_root", "body"] | none
    return ⟨← read? slot, ← read? proposer, ← read? parent, ← read? state, ← read? body⟩

instance : Wire Fork where
  write f := .object [("previous_version", write f.previousVersion),
    ("current_version", write f.currentVersion), ("epoch", write f.epoch)]
  read? v := do
    let [previous, current, epoch] ←
      v.fields? ["previous_version", "current_version", "epoch"] | none
    return ⟨← read? previous, ← read? current, ← read? epoch⟩

instance : Wire ForkData where
  write f := .object [("current_version", write f.currentVersion),
    ("genesis_validators_root", write f.genesisValidatorsRoot)]
  read? v := do
    let [version, root] ← v.fields? ["current_version", "genesis_validators_root"] | none
    return ⟨← read? version, ← read? root⟩

instance : Wire SigningData where
  write d := .object [("object_root", write d.objectRoot), ("domain", write d.domain)]
  read? v := do
    let [root, domain] ← v.fields? ["object_root", "domain"] | none
    return ⟨← read? root, ← read? domain⟩

instance : Wire Validator where
  write v := .object [("pubkey", write v.publicKey),
    ("withdrawal_credentials", write v.withdrawalCredentials),
    ("effective_balance", write v.effectiveBalance), ("slashed", write v.slashed),
    ("activation_eligibility_epoch", write v.activationEligibilityEpoch),
    ("activation_epoch", write v.activationEpoch), ("exit_epoch", write v.exitEpoch),
    ("withdrawable_epoch", write v.withdrawableEpoch)]
  read? v := do
    let [key, credentials, balance, slashed, eligibility, activation, exit, withdrawable] ←
      v.fields? ["pubkey", "withdrawal_credentials", "effective_balance", "slashed",
        "activation_eligibility_epoch", "activation_epoch", "exit_epoch", "withdrawable_epoch"]
      | none
    return ⟨← read? key, ← read? credentials, ← read? balance, ← read? slashed,
      ← read? eligibility, ← read? activation, ← read? exit, ← read? withdrawable⟩

instance : Wire BeaconState where
  write s := .object [("genesis_time", write s.genesisTime),
    ("genesis_validators_root", write s.genesisValidatorsRoot), ("slot", write s.slot),
    ("fork", write s.fork), ("latest_block_header", write s.latestBlockHeader),
    ("block_roots", write s.blockRoots), ("state_roots", write s.stateRoots),
    ("validators", write s.validators), ("balances", write s.balances),
    ("randao_mixes", write s.randaoMixes),
    ("previous_justified_checkpoint", write s.previousJustified),
    ("current_justified_checkpoint", write s.currentJustified),
    ("finalized_checkpoint", write s.finalized)]
  read? v := do
    let [genesisTime, validatorsRoot, slot, fork, header, blockRoots, stateRoots, validators,
        balances, mixes, previous, current, finalized] ←
      v.fields? ["genesis_time", "genesis_validators_root", "slot", "fork", "latest_block_header",
        "block_roots", "state_roots", "validators", "balances", "randao_mixes",
        "previous_justified_checkpoint", "current_justified_checkpoint", "finalized_checkpoint"]
      | none
    return ⟨← read? genesisTime, ← read? validatorsRoot, ← read? slot, ← read? fork,
      ← read? header, ← read? blockRoots, ← read? stateRoots, ← read? validators,
      ← read? balances, ← read? mixes, ← read? previous, ← read? current, ← read? finalized⟩

end ForkChoice
