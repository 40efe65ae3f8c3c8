import ForkChoice.Devnet.Scenario
import ForkChoice.Script.Reply

/-!
# ForkChoice — reading descriptions

States, blocks and attestations are described in scripts by what is special about them. A root
may be written as a number, which stands for 32 equal bytes, and as the name of a block after an
at sign.
-/

namespace ForkChoice

namespace Script

open Devnet

/-! ## Simple values -/

/-- Reads a root: a number below 256 or 32 bytes. -/
def root : Value → Reply Root
  | .text s => document (.text s)
  | .integer n =>
    if 0 ≤ n ∧ n < 256 then
      .ok (BitVec.ofNat 256 (Bytes.toNat (List.replicate 32 (UInt8.ofNat n.toNat))))
    else misshapen
  | v => plain v

/-- Reads a root that may be given by the name of a block. -/
def rootSpec : Value → Reply RootSpec
  | .text s =>
    match s.toList with
    | '@' :: name => .ok (.block (String.ofList name))
    | _ => .ok (.text s)
  | v => do return .bytes (← root v)

/-- Reads a checkpoint. -/
def checkpoint (v : Value) : Reply Checkpoint := do
  let (epoch, root) ← pairOf plain root v
  return ⟨epoch, root⟩

/-- Reads a checkpoint whose root may be given by the name of a block. -/
def checkpointSpec (v : Value) : Reply CheckpointSpec := do
  let (epoch, root) ← pairOf plain rootSpec v
  return ⟨epoch, root⟩

/-- Reads the vote of a validator. -/
def latestMessage (v : Value) : Reply LatestMessage := do
  let (epoch, root) ← pairOf plain root v
  return ⟨epoch, root⟩

/-- Reads bits, first bit first. -/
def bits (v : Value) : Reply (List Bool) := do
  let text : String ← plain v
  return text.toList.map fun c => c = '1'

/-- Reads bytes without the mark of hexadecimal text. -/
def rawBytes (v : Value) : Reply (List UInt8) := do
  let text : String ← plain v
  match Hex.decode text.toList with
  | some bytes => return bytes
  | none => misshapen

/-- Reads a byte string of known length without the mark of hexadecimal text. -/
def rawFixed (width : Nat) (v : Value) : Reply (BitVec width) := do
  let bytes ← rawBytes v
  if bytes.length = width / 8 then return BitVec.ofNat width (Bytes.toNat bytes)
  else misshapen

/-- Reads a secret key: the index of a validator or 32 bytes. -/
def keySpec : Value → Reply KeySpec
  | .text s => do return .bytes (← rawFixed 256 (.text s))
  | v => do return .validator (← plain v)

/-- Reads a signature: 96 equal bytes, what a key signs, or any bytes. -/
def signatureSpec : Value → Reply SignatureSpec
  | .text s => .ok (.text s)
  | .list values => do
    let (key, message) ← pairOf keySpec rawBytes (.list values)
    return .signed key message
  | v => do
    let byte : Nat ← plain v
    return .repeated (UInt8.ofNat byte)

/-- Whether signatures are checked, as a request says. -/
def performIf (performs : Bool) : SignatureCheck := if performs then .perform else .skip

/-! ## Networks -/

/-- The preset of a script. -/
def presetOf (v : Value) : Reply Preset := fieldOr v "preset" plain .minimal

/-- The configuration of a script: that of the preset with some changes. -/
def configOf (p : Preset) (v : Value) : Reply Config :=
  match part? v "config" with
  | none => .ok p.config
  | some changes => do
    let seconds ← fieldOr changes "seconds_per_slot" plain p.config.secondsPerSlot
    let version ← fieldOr changes "genesis_fork_version" document p.config.genesisForkVersion
    if h : 0 < seconds then
      return { p.config with
        secondsPerSlot := seconds, genesisForkVersion := version, secondsPerSlot_pos := h }
    else meaningless "seconds_per_slot"

/-! ## States -/

/-- Reads what is to be different in some validators. -/
def validatorChanges (v : Value) : Readings ValidatorChange :=
  .ofField? v "pubkey" document .publicKey ++
  .ofField? v "interop_key" plain .keyOf ++
  .ofField? v "withdrawal_credentials" root .withdrawalCredentials ++
  .ofField? v "effective_balance" plain .effectiveBalance ++
  .ofField? v "slashed" plain .slashed ++
  .ofField? v "activation_eligibility_epoch" plain .activationEligibilityEpoch ++
  .ofField? v "activation_epoch" plain .activationEpoch ++
  .ofField? v "exit_epoch" plain .exitEpoch ++
  .ofField? v "withdrawable_epoch" plain .withdrawableEpoch

/-- Reads what is to be different in some validators, and perhaps in their balances. -/
def registryChanges (balances : Bool) (v : Value) : Readings StateChange :=
  let changes := validatorChanges v
  let one (index : Nat) : Readings StateChange :=
    ⟨[.validator index changes.items], changes.outcome⟩ ++
      (if balances then .ofField? v "balance" plain (.balance index) else {})
  match fieldOr v "indices" plain [] with
  | .ok indices => .each one indices
  | .error halt => ⟨[], .error halt⟩

/-- Reads roots with their places. -/
def placedRoots (v : Value) (key : String) (change : Nat → Root → StateChange) :
    Readings StateChange :=
  .ofList? v key fun entry => .ofReply do
    let (index, root) ← (pairOf plain root entry).inPart key
    return [change index root]

/-- Reads what distinguishes the latest block. -/
def headerPatch (v : Value) : Reply HeaderPatch := do
  return {
    slot := ← field? v "slot" plain
    proposerIndex := ← field? v "proposer_index" plain
    parentRoot := ← field? v "parent_root" root
    stateRoot := ← field? v "state_root" root
    bodyRoot := ← field? v "body_root" root }

/-- Reads what distinguishes a state from that of a new network. -/
def stateChanges (v : Value) : Readings StateChange :=
  .ofList? v "patch" (registryChanges true) ++
  placedRoots v "randao" .randaoMix ++
  placedRoots v "block_roots" .blockRoot ++
  placedRoots v "state_roots" .stateRoot ++
  .ofField? v "slot" plain .slot ++
  .ofField? v "genesis_validators_root" root .genesisValidatorsRoot ++
  .ofField? v "fork" document .fork ++
  .ofField? v "header" headerPatch .header ++
  .ofField? v "previous_justified" checkpoint .previousJustified ++
  .ofField? v "current_justified" checkpoint .currentJustified ++
  .ofField? v "finalized" checkpoint .finalized ++
  .ofField? v "advance" plain .advance

/-- Reads what is to be different in a state that there is already. -/
def laterChanges (v : Value) : Readings StateChange :=
  .ofField? v "slot" plain .slot ++
  placedRoots v "randao" .randaoMix ++
  .ofList? v "patch" (registryChanges false)

/-- Reads the description of a new network. -/
def genesisSpec (v : Value) : Reply GenesisSpec := do
  let keys : String ← fieldOr v "keys" plain "synthetic"
  return {
    validators := ← fieldOr v "validators" plain 32
    hasKeys := keys = "interop"
    genesisTime := ← fieldOr v "genesis_time" plain 0 }

/-- The state that a script begins with. Every part of its description is read after the changes
that are described before it have been made. -/
def stateOf [HashFunction] (p : Preset) (config : Config) (v : Value) : Reply BeaconState := do
  let spec := (part? v "state").getD (.object [])
  let changes := stateChanges spec
  let (s, made) := StateChange.applyAll p (← (← genesisSpec spec).build p config) changes.items
  ofOutcome made
  changes.outcome
  return s

/-! ## Attestations -/

/-- Reads what is to be different in the data of an attestation. -/
def dataPatch (v : Value) : Reply DataPatch := do
  return {
    slot := ← field? v "slot" plain
    index := ← field? v "index" plain
    blockRoot := ← field? v "beacon_block_root" rootSpec
    source := ← field? v "source" checkpointSpec
    target := ← field? v "target" checkpointSpec }

/-- Reads how an attestation is made. -/
def attestationMaking (v : Value) : Reply AttestationMaking := do
  match ← field? v "value" document with
  | some a => return .given a
  | none =>
    match ← field? v "epoch" plain, ← field? v "validator" plain with
    | some epoch, some validator => return .singular epoch validator
    | _, _ =>
      let slot ← fieldOr v "slot" plain 0
      let index ← fieldOr v "index" plain 0
      return .committee slot index (← field? v "positions" plain)

/-- Reads the description of an attestation. -/
def attestationSpec (v : Value) : Reply AttestationSpec := do
  return {
    block := ← field? v "at" plain
    advanceTo := ← field? v "advance" plain
    making := ← attestationMaking v
    data := ← fieldOr v "data" dataPatch {}
    bits := ← field? v "bits" bits
    signature := ← field? v "signature" signatureSpec }

/-- Makes the described attestation and at most `fuel` others of which each lends its signature to
the one before. An attestation is made before the description of the next one is read. -/
def attestationFrom [HashFunction] (c : SpecContext) : Nat → Value → Reply Attestation
  | 0, v => do (← attestationSpec v).build c
  | fuel + 1, v => do
    let a ← (← attestationSpec v).build c
    match part? v "value", part? v "signature_of" with
    | none, some other => return { a with signature := (← attestationFrom c fuel other).signature }
    | _, _ => return a

/-- Makes the described attestation, perhaps with the signature of another one. -/
def attestation [HashFunction] (c : SpecContext) (v : Value) : Reply Attestation :=
  attestationFrom c v.depth v

/-- Reads the way on which an attestation came. -/
def attestationOrigin (readRoot : Value → Reply Root) (v : Value) : Reply AttestationOrigin := do
  let name : String ← fieldOr v "origin" plain "Test"
  match name with
  | "Gossip" => return .gossip
  | "Api" => return .api
  | "Block" => return .block (← field v "block" readRoot)
  | "Test" => return .test
  | _ => meaningless "origin"

/-! ## Blocks -/

/-- Reads what is to be different in a block. -/
def blockPatch (v : Value) : Reply BlockPatch := do
  return {
    slot := ← field? v "slot" plain
    proposerIndex := ← field? v "proposer_index" plain
    parentRoot := ← field? v "parent_root" rootSpec
    stateRoot := ← field? v "state_root" rootSpec
    graffiti := ← field? v "graffiti" rootSpec }

/-- Reads the description of a block. The attestations in it are made one by one. -/
def blockSpec [HashFunction] (c : SpecContext) (v : Value) : Reply BlockSpec := do
  return {
    name := ← field v "name" plain
    parent := ← field v "on" plain
    slot := ← field v "slot" plain
    graffiti := ← fieldOr v "graffiti" (fun v => do (← rootSpec v).resolve c) 0
    attestations := ← fieldOr v "attestations" (listOf (attestation c)) []
    patch := ← fieldOr v "tweak" blockPatch {}
    justified := ← field? v "justified" checkpointSpec
    finalized := ← field? v "finalized" checkpointSpec }

/-- Reads the bounds on the work of a store. -/
def storeLimits (v : Value) : Reply StoreLimits := do
  return ⟨← fieldOr v "max_ancestor_depth" plain 8192, ← fieldOr v "max_empty_slots" plain 32⟩

end Script

end ForkChoice
