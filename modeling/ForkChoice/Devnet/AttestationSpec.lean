import ForkChoice.Devnet.Attempt

/-!
# ForkChoice — descriptions of attestations

An attestation is described by the committee that makes it, by the block that it votes for, and
by what is to be different afterwards: it need not be valid.

* `RootSpec`, `CheckpointSpec` — roots that may be given by the name of a block;
* `KeySpec`, `SignatureSpec` — keys and signatures;
* `AttestationSpec` — descriptions, `AttestationSpec.build` — the attestation that one describes.
-/

namespace ForkChoice

namespace Devnet

/-! ## Roots -/

/-- A root, perhaps given by the name of a block or by a text that need not be readable. -/
inductive RootSpec where
  | bytes (root : Root)
  | block (name : String)
  | text (digits : String)
  deriving Inhabited

/-- A checkpoint whose root is perhaps given by the name of a block. -/
structure CheckpointSpec where
  epoch : Epoch
  root : RootSpec

/-- What names stand for. -/
structure SpecContext where
  preset : Preset
  config : Config
  /-- The state after a block. -/
  state? : String → Option BeaconState
  root? : String → Option Root

/-- The root that is described. -/
def RootSpec.resolve (c : SpecContext) : RootSpec → Attempt Root
  | .bytes root => .ok root
  | .block name =>
    match c.root? name with
    | some root => .ok root
    | none => Outcome.fail (.unknownBlock name)
  | .text digits =>
    match Hex.parse? 256 digits with
    | some root => .ok root
    | none => Outcome.fail .unreadable

/-- The checkpoint that is described. -/
def CheckpointSpec.resolve (c : SpecContext) (spec : CheckpointSpec) : Attempt Checkpoint := do
  return ⟨spec.epoch, ← spec.root.resolve c⟩

/-- Resolves a description if there is one. -/
def resolveOr {α β : Type} (resolve : α → Attempt β) (default : β) : Option α → Attempt β
  | some spec => resolve spec
  | none => .ok default

/-! ## Signatures -/

/-- A secret key. -/
inductive KeySpec where
  | validator (index : UInt64)
  | bytes (bytes : Root)

/-- A signature that need not be readable. -/
inductive SignatureSpec where
  | repeated (byte : UInt8)
  | signed (key : KeySpec) (message : List UInt8)
  | text (digits : String)

/-- The secret key that is described. -/
def KeySpec.resolve [HashFunction] : KeySpec → Attempt Bls.SecretKey
  | .validator index => (secretKeyOf index).toOutcome
  | .bytes encoded => .ofSignature (Bls.SecretKey.ofBytes encoded)

/-- The signature that is described. -/
def SignatureSpec.resolve [HashFunction] : SignatureSpec → Attempt SignatureBytes
  | .repeated byte => .ok (BitVec.ofNat 768 (Bytes.toNat (List.replicate 96 byte)))
  | .signed key message => do return ((← key.resolve).sign message).toBytes
  | .text digits =>
    match Hex.parse? 768 digits with
    | some bytes => .ok bytes
    | none => Outcome.fail .unreadable

/-! ## Attestations -/

/-- What is to be different in the data of an attestation. -/
structure DataPatch where
  slot : Option Slot := none
  index : Option CommitteeIndex := none
  blockRoot : Option RootSpec := none
  source : Option CheckpointSpec := none
  target : Option CheckpointSpec := none

/-- The data with the described differences. -/
def DataPatch.apply (patch : DataPatch) (c : SpecContext) (d : AttestationData) :
    Attempt AttestationData := do
  let blockRoot ← resolveOr (RootSpec.resolve c) d.blockRoot patch.blockRoot
  let source ← resolveOr (CheckpointSpec.resolve c) d.source patch.source
  let target ← resolveOr (CheckpointSpec.resolve c) d.target patch.target
  return ⟨patch.slot.getD d.slot, patch.index.getD d.index, blockRoot, source, target⟩

/-- How an attestation is made, before its bits and its signature are replaced. -/
inductive AttestationMaking where
  /-- It is given. -/
  | given (attestation : Attestation)
  /-- One validator attests in an epoch. -/
  | singular (epoch : Epoch) (validator : ValidatorIndex)
  /-- A committee attests: the members at given positions sign, or nobody does. -/
  | committee (slot : Slot) (index : CommitteeIndex) (positions : Option (List Nat))

/-- The description of an attestation. -/
structure AttestationSpec where
  /-- The block whose state is used. -/
  block : Option String := none
  /-- The slot to which this state is moved on first. -/
  advanceTo : Option Slot := none
  making : AttestationMaking
  data : DataPatch := {}
  bits : Option (List Bool) := none
  signature : Option SignatureSpec := none

namespace AttestationSpec

/-- Data without a meaning. -/
def blankData : AttestationData := ⟨0, 0, 0, .empty, .empty⟩

/-- The state that is used, if there is one. -/
def state? [HashFunction] (spec : AttestationSpec) (c : SpecContext) : Attempt (Option BeaconState) :=
  match spec.block with
  | none => .ok none
  | some name =>
    match c.state? name with
    | none => Outcome.fail (.unknownBlock name)
    | some s =>
      match spec.advanceTo with
      | some slot => (Attempt.ofBuild (advance c.preset s slot)).map some
      | none => .ok (some s)

/-- The state that is used, which has to be there. -/
def needState : Option BeaconState → Attempt BeaconState
  | some s => .ok s
  | none => Outcome.fail (.unfit "at")

section

variable [HashFunction]

/-- The attestation before its bits and its signature are replaced. -/
def make (spec : AttestationSpec) (c : SpecContext) : Attempt Attestation := do
  match spec.making with
  | .given a => return a
  | .singular epoch validator =>
    let s ← needState (← spec.state? c)
    .ofBuild (singularAttestation c.preset c.config s epoch validator)
  | .committee slot index positions =>
    let s ← spec.state? c
    let data ← match s with
      | some s => Attempt.ofQuery (attestationData c.preset s slot index)
      | none => pure blankData
    let data ← spec.data.apply c data
    match positions with
    | some positions => .ofBuild (buildAttestation c.preset c.config (← needState s) data positions)
    | none => return ⟨.empty, data, 0⟩

/-- The attestation with its bits replaced. -/
def withBits (bits : Option (List Bool)) (a : Attestation) : Attempt Attestation :=
  match bits with
  | none => .ok a
  | some bits =>
    match BitList.ofBits bits with
    | .ok bits => .ok { a with aggregationBits := bits }
    | .error reason => Outcome.fail (.tooLong reason)

/-- The described attestation. -/
def build (spec : AttestationSpec) (c : SpecContext) : Attempt Attestation := do
  let a ← spec.make c
  match spec.making with
  | .given _ => return a
  | _ =>
    let a ← withBits spec.bits a
    let signature ← resolveOr SignatureSpec.resolve a.signature spec.signature
    return { a with signature := signature }

end

end AttestationSpec

end Devnet

end ForkChoice
