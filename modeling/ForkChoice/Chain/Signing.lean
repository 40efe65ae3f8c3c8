import ForkChoice.Chain.Committee
import ForkChoice.SignatureScheme

/-!
# ForkChoice — what is signed, and checking it

An object is signed through a root that also covers a domain: the use of the signature, the
version of the protocol and the network.

* `signatureDomain`, `BeaconState.domain` — domains;
* `AttestationData.signingRoot` — what attesters sign;
* `SignatureCheck` — whether signatures are checked or taken to be valid;
* `IndexedAttestation.validate` — the conditions on an indexed attestation.
-/

namespace ForkChoice

section

variable [HashFunction]

/-- The domain of a use of signatures: four bytes for the use and 28 for version and network. -/
def signatureDomain (config : Config) (use : DomainType) (version : Option Version)
    (genesisValidatorsRoot : Option Root) : Root :=
  let data := ForkData.mk (version.getD config.genesisForkVersion) (genesisValidatorsRoot.getD 0)
  use ++ data.treeRoot.extractLsb' 32 224

/-- The domain of a use of signatures in an epoch, by default that of the state. -/
def BeaconState.domain (p : Preset) (config : Config) (s : BeaconState) (use : DomainType)
    (epoch : Option Epoch) : Root :=
  let epoch := epoch.getD (s.currentEpoch p)
  let version := if epoch < s.fork.epoch then s.fork.previousVersion else s.fork.currentVersion
  signatureDomain config use (some version) (some s.genesisValidatorsRoot)

/-- What attesters sign. -/
def AttestationData.signingRoot (p : Preset) (config : Config) (s : BeaconState)
    (d : AttestationData) : Root :=
  ForkChoice.signingRoot d.treeRoot (s.domain p config attesterDomain (some d.target.epoch))

end

/-- What a signature is under. -/
inductive SignatureKind where
  | attestation
  | block
  | multi
  deriving Repr, DecidableEq

/-- The words for the kind in error texts. -/
def SignatureKind.description : SignatureKind → String
  | .attestation => "attestation signature"
  | .block => "block signature"
  | .multi => "collection of multiple signatures"

/-- Why an attestation is not valid at a state. -/
inductive ValidationError where
  | noAttestingIndices
  | notSortedAndUnique
  | signatureInvalid (kind : SignatureKind)
  | query (reason : QueryError)
  | signature (reason : SignatureError)
  deriving Repr, DecidableEq

/-- The text of the error. -/
def ValidationError.message : ValidationError → String
  | .noAttestingIndices => "attestation has no attesting indices"
  | .notSortedAndUnique => "attesting indices are not sorted and unique"
  | .signatureInvalid kind => kind.description ++ " is invalid"
  | .query reason => reason.message
  | .signature reason => reason.message

/-- Whether signatures are checked, or taken to be valid. -/
inductive SignatureCheck where
  | skip
  | perform
  deriving Repr, DecidableEq

/-- Whether each number is less than the next one. -/
def isStrictlyAscending : List UInt64 → Bool
  | a :: b :: rest => a < b && isStrictlyAscending (b :: rest)
  | _ => true

section

open SignatureScheme

variable [SignatureScheme]

namespace SignatureCheck

/-- Checks a signature under one key. -/
def one (check : SignatureCheck) (message : Root) (signature : SignatureBytes)
    (key : PublicKeyBytes) (kind : SignatureKind) : Except ValidationError Unit :=
  match check with
  | .skip => .ok ()
  | .perform => do
    let key ← (readKey key).mapError .signature
    let signature ← (readSignature signature).mapError .signature
    if verify signature message key then .ok () else .error (.signatureInvalid kind)

/-- Checks a signature under all of the keys that `keys` gives, which are read only if the
signature can be read. -/
def all (check : SignatureCheck) (message : Root) (signature : SignatureBytes)
    (keys : Unit → Except ValidationError (List PublicKey)) (kind : SignatureKind) :
    Except ValidationError Unit :=
  match check with
  | .skip => .ok ()
  | .perform => do
    let signature ← (readSignature signature).mapError .signature
    let keys ← keys ()
    if verifyAll signature message keys then .ok () else .error (.signatureInvalid kind)

end SignatureCheck

/-- The key of a validator. -/
def BeaconState.readKey (s : BeaconState) (index : ValidatorIndex) :
    Except ValidationError PublicKey :=
  match s.validators[index.toNat]? with
  | some validator => (SignatureScheme.readKey validator.publicKey).mapError .signature
  | none => .error (.query (.validatorNotFound index))

variable [HashFunction]

namespace IndexedAttestation

/-- Checks that there are participants, that they are in order if `received`, and the signature. -/
def validate (p : Preset) (config : Config) (s : BeaconState) (a : IndexedAttestation)
    (check : SignatureCheck) (received : Bool) : Except ValidationError Unit :=
  if a.attestingIndices.isEmpty then .error .noAttestingIndices
  else if received && !isStrictlyAscending a.attestingIndices then .error .notSortedAndUnique
  else
    check.all (a.data.signingRoot p config s) a.signature
      (fun _ => a.attestingIndices.mapM s.readKey) .attestation

end IndexedAttestation

end

end ForkChoice
