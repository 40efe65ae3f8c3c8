import ForkChoice.LinkedMap
import ForkChoice.Pipeline.SignatureFold
import ForkChoice.Pipeline.StateCheck

/-!
# ForkChoice — checking signatures in batches

Attestations with the same data have the same signing root. As many of them as share no
participants are checked at once; the rest, and all if that check fails, are checked one by one.
They are collected in a linked map, where an attestation is added through the entry of its group,
so that this one moves to the back.

* `SignedCandidate` — an attestation whose signature could be read;
* `signatureGroups`, `verifyGroup` — the attestations with one data;
* `verifySignatures` — a batch.
-/

namespace ForkChoice

open SignatureScheme

variable [SignatureScheme]

/-- An attestation whose signature could be read. -/
structure SignedCandidate where
  verified : VerifiedAttestation
  signature : Signature

namespace SignedCandidate

/-- The participants. -/
def bits (c : SignedCandidate) : AggregationBits :=
  c.verified.attestation.attestation.aggregationBits

/-- What is voted for. -/
def data (c : SignedCandidate) : AttestationData := c.verified.attestation.data

/-- Whether the signature verifies on its own. -/
def isValid (c : SignedCandidate) : Bool :=
  verify c.signature c.verified.signingRoot c.verified.publicKey

end SignedCandidate

/-- What the check of the signature finds out about an attestation. -/
structure SignatureVerdict where
  attestation : ReceivedAttestation
  result : Except Rejection Unit

/-- Checks a signature on its own. -/
def verifyAlone (c : SignedCandidate) : SignatureVerdict :=
  ⟨c.verified.attestation, if c.isValid then .ok () else .error .signatureInvalid⟩

/-! ## Groups -/

/-- Attestations with the same data. -/
structure SignatureGroup where
  data : AttestationData
  members : List SignedCandidate

/-- The map in which groups are collected. -/
abbrev GroupMap : Type := Linked AttestationData (List SignedCandidate)

/-- Adds an attestation to its group, which becomes the last one. -/
def addToGroup (groups : GroupMap) (c : SignedCandidate) : GroupMap :=
  let group := LinkedMap.entry groups c.data []
  group.put (group.value ++ [c])

/-- The groups of some attestations. -/
def signatureGroups (candidates : List SignedCandidate) : List SignatureGroup :=
  (LinkedMap.entries (candidates.foldl addToGroup LinkedMap.empty)).map fun e => ⟨e.1, e.2⟩

/-- Folds those attestations together that share no participant with earlier ones, and gives the
others apart. -/
def foldDisjoint : SignatureFold → List SignedCandidate →
    SignatureFold × List SignedCandidate × List SignedCandidate
  | fold, [] => (fold, [], [])
  | fold, c :: rest =>
    match fold.add c.bits c.verified.publicKey c.signature with
    | (true, fold) =>
      let (fold, folded, deferred) := foldDisjoint fold rest
      (fold, c :: folded, deferred)
    | (false, fold) =>
      let (fold, folded, deferred) := foldDisjoint fold rest
      (fold, folded, c :: deferred)

/-- Attestations with few participants come first. -/
def byParticipants (members : List SignedCandidate) : List SignedCandidate :=
  members.mergeSort fun c c' => decide (c.bits.count ≤ c'.bits.count)

/-- Whether the attestations that have been folded together verify at once. -/
def verifiesTogether (fold : SignatureFold) (folded : List SignedCandidate) : Bool :=
  match folded with
  | [] => false
  | first :: _ => fold.verify first.verified.signingRoot

/-- Checks the signatures of the attestations with one data. -/
def verifyGroup (members : List SignedCandidate) : List SignatureVerdict :=
  let (fold, folded, deferred) := foldDisjoint {} (byParticipants members)
  let together := verifiesTogether fold folded
  (if together then folded.map fun c => ⟨c.verified.attestation, .ok ()⟩
    else folded.map verifyAlone) ++ deferred.map verifyAlone

/-! ## Batches -/

/-- Reads the signature of an attestation. -/
def readCandidate (v : VerifiedAttestation) : Except SignatureVerdict SignedCandidate :=
  match readSignature v.attestation.attestation.signature with
  | .ok signature => .ok ⟨v, signature⟩
  | .error _ => .error ⟨v.attestation, .error .signatureUndecodable⟩

/-- The attestations whose signatures cannot be read. -/
def unreadable (batch : List VerifiedAttestation) : List SignatureVerdict :=
  batch.filterMap fun v => match readCandidate v with
    | .ok _ => none
    | .error verdict => some verdict

/-- The attestations whose signatures can be read. -/
def readable (batch : List VerifiedAttestation) : List SignedCandidate :=
  batch.filterMap fun v => match readCandidate v with
    | .ok candidate => some candidate
    | .error _ => none

/-- Checks the signatures of a batch. -/
def verifySignatures (batch : List VerifiedAttestation) : List SignatureVerdict :=
  unreadable batch ++ (signatureGroups (readable batch)).flatMap fun g => verifyGroup g.members

end ForkChoice
