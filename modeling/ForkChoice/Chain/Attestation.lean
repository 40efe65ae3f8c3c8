import ForkChoice.BitList
import ForkChoice.Chain.Preset

/-!
# ForkChoice — checkpoints, votes and attestations

An attestation is the vote of some members of a committee for a block, together with the two
checkpoints that they want to link.

* `Checkpoint`, `LatestMessage` — what is voted for;
* `AttestationData`, `Attestation`, `IndexedAttestation` — votes, by committee and by index;
* `AttestationOrigin`, `ReceivedAttestation` — how an attestation reached this node;
* `treeRoot` of each — the hash tree root.
-/

namespace ForkChoice

/-- The first block of an epoch, or the last one before it. -/
structure Checkpoint where
  epoch : Epoch
  root : Root
  deriving Repr, DecidableEq, Inhabited

namespace Checkpoint

/-- Stands for the absence of a checkpoint before the first one is justified. -/
def empty : Checkpoint := ⟨0, 0⟩

/-- Whether this stands for the absence of a checkpoint. -/
def isEmpty (c : Checkpoint) : Bool := c = empty

/-- The hash tree root. -/
def treeRoot [HashFunction] (c : Checkpoint) : Root :=
  Merkle.containerRoot [wordChunk c.epoch, c.root]

end Checkpoint

/-- The vote of a validator that counts in the choice of the head. -/
structure LatestMessage where
  epoch : Epoch
  root : Root
  deriving Repr, DecidableEq, Inhabited

/-- What an attestation votes for. -/
structure AttestationData where
  slot : Slot
  index : CommitteeIndex
  blockRoot : Root
  source : Checkpoint
  target : Checkpoint
  deriving Repr, DecidableEq, Inhabited

namespace AttestationData

/-- The hash tree root. -/
def treeRoot [HashFunction] (d : AttestationData) : Root :=
  Merkle.containerRoot
    [wordChunk d.slot, wordChunk d.index, d.blockRoot, d.source.treeRoot, d.target.treeRoot]

/-- The vote of each validator that takes part. -/
def message (d : AttestationData) : LatestMessage := ⟨d.target.epoch, d.blockRoot⟩

end AttestationData

/-- The participants of an attestation, by position in the committee. -/
abbrev AggregationBits := BitList maxValidatorsPerCommittee

/-- A vote by members of a committee and the sum of their signatures. -/
structure Attestation where
  aggregationBits : AggregationBits
  data : AttestationData
  signature : SignatureBytes
  deriving DecidableEq, Inhabited

/-- The hash tree root. -/
def Attestation.treeRoot [HashFunction] (a : Attestation) : Checked Root := do
  return Merkle.containerRoot
    [← a.aggregationBits.root, a.data.treeRoot, Merkle.signatureRoot a.signature]

/-- An attestation whose participants are given by index in the registry. -/
structure IndexedAttestation where
  attestingIndices : List ValidatorIndex
  data : AttestationData
  signature : SignatureBytes
  deriving DecidableEq, Inhabited

/-- The hash tree root. -/
def IndexedAttestation.treeRoot [HashFunction] (a : IndexedAttestation) : Checked Root := do
  return Merkle.containerRoot
    [← Merkle.wordListRoot a.attestingIndices maxValidatorsPerCommittee, a.data.treeRoot,
      Merkle.signatureRoot a.signature]

/-! ## Arrival -/

/-- The way on which an attestation reached this node. -/
inductive AttestationOrigin where
  | gossip
  | api
  | block (root : Root)
  | test
  deriving Repr, DecidableEq, Inhabited

namespace AttestationOrigin

/-- The name of the way. -/
def name : AttestationOrigin → String
  | .gossip => "Gossip"
  | .api => "Api"
  | .block _ => "Block"
  | .test => "Test"

/-- The name of the way, with the root of the block if there is one. -/
def description : AttestationOrigin → String
  | .block root => "Block(" ++ Hex.text root ++ ")"
  | origin => origin.name

/-- Whether the attestation was part of a block. -/
def isFromBlock : AttestationOrigin → Bool
  | .block _ => true
  | _ => false

/-- Whether the signature has to be checked: that of an attestation in a block is checked with
the block. -/
def verifySignatures (origin : AttestationOrigin) : Bool := !origin.isFromBlock

end AttestationOrigin

/-- An attestation with the way on which it came and its number in the order of arrival. -/
structure ReceivedAttestation where
  attestation : Attestation
  origin : AttestationOrigin
  arrival : UInt64
  deriving DecidableEq, Inhabited

/-- What the attestation votes for. -/
def ReceivedAttestation.data (r : ReceivedAttestation) : AttestationData := r.attestation.data

end ForkChoice
