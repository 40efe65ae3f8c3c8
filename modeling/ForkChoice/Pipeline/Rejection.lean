import ForkChoice.Chain.Preset

/-!
# ForkChoice — why attestations are rejected

* `Rejection` — the reasons, from all stages of the verification;
* `Stage` — the stages.
-/

namespace ForkChoice

/-- A stage in the verification of attestations. -/
inductive Stage where
  | sanity
  | unknownBlock
  | state
  | signature
  deriving Repr, DecidableEq, Ord

/-- The name of the stage. -/
def Stage.name : Stage → String
  | .sanity => "Sanity"
  | .unknownBlock => "UnknownBlock"
  | .state => "State"
  | .signature => "Signature"

/-- Why an attestation is rejected. -/
inductive Rejection where
  | sourceAfterTarget (source target : Epoch)
  | targetBeforeFinalized (target finalized : Epoch)
  | targetTooFarAhead (target current : Epoch)
  | noAggregationBits
  | slotOutsideTargetEpoch (slot : Slot) (target : Epoch)
  | evictedFromUnknownBlockPool (block : Root)
  | unknownBlockExpired (block : Root) (target : Epoch)
  | blockEpochAfterTarget (block target : Epoch)
  | targetRootMismatch (target block : Root)
  | targetStateUnavailable (target : Epoch)
  | slotOutsideStateEpochs (slot : Slot) (state : Epoch)
  | committeeIndexOutOfRange (index : CommitteeIndex) (committeesPerSlot : UInt64)
  | committeeUnavailable (slot : Slot) (index : CommitteeIndex)
  | bitfieldLengthMismatch (bitfield committee : Nat)
  | publicKeyUnavailable (index : ValidatorIndex)
  | signatureUndecodable
  | signatureInvalid
  deriving Repr, DecidableEq

namespace Rejection

/-- The name of the reason. -/
def name : Rejection → String
  | .sourceAfterTarget .. => "SourceAfterTarget"
  | .targetBeforeFinalized .. => "TargetBeforeFinalized"
  | .targetTooFarAhead .. => "TargetTooFarAhead"
  | .noAggregationBits => "NoAggregationBits"
  | .slotOutsideTargetEpoch .. => "SlotOutsideTargetEpoch"
  | .evictedFromUnknownBlockPool .. => "EvictedFromUnknownBlockPool"
  | .unknownBlockExpired .. => "UnknownBlockExpired"
  | .blockEpochAfterTarget .. => "BlockEpochAfterTarget"
  | .targetRootMismatch .. => "TargetRootMismatch"
  | .targetStateUnavailable .. => "TargetStateUnavailable"
  | .slotOutsideStateEpochs .. => "SlotOutsideStateEpochs"
  | .committeeIndexOutOfRange .. => "CommitteeIndexOutOfRange"
  | .committeeUnavailable .. => "CommitteeUnavailable"
  | .bitfieldLengthMismatch .. => "BitfieldLengthMismatch"
  | .publicKeyUnavailable .. => "PublicKeyUnavailable"
  | .signatureUndecodable => "SignatureUndecodable"
  | .signatureInvalid => "SignatureInvalid"

/-- The text of the reason. -/
def message : Rejection → String
  | .sourceAfterTarget source target => s!"source epoch {source} is after target epoch {target}"
  | .targetBeforeFinalized target finalized =>
    s!"target epoch {target} is before finalized epoch {finalized}"
  | .targetTooFarAhead target current =>
    s!"target epoch {target} is too far ahead of current epoch {current}"
  | .noAggregationBits => "attestation has no aggregation bits set"
  | .slotOutsideTargetEpoch slot target => s!"slot {slot} is not in target epoch {target}"
  | .evictedFromUnknownBlockPool block =>
    s!"evicted from full unknown block pool while waiting for block {Hex.text block}"
  | .unknownBlockExpired block target =>
    s!"block {Hex.text block} was not imported before target epoch {target} expired"
  | .blockEpochAfterTarget block target =>
    s!"block epoch {block} is after target epoch {target}"
  | .targetRootMismatch target block =>
    s!"target root {Hex.text target} does not match block root {Hex.text block}"
  | .targetStateUnavailable target =>
    s!"state for target epoch {target} could not be computed"
  | .slotOutsideStateEpochs slot state =>
    s!"slot {slot} is not in the current or previous epoch of state at epoch {state}"
  | .committeeIndexOutOfRange index committees =>
    s!"committee index {index} is out of range ({committees} committees per slot)"
  | .committeeUnavailable slot index =>
    s!"committee {index} at slot {slot} could not be computed"
  | .bitfieldLengthMismatch bitfield committee =>
    s!"bitfield length {bitfield} does not match committee size {committee}"
  | .publicKeyUnavailable index => s!"public key of validator {index} is unavailable"
  | .signatureUndecodable => "signature could not be decompressed"
  | .signatureInvalid => "signature is invalid"

end Rejection

end ForkChoice
