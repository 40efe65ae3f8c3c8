import ForkChoice.Chain.Signing
import ForkChoice.Transition.Basic

/-!
# ForkChoice — errors of the store of blocks

* `StoreError` — the reasons for refusing blocks and attestations;
* `StoreError.isDelayable` — whether the object may become acceptable later;
* `StoreError.missingBlock?` — the block that has to come first.
-/

namespace ForkChoice

/-- Why the store refuses a block or an attestation, or cannot find a head. -/
inductive StoreError where
  | ancestorDepthExceeded (root : Root) (maxDepth : UInt64)
  | anchorStateRootMismatch (blockStateRoot stateRoot : Root)
  | blockAfterAttestation (block attestation : Slot)
  | blockEpochAfterTarget (block target : Epoch)
  | blockFinalized (block finalized : Slot)
  | blockInFuture (block current : Slot)
  | blockNotDescendantOfFinalized (block finalized : Root)
  | earlyForkChoiceConsideration (attestation current : Slot)
  | invalidAttestation (attestation : Slot) (source : ValidationError)
  | lmdGhostInconsistentWithFfgTarget (block target : Root)
  | noParentBlock (block parent : Root)
  | targetEpochTooOld (target current : Epoch)
  | targetEpochMismatch (target : Epoch) (attestation : Slot)
  | tooManyEmptySlots (state : Slot) (maxEmptySlots : UInt64) (slot : Slot)
  | unknownBlockRoot (block : Root)
  | unknownTargetRoot (target : Root)
  | transition (cause : TransitionError)
  deriving Repr, DecidableEq

namespace StoreError

/-- The name of the error. -/
def name : StoreError → String
  | .ancestorDepthExceeded .. => "AncestorDepthExceeded"
  | .anchorStateRootMismatch .. => "AnchorStateRootMismatch"
  | .blockAfterAttestation .. => "BlockAfterAttestation"
  | .blockEpochAfterTarget .. => "BlockEpochAfterTarget"
  | .blockFinalized .. => "BlockFinalized"
  | .blockInFuture .. => "BlockInFuture"
  | .blockNotDescendantOfFinalized .. => "BlockNotDescendantOfFinalized"
  | .earlyForkChoiceConsideration .. => "EarlyForkChoiceConsideration"
  | .invalidAttestation .. => "InvalidAttestation"
  | .lmdGhostInconsistentWithFfgTarget .. => "LmdGhostInconsistentWithFfgTarget"
  | .noParentBlock .. => "NoParentBlock"
  | .targetEpochTooOld .. => "TargetEpochTooOld"
  | .targetEpochMismatch .. => "TargetEpochMismatch"
  | .tooManyEmptySlots .. => "TooManyEmptySlots"
  | .unknownBlockRoot .. => "UnknownBlockRoot"
  | .unknownTargetRoot .. => "UnknownTargetRoot"
  | .transition .. => "Transition"

/-- The text of the error. -/
def message : StoreError → String
  | .ancestorDepthExceeded root maxDepth =>
    s!"ancestor walk from {Hex.text root} did not reach the requested slot within {maxDepth} parent links"
  | .anchorStateRootMismatch blockStateRoot stateRoot =>
    s!"anchor block state root {Hex.text blockStateRoot} does not match anchor state root {Hex.text stateRoot}"
  | .blockAfterAttestation block attestation =>
    s!"attestation votes for a block newer than itself (block_slot: {block}, attestation_slot: {attestation})"
  | .blockEpochAfterTarget block target =>
    s!"attestation votes for a block from an epoch after its target (block_epoch: {block}, target_epoch: {target})"
  | .blockFinalized block finalized =>
    s!"block is not newer than finalized slot ({block} <= {finalized})"
  | .blockInFuture block current => s!"block slot is in the future ({block} > {current})"
  | .blockNotDescendantOfFinalized block finalized =>
    s!"block {Hex.text block} does not descend from finalized block {Hex.text finalized}"
  | .earlyForkChoiceConsideration attestation current =>
    s!"attestation cannot be considered by fork choice yet (attestation_slot: {attestation}, current_slot: {current})"
  | .invalidAttestation attestation _ =>
    s!"attestation is invalid in the state of its target (attestation_slot: {attestation})"
  | .lmdGhostInconsistentWithFfgTarget block target =>
    s!"LMD GHOST vote is inconsistent with FFG vote target (beacon_block_root: {Hex.text block}, target_root: {Hex.text target})"
  | .noParentBlock block parent =>
    s!"parent {Hex.text parent} of block {Hex.text block} is not known"
  | .targetEpochTooOld target current =>
    s!"attestation target epoch is before previous epoch (target_epoch: {target}, current_epoch: {current})"
  | .targetEpochMismatch target attestation =>
    s!"attestation target epoch does not match its slot (target_epoch: {target}, attestation_slot: {attestation})"
  | .tooManyEmptySlots state maxEmptySlots slot =>
    s!"too many empty slots after state: {state} + {maxEmptySlots} < {slot}"
  | .unknownBlockRoot block => s!"attestation votes for unknown block {Hex.text block}"
  | .unknownTargetRoot target => s!"attestation target {Hex.text target} is not known"
  | .transition cause => cause.message

/-- Whether the object came too early or before what it depends on, so that it may become
acceptable later. -/
def isDelayable : StoreError → Bool
  | .blockInFuture .. => true
  | .earlyForkChoiceConsideration .. => true
  | .noParentBlock .. => true
  | .unknownBlockRoot .. => true
  | .unknownTargetRoot .. => true
  | _ => false

/-- The root of the block that has to be imported first. -/
def missingBlock? : StoreError → Option Root
  | .noParentBlock _ parent => some parent
  | .unknownBlockRoot block => some block
  | .unknownTargetRoot target => some target
  | _ => none

end StoreError

end ForkChoice
