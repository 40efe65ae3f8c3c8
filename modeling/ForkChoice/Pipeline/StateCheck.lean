import ForkChoice.Pipeline.PendingBatches
import ForkChoice.Pipeline.Rejection
import ForkChoice.Store.Draft

/-!
# ForkChoice — checks against a state

All attestations of a batch are checked against one state: the state after the block that they
vote for, advanced to the first slot of their target epoch.

* `StoreView.batchState` — that state;
* `BeaconState.verifyAttestation` — the checks, up to what is to be signed and by whom;
* `StoreView.verifyBatch` — the checks of a batch.
-/

namespace ForkChoice

/-- The participants of an attestation, the sum of their keys, and what they have to sign. -/
structure SignerInfo [SignatureScheme] where
  attestingIndices : List ValidatorIndex
  publicKey : SignatureScheme.PublicKey
  signingRoot : Root

/-- An attestation that has passed all checks but that of its signature. -/
structure VerifiedAttestation [SignatureScheme] extends SignerInfo where
  attestation : ReceivedAttestation

/-- An attestation with the reason for its rejection. -/
structure RejectedAttestation where
  attestation : ReceivedAttestation
  reason : Rejection
  deriving DecidableEq

/-- What the checks against a state find out about an attestation. -/
abbrev StateVerdict [SignatureScheme] := Except RejectedAttestation VerifiedAttestation

section

variable [HashFunction] [SignatureScheme]

/-- The key of a validator, if it is known and can be read. -/
def BeaconState.availableKey (s : BeaconState) (index : ValidatorIndex) :
    Except Rejection SignatureScheme.PublicKey :=
  match s.readKey index with
  | .ok key => .ok key
  | .error _ => .error (.publicKeyUnavailable index)

/-- The sum of the keys of the participants. -/
def BeaconState.sumOfKeys (s : BeaconState) (indices : List ValidatorIndex) :
    Except Rejection SignatureScheme.PublicKey := do
  let keys ← indices.mapM s.availableKey
  match SignatureScheme.sumKeys keys with
  | .ok key => .ok key
  | .error _ => .error .noAggregationBits

/-- Checks the fields of an attestation against a state in its target epoch. -/
def BeaconState.verifyFields (p : Preset) (config : Config) (s : BeaconState) (a : Attestation) :
    Outcome Rejection SignerInfo := do
  let data := a.data
  let epoch ← (s.attestationEpoch p (p.epochAt data.slot)).orFail
    (Rejection.slotOutsideStateEpochs data.slot (s.currentEpoch p))
  let perSlot ← s.committeesPerSlot p epoch.toRelative
  if perSlot ≤ data.index then Outcome.fail (.committeeIndexOutOfRange data.index perSlot)
  else
    let committee ← (s.committee p data.slot data.index).orFail
      (Rejection.committeeUnavailable data.slot data.index)
    if a.aggregationBits.length ≠ committee.length then
      Outcome.fail (.bitfieldLengthMismatch a.aggregationBits.length committee.length)
    else
      let indices := (committee.zip a.aggregationBits.bits).filterMap fun (index, bit) =>
        if bit then some index else none
      match s.sumOfKeys indices with
      | .error reason => Outcome.fail reason
      | .ok key => return ⟨indices, key, data.signingRoot p config s⟩

/-- Checks an attestation against a state in its target epoch. -/
def BeaconState.verifyAttestation (p : Preset) (config : Config) (s : BeaconState)
    (a : ReceivedAttestation) : Checked StateVerdict :=
  match s.verifyFields p config a.attestation with
  | .ok info => .ok (.ok { info with attestation := a })
  | .error (.error reason) => .ok (.error ⟨a, reason⟩)
  | .error (.fault reason) => .error reason

end

namespace StoreView

/-- The state for a batch, and how often the rules of transition were applied to find it. -/
structure BatchState where
  state : Outcome Rejection BeaconState
  calls : TransitionCalls := {}

/-- The state against which the attestations of a batch are checked. The block that they vote for
has to be known. -/
def batchState (t : StateTransition) (v : StoreView) (key : BatchKey) : BatchState :=
  match v.state? key.blockRoot with
  | none =>
    ⟨.error (.fault (.violated s!"state of block {Hex.text key.blockRoot} should be in the store")), {}⟩
  | some state =>
    if !v.containsBlock key.blockRoot then
      ⟨.error (.fault (.violated s!"block {Hex.text key.blockRoot} should be in the store")), {}⟩
    else
      let blockEpoch := v.preset.epochAt state.slot
      let target := key.target
      if target.epoch < blockEpoch then
        ⟨Outcome.fail (.blockEpochAfterTarget blockEpoch target.epoch), {}⟩
      else if blockEpoch < target.epoch && target.root ≠ key.blockRoot then
        ⟨Outcome.fail (.targetRootMismatch target.root key.blockRoot), {}⟩
      else if blockEpoch = target.epoch then ⟨.ok state, {}⟩
      else
        ⟨(t.processSlots state (v.preset.startSlot target.epoch)).orFail
          (Rejection.targetStateUnavailable target.epoch), { processSlots := 1 }⟩

/-- What the checks of a batch find out, and how often the rules of transition were applied. -/
structure BatchVerdict [SignatureScheme] where
  verdicts : List StateVerdict
  calls : TransitionCalls

/-- Checks the attestations of a batch, of which all vote for a known block. -/
def verifyBatch [HashFunction] [SignatureScheme] (t : StateTransition) (v : StoreView)
    (key : BatchKey) (batch : List ReceivedAttestation) : Checked BatchVerdict :=
  let found := v.batchState t key
  match found.state with
  | .error (.fault reason) => .error reason
  | .error (.error reason) => .ok ⟨batch.map fun a => .error ⟨a, reason⟩, found.calls⟩
  | .ok state => do
    let verdicts ← batch.mapM (state.verifyAttestation v.preset v.config)
    return ⟨verdicts, found.calls⟩

end StoreView

end ForkChoice
