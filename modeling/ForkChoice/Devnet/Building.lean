import ForkChoice.Chain.Signing
import ForkChoice.Devnet.Genesis
import ForkChoice.Transition.Basic

/-!
# ForkChoice — building blocks and attestations

Blocks are built on the state after their parent, and attestations are signed with the keys that
follow from the indices of the validators.

* `buildBlock` — a block and the state after it, `buildChain` — several blocks in a row;
* `latestBlockRoot` — the root of the block that a state is the state after;
* `attestationData` — what an attester votes for at a state;
* `buildAttestation` — the attestation of some members of a committee;
* `committeePositions` — where validators are in their committee.
-/

namespace ForkChoice

namespace Devnet

/-- Why a block or an attestation cannot be built. -/
inductive BuildError where
  | transition (reason : TransitionError)
  | query (reason : QueryError)
  | tooLong (reason : TooLong)
  | positionOutsideCommittee (position : Nat)
  | noParticipants
  | notInAnyCommittee (validator : ValidatorIndex) (epoch : Epoch)
  | notInCommittee (validator : ValidatorIndex)
  | statePastEpoch (epoch : Epoch)
  deriving Repr, DecidableEq

/-- The text of the error. -/
def BuildError.message : BuildError → String
  | .transition reason => reason.message
  | .query reason => reason.message
  | .tooLong reason => reason.message
  | .positionOutsideCommittee position => s!"position {position} is outside of committee"
  | .noParticipants => "attestation must have at least one participant"
  | .notInAnyCommittee validator epoch =>
    s!"validator {validator} is not in any committee in epoch {epoch}"
  | .notInCommittee validator => s!"validator {validator} is not in committee"
  | .statePastEpoch epoch => s!"state is past epoch {epoch}"

section

variable [HashFunction]

/-! ## Blocks -/

/-- Moves on to a later slot. -/
def advance (p : Preset) (s : BeaconState) (slot : Slot) : Outcome BuildError BeaconState :=
  (s.processSlots p slot).toOutcome.mapError .transition

/-- A block in a slot on top of the block that a state is the state after, with the state after
the new block. -/
def buildBlock (p : Preset) (s : BeaconState) (slot : Slot) (graffiti : Root)
    (attestations : List Attestation) : Outcome BuildError (Block × BeaconState) := do
  let s ← advance p s slot
  let proposer ← (s.proposer p).mapError .query
  let body : BlockBody := ⟨Bls.emptySignatureBytes, graffiti, attestations⟩
  let block : Block := ⟨slot, proposer, s.latestBlockHeader.treeRoot, 0, body⟩
  let s ← (s.applyBlock p block .never true).toOutcome.mapError .transition
  return ({ block with stateRoot := ← s.treeRoot p }, s)

/-- Blocks without attestations in a row, one in each of the given slots. -/
def buildChain (p : Preset) (s : BeaconState) :
    List Slot → Outcome BuildError (List (Block × BeaconState))
  | [] => .ok []
  | slot :: slots => do
    let (block, s) ← buildBlock p s slot 0 []
    return (block, s) :: (← buildChain p s slots)

/-- The root of the block that a state, perhaps moved on through empty slots, is the state
after. -/
def latestBlockRoot (p : Preset) (s : BeaconState) : Checked Root := do
  let header := s.latestBlockHeader
  if header.stateRoot = 0 then return { header with stateRoot := ← s.treeRoot p }.treeRoot
  else return header.treeRoot

/-! ## Attestations -/

/-- What the members of a committee vote for that take the block of a state for the head. -/
def attestationData (p : Preset) (s : BeaconState) (slot : Slot) (index : CommitteeIndex) :
    Outcome QueryError AttestationData := do
  let blockRoot ← latestBlockRoot p s
  let epoch := p.epochAt slot
  let targetSlot := p.startSlot epoch
  let targetRoot ← if s.slot ≤ targetSlot then pure blockRoot else s.blockRootAt p targetSlot
  return ⟨slot, index, blockRoot, s.currentJustified, ⟨epoch, targetRoot⟩⟩

/-- The signatures of the committee members at the given positions, and the bits of these
positions. -/
def collectSignatures (committee : Array ValidatorIndex) (message : Bls.G2.Point) :
    List Nat → AggregationBits → Outcome BuildError (AggregationBits × List Bls.Signature)
  | [], bits => .ok (bits, [])
  | position :: positions, bits =>
    match committee[position]? with
    | none => Outcome.fail (.positionOutsideCommittee position)
    | some validator => do
      let key ← secretKeyOf validator
      let (bits, signatures) ←
        collectSignatures committee message positions (bits.set position true)
      return (bits, key.signPoint message :: signatures)

/-- The attestation of the committee members at the given positions. -/
def buildAttestation (p : Preset) (config : Config) (s : BeaconState) (data : AttestationData)
    (positions : List Nat) : Outcome BuildError Attestation := do
  let committee ← (s.committee p data.slot data.index).mapError .query
  match (BitList.zeros committee.length : Except TooLong AggregationBits) with
  | .error reason => Outcome.fail (.tooLong reason)
  | .ok bits =>
    let message := Bls.hashToGroup (Bytes.ofBitVec (data.signingRoot p config s))
    let (bits, signatures) ← collectSignatures committee.toArray message positions bits
    match Bls.Signature.aggregateAll? signatures with
    | none => Outcome.fail .noParticipants
    | some signature => return ⟨bits, data, signature.toBytes⟩

/-- The position of the first element that equals `x`, counted from `start`. -/
def positionFrom (x : ValidatorIndex) : Nat → List ValidatorIndex → Option Nat
  | _, [] => none
  | start, y :: rest => if x = y then some start else positionFrom x (start + 1) rest

/-- Where validators are in their committee. -/
def committeePositions (p : Preset) (s : BeaconState) (slot : Slot) (index : CommitteeIndex)
    (validators : List ValidatorIndex) : Outcome BuildError (List Nat) := do
  let committee ← (s.committee p slot index).mapError .query
  validators.mapM fun validator =>
    match positionFrom validator 0 committee with
    | some position => .ok position
    | none => Outcome.fail (.notInCommittee validator)

/-- The state moved on to the first slot of an epoch, unless it is in this epoch already. -/
def stateInEpoch (p : Preset) (s : BeaconState) (epoch : Epoch) :
    Outcome BuildError BeaconState := do
  let start := p.startSlot epoch
  let s ← if s.slot < start then advance p s start else pure s
  if s.currentEpoch p ≠ epoch then Outcome.fail (.statePastEpoch epoch) else return s

/-- The slots of an epoch: the first one, and the one after the last one. -/
def slotsInEpoch (p : Preset) (epoch : Epoch) : Checked (Slot × Slot) := do
  return (p.startSlot epoch, p.startSlot (← Word.add epoch 1))

/-- A committee of an epoch and the position that a validator has in it. -/
structure Seat where
  slot : Slot
  index : CommitteeIndex
  position : Nat
  deriving Repr, DecidableEq

/-- The first of the given committees that has a validator as member. -/
def findSeat (p : Preset) (s : BeaconState) (validator : ValidatorIndex) :
    List (Slot × CommitteeIndex) → Outcome BuildError (Option Seat)
  | [] => .ok none
  | (slot, index) :: rest => do
    let committee ← (s.committee p slot index).mapError .query
    match positionFrom validator 0 committee with
    | some position => return some ⟨slot, index, position⟩
    | none => findSeat p s validator rest

/-- The attestation of one validator in an epoch for the block that a state is the state after. -/
def singularAttestation (p : Preset) (config : Config) (s : BeaconState) (epoch : Epoch)
    (validator : ValidatorIndex) : Outcome BuildError Attestation := do
  let committeeState ← stateInEpoch p s epoch
  let perSlot ← committeeState.committeesPerSlot p .current
  let (first, stop) ← slotsInEpoch p epoch
  let slots := (List.range (stop - first).toNat).map fun n => first + UInt64.ofNat n
  let indices := (List.range perSlot.toNat).map UInt64.ofNat
  let committees := slots.flatMap fun slot => indices.map fun index => (slot, index)
  match ← findSeat p committeeState validator committees with
  | none => Outcome.fail (.notInAnyCommittee validator epoch)
  | some seat =>
    let data ← (attestationData p s seat.slot seat.index).mapError .query
    buildAttestation p config committeeState data [seat.position]

end

end Devnet

end ForkChoice
