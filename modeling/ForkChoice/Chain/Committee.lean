import ForkChoice.Chain.Shuffle

/-!
# ForkChoice — questions about a state

* `BeaconState.relativeEpoch`, `BeaconState.attestationEpoch` — where an epoch lies;
* `BeaconState.blockRootAt` — the history of blocks that a state keeps;
* `BeaconState.committee` — the members of a committee, in the order of its bit lists;
* `BeaconState.proposer` — who may propose a block in the slot of a state;
* `BeaconState.attestingIndices`, `BeaconState.indexed` — who takes part in an attestation.
-/

namespace ForkChoice

/-- An epoch for which a state knows committees. -/
inductive RelativeEpoch where
  | previous
  | current
  | next
  deriving Repr, DecidableEq

/-- The name of the epoch. -/
def RelativeEpoch.name : RelativeEpoch → String
  | .previous => "Previous"
  | .current => "Current"
  | .next => "Next"

/-- An epoch whose attestations still count at a state. -/
inductive AttestationEpoch where
  | previous
  | current
  deriving Repr, DecidableEq

/-- The name of the epoch. -/
def AttestationEpoch.name : AttestationEpoch → String
  | .previous => "Previous"
  | .current => "Current"

/-- The same epoch among those for which committees are known. -/
def AttestationEpoch.toRelative : AttestationEpoch → RelativeEpoch
  | .previous => .previous
  | .current => .current

namespace BeaconState

/-! ## Epochs -/

/-- The epoch of the state. -/
def currentEpoch (p : Preset) (s : BeaconState) : Epoch := p.epochAt s.slot

/-- The epoch before that of the state; the first epoch precedes itself. -/
def previousEpoch (p : Preset) (s : BeaconState) : Epoch := Word.satSub (s.currentEpoch p) 1

/-- The epoch after that of the state. -/
def nextEpoch (p : Preset) (s : BeaconState) : Checked Epoch := Word.add (s.currentEpoch p) 1

/-- The number of an epoch that is given relative to the state. -/
def absoluteEpoch (p : Preset) (s : BeaconState) : RelativeEpoch → Checked Epoch
  | .previous => .ok (s.previousEpoch p)
  | .current => .ok (s.currentEpoch p)
  | .next => s.nextEpoch p

/-- Where an epoch lies among those whose attestations count. -/
def attestationEpoch (p : Preset) (s : BeaconState) (epoch : Epoch) :
    Outcome QueryError AttestationEpoch :=
  match Word.sub? (s.currentEpoch p) epoch with
  | none => Outcome.fail .epochInTheFuture
  | some 0 => .ok .current
  | some 1 => .ok .previous
  | some _ => Outcome.fail .epochBeforePrevious

/-- Where an epoch lies among those for which committees are known. -/
def relativeEpoch (p : Preset) (s : BeaconState) (epoch : Epoch) :
    Outcome QueryError RelativeEpoch := do
  match Word.sub? (← s.nextEpoch p) epoch with
  | none => Outcome.fail .epochAfterNext
  | some 0 => return .next
  | some 1 => return .current
  | some 2 => return .previous
  | some _ => Outcome.fail .epochBeforePrevious

/-! ## History -/

/-- The root of the last block up to a slot before that of the state. -/
def blockRootAt (p : Preset) (s : BeaconState) (slot : Slot) : Outcome QueryError Root := do
  if s.slot ≤ slot then Outcome.fail .slotOutOfRange
  else
    let last ← Word.add slot p.slotsPerHistoricalRoot
    if last < s.slot then Outcome.fail .slotOutOfRange
    else
      let index := (slot % p.slotsPerHistoricalRoot).toNat
      Checked.getAt s.blockRoots index

/-- The randomness mix of an epoch. -/
def randaoMix (p : Preset) (s : BeaconState) (epoch : Epoch) : Checked Root :=
  Checked.getAt s.randaoMixes (epoch % p.epochsPerHistoricalVector).toNat

/-! ## Validators -/

/-- The public key of a validator. -/
def publicKey (s : BeaconState) (index : ValidatorIndex) : Outcome QueryError PublicKeyBytes :=
  match s.validators[index.toNat]? with
  | some validator => .ok validator.publicKey
  | none => Outcome.fail (.validatorNotFound index)

/-- The indices of those validators from number `start` on that are active in an epoch. -/
def activeFrom (epoch : Epoch) : Nat → List Validator → List ValidatorIndex
  | _, [] => []
  | start, validator :: rest =>
    if validator.isActive epoch then UInt64.ofNat start :: activeFrom epoch (start + 1) rest
    else activeFrom epoch (start + 1) rest

/-- The indices of the validators that are active in an epoch, in ascending order. -/
def activeIndices (s : BeaconState) (epoch : Epoch) : List ValidatorIndex :=
  activeFrom epoch 0 s.validators.toList

/-- The number of committees in each slot of an epoch. -/
def committeesPerSlot (p : Preset) (s : BeaconState) (relative : RelativeEpoch) :
    Checked UInt64 := do
  let active := s.activeIndices (← s.absoluteEpoch p relative)
  return committeeCount p (UInt64.ofNat active.length)

section

variable [HashFunction]

/-- The seed of an epoch for one use. -/
def seed (p : Preset) (s : BeaconState) (epoch : Epoch) (domain : DomainType) : Checked Root := do
  let later ← Word.add epoch p.epochsPerHistoricalVector
  let mix ← s.randaoMix p (← Word.sub (← Word.sub later minSeedLookahead) 1)
  return hashDomainWordRoot domain epoch mix

/-- The validators at the shuffled positions from `start` on, `count` of them. -/
def membersFrom (p : Preset) (seed : Root) (indices : Array ValidatorIndex) :
    Nat → Nat → Checked (List ValidatorIndex)
  | _, 0 => .ok []
  | start, count + 1 => do
    let shuffled ← shuffledIndex p seed indices.size start
    let member ← Checked.getAt indices shuffled
    return member :: (← membersFrom p seed indices (start + 1) count)

/-- The members of the committee with number `number` among `committees` equal shares of the
shuffled validators. -/
def committeeMembers (p : Preset) (seed : Root) (indices : Array ValidatorIndex)
    (number committees : Nat) : Checked (List ValidatorIndex) := do
  let start := (← Checked.product indices.size number) / committees
  let stop := (← Checked.product indices.size (← Checked.sum number 1)) / committees
  membersFrom p seed indices start (stop - start)

/-- The members of a committee, in the order of its bit lists. -/
def committee (p : Preset) (s : BeaconState) (slot : Slot) (index : CommitteeIndex) :
    Outcome QueryError (List ValidatorIndex) := do
  let epoch := p.epochAt slot
  let relative ← s.relativeEpoch p epoch
  let perSlot ← s.committeesPerSlot p relative
  if perSlot ≤ index then Outcome.fail (.committeeIndexOutOfBounds index perSlot)
  else
    let indices := s.activeIndices (← s.absoluteEpoch p relative)
    if indices.isEmpty then Outcome.fail .noActiveValidators
    else
      let seed ← s.seed p epoch attesterDomain
      let committees ← Checked.product perSlot.toNat p.slotsPerEpoch.toNat
      let before ← Checked.product (p.slotsSinceEpochStart slot).toNat perSlot.toNat
      let number ← Checked.sum before index.toNat
      committeeMembers p seed indices.toArray number committees

/-- Who may propose a block in the slot of the state. -/
def proposer (p : Preset) (s : BeaconState) : Outcome QueryError ValidatorIndex := do
  let epoch := s.currentEpoch p
  let seed := hashRootWord (← s.seed p epoch proposerDomain) s.slot
  proposerIndex p s.validators (s.activeIndices epoch) seed

/-- The members of the committee whose bits are set, in the order of the committee. -/
def attestingIndices (p : Preset) (s : BeaconState) (data : AttestationData)
    (bits : AggregationBits) : Outcome QueryError (List ValidatorIndex) := do
  let committee ← s.committee p data.slot data.index
  if committee.length ≠ bits.length then
    Outcome.fail (.committeeLengthMismatch bits.length committee.length)
  else return (bits.bits.zip committee).filterMap fun (bit, index) => if bit then some index else none

/-- The attestation with its participants by index in ascending order. -/
def indexed (p : Preset) (s : BeaconState) (a : Attestation) :
    Outcome QueryError IndexedAttestation := do
  let indices ← s.attestingIndices p a.data a.aggregationBits
  return ⟨indices.mergeSort (fun i j => decide (i ≤ j)), a.data, a.signature⟩

end

end BeaconState

end ForkChoice
