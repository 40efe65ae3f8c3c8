import ForkChoice.Chain.State

/-!
# ForkChoice — the shuffle

A pseudorandom permutation of the positions below a count, computed for one position at a time:
each round either leaves a position alone or exchanges it with its mirror image at a pivot.

* `shuffleRound` — one round, `shuffledIndex` — all of them;
* `proposerIndex` — the first shuffled validator that passes a trial weighted by balance;
* `committeeCount` — the number of committees in a slot.
-/

namespace ForkChoice

/-- Why a question about a state has no answer. -/
inductive QueryError where
  | committeeIndexOutOfBounds (index : CommitteeIndex) (committeesPerSlot : UInt64)
  | committeeLengthMismatch (bits committee : Nat)
  | epochAfterNext
  | epochBeforePrevious
  | epochInTheFuture
  | noActiveValidators
  | slotOutOfRange
  | validatorNotFound (index : ValidatorIndex)
  deriving Repr, DecidableEq

/-- The text of the error. -/
def QueryError.message : QueryError → String
  | .committeeIndexOutOfBounds index committees =>
    s!"committee index {index} is out of bounds ({committees} committees per slot)"
  | .committeeLengthMismatch bits committee =>
    s!"aggregation bitlist length {bits} does not match committee length {committee}"
  | .epochAfterNext => "epoch is after next one relative to state"
  | .epochBeforePrevious => "epoch is before previous one relative to state"
  | .epochInTheFuture => "epoch is in the future relative to state"
  | .noActiveValidators => "no validators are active"
  | .slotOutOfRange => "slot is out of range"
  | .validatorNotFound index => s!"validator {index} is not in the registry"

/-- The byte at a position of a root. -/
def byteAt (root : Root) (position : Nat) : UInt8 :=
  UInt8.ofNat (root.toNat >>> (8 * (31 - position)) % 256)

/-- The bit at a position of a root, least significant bits of each byte first. -/
def bitAt (root : Root) (position : Nat) : Bool :=
  root.toNat.testBit (8 * (31 - position / 8) + position % 8)

section

variable [HashFunction]

/-- The point at which a round mirrors positions below `count`. -/
def pivot (seed : Root) (round count : Nat) : Nat :=
  (leadingWord (hashRootByte seed (UInt8.ofNat round))).toNat % count

/-- Where a round moves a position below `count`: the greater of the position and its mirror
image decides for both whether they are exchanged. -/
def shuffleRound (seed : Root) (count round index : Nat) : Checked Nat := do
  let mirror := (← Checked.sum (pivot seed round count) count) - index
  let flip := mirror % count
  let position := max index flip
  let source := hashRootByteHalfWord seed (UInt8.ofNat round) (position / 256).toUInt32
  return if bitAt source (position % 256) then flip else index

/-- The last `rounds` rounds of the shuffle of `total` rounds. -/
def shuffleFrom (seed : Root) (count total : Nat) : Nat → Nat → Checked Nat
  | 0, index => .ok index
  | rounds + 1, index => do
    shuffleFrom seed count total rounds (← shuffleRound seed count (total - (rounds + 1)) index)

/-- Where the shuffle moves a position below `count`. -/
def shuffledIndex (p : Preset) (seed : Root) (count index : Nat) : Checked Nat := do
  Checked.require (index < count) "assertion failed: index < index_count.get()"
  shuffleFrom seed count p.shuffleRoundCount p.shuffleRoundCount index

/-- The number of trials for which there are random bytes. -/
def trialLimit : Nat := (UInt64.size - 1) / 32 * 32

/-- The first validator among the last `fuel` trials whose balance outweighs the random byte of
the trial. -/
def proposerFrom (p : Preset) (validators : Array Validator) (indices : Array ValidatorIndex)
    (seed : Root) : Nat → Nat → Checked ValidatorIndex
  | 0, _ => .error (.violated "the loop eventually finds a proposer with overwhelming probability")
  | fuel + 1, trial => do
    let randomByte := byteAt (hashRootWord seed (UInt64.ofNat (trial / 32))) (trial % 32)
    let shuffled ← shuffledIndex p seed indices.size (trial % indices.size)
    let candidate ← Checked.getAt indices shuffled
    match validators[candidate.toNat]? with
    | none =>
      throw (.violated "candidate_index was produced by enumerating active validators")
    | some validator =>
      let weight ← Word.mul validator.effectiveBalance 255
      if maxEffectiveBalance * randomByte.toUInt64 ≤ weight then return candidate
      else proposerFrom p validators indices seed fuel (trial + 1)

/-- The proposer among the validators with the given indices. -/
def proposerIndex (p : Preset) (validators : Array Validator) (indices : List ValidatorIndex)
    (seed : Root) : Outcome QueryError ValidatorIndex :=
  if indices.isEmpty then Outcome.fail .noActiveValidators
  else (proposerFrom p validators indices.toArray seed trialLimit 0).toOutcome

end

/-- The number of committees in a slot of an epoch with `active` active validators. -/
def committeeCount (p : Preset) (active : UInt64) : UInt64 :=
  max 1 (min p.maxCommitteesPerSlot (active / p.slotsPerEpoch / p.targetCommitteeSize))

end ForkChoice
