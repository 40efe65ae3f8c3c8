import ForkChoice.Chain.Preset
import ForkChoice.Checked

/-!
# ForkChoice — the clock

Slots follow one another from the time of genesis on, all of the same duration.

* `Tick` — the start of a slot, `Tick.atTime` — that of the slot which contains a time,
  `Tick.unixSeconds` — its time;
* `firstTick` — the first start of a slot that is not in the past, and how long it is away;
* `ticks` — the starts of slots from there on.
-/

namespace ForkChoice

/-- Why there is no time or no tick. -/
inductive ClockError where
  | ranOutOfSlots
  | timeOverflow
  /-- The number of a slot is not one of a word. -/
  | slotOutOfRange
  deriving Repr, DecidableEq

/-- The name of the error. -/
def ClockError.name : ClockError → String
  | .ranOutOfSlots => "RanOutOfSlots"
  | .timeOverflow => "TimeOverflow"
  | .slotOutOfRange => "Error"

/-- The text of the error. -/
def ClockError.message : ClockError → String
  | .ranOutOfSlots => "ran out of slots"
  | .timeOverflow => "time of tick overflowed"
  | .slotOutOfRange => "out of range integral type conversion attempted"

/-- The start of a slot. -/
structure Tick where
  slot : Slot
  deriving Repr, DecidableEq

namespace Tick

/-- The tick of the slot that contains a time; times before genesis belong to the first slot. -/
def atTime (config : Config) (time genesisTime : UInt64) : Tick :=
  ⟨Word.satSub time genesisTime / config.secondsPerSlot⟩

/-- The time at which the slot starts. -/
def unixSeconds (tick : Tick) (config : Config) (genesisTime : UInt64) :
    Except ClockError UInt64 :=
  match (Word.mul? tick.slot config.secondsPerSlot).bind (Word.add? genesisTime) with
  | some time => .ok time
  | none => .error .timeOverflow

/-- The start of the next slot. -/
def next (tick : Tick) : Except ClockError Tick :=
  match Word.add? tick.slot 1 with
  | some slot => .ok ⟨slot⟩
  | none => .error .ranOutOfSlots

end Tick

/-- The number of nanoseconds in a second. -/
def nanosPerSecond : Nat := 1000000000

/-- The first tick that is not before `now`, and how long it is away; both spans of time are in
nanoseconds. -/
def firstTick (config : Config) (genesisTime : UInt64) (now : Nat) :
    Except ClockError (Tick × Nat) := do
  let sinceGenesis := now - genesisTime.toNat * nanosPerSecond
  let duration := config.secondsPerSlot.toNat * nanosPerSecond
  let slot := (sinceGenesis + duration - 1) / duration
  if UInt64.size ≤ slot then throw .slotOutOfRange
  else
    let tick : Tick := ⟨UInt64.ofNat slot⟩
    let time ← tick.unixSeconds config genesisTime
    return (tick, time.toNat * nanosPerSecond - now)

/-- The longest time in seconds that can be waited for. -/
def longestWait : Nat := 9223372036854775807

/-- The first tick that is not before `now`, if it is not too far away to wait for. -/
def awaitableTick (config : Config) (genesisTime : UInt64) (now : Nat) :
    Except ClockError (Tick × Nat) := do
  let (tick, wait) ← firstTick config genesisTime now
  if longestWait < wait / nanosPerSecond then throw .timeOverflow else return (tick, wait)

/-- The slots of `count` ticks from one on, each of which has a successor. -/
def ticksFrom (tick : Tick) : Nat → Except ClockError (List Slot)
  | 0 => .ok []
  | count + 1 => do
    let next ← tick.next
    return tick.slot :: (← ticksFrom next count)

/-- The slots of the first `count` ticks that are not before `now`. -/
def ticks (config : Config) (genesisTime : UInt64) (now count : Nat) :
    Except ClockError (List Slot) := do
  let (tick, _) ← awaitableTick config genesisTime now
  ticksFrom tick count

end ForkChoice
