import ForkChoice.Bytes

/-!
# ForkChoice — presets and configurations

The constants of the protocol come in two sets, the presets: one for the public network and one
for small test networks. What may differ between networks of one preset is in a configuration.

* `Preset` — the two sets, with one function for each constant that differs between them;
* `Preset.epochAt`, `Preset.startSlot` — the division of slots into epochs;
* `Config` — a configuration, `Preset.config` — the usual one of a preset.
-/

namespace ForkChoice

/-- A period of fixed duration in which one block may be proposed. -/
abbrev Slot := UInt64

/-- A fixed number of consecutive slots. -/
abbrev Epoch := UInt64

/-- The position of a validator in the registry. -/
abbrev ValidatorIndex := UInt64

/-- The number of a committee within its slot. -/
abbrev CommitteeIndex := UInt64

/-- A set of constants of the protocol. -/
inductive Preset where
  | mainnet
  | minimal
  deriving Repr, DecidableEq, Inhabited

/-- The greatest number of attestations in a block. -/
def maxAttestations : Nat := 128

/-- The greatest number of validators in a committee. -/
def maxValidatorsPerCommittee : Nat := 2048

/-- The greatest number of validators in the registry. -/
def validatorRegistryLimit : Nat := 1099511627776

/-- The balance beyond which a validator has no more weight. -/
def maxEffectiveBalance : UInt64 := 32000000000

/-- The number of epochs for which committees are known in advance. -/
def minSeedLookahead : UInt64 := 1

/-- The epoch of what has not happened and is not planned. -/
def farFutureEpoch : Epoch := 18446744073709551615

/-- The use of a signature under an attestation. -/
def attesterDomain : DomainType := 0x01000000

/-- The use of a seed for the choice of a proposer. -/
def proposerDomain : DomainType := 0x00000000

namespace Preset

/-- The name in configurations. -/
def name : Preset → String
  | .mainnet => "mainnet"
  | .minimal => "minimal"

/-- The preset of a name. -/
def ofName? : String → Option Preset
  | "mainnet" => some .mainnet
  | "minimal" => some .minimal
  | _ => none

/-- The number of randomness mixes that a state keeps, one for each epoch. -/
def epochsPerHistoricalVector : Preset → UInt64
  | .mainnet => 65536
  | .minimal => 64

/-- The number of slots in an epoch. -/
def slotsPerEpoch : Preset → UInt64
  | .mainnet => 32
  | .minimal => 8

/-- The number of block roots and of state roots that a state keeps, one for each slot. -/
def slotsPerHistoricalRoot : Preset → UInt64
  | .mainnet => 8192
  | .minimal => 64

/-- The greatest number of committees in a slot. -/
def maxCommitteesPerSlot : Preset → UInt64
  | .mainnet => 64
  | .minimal => 4

/-- The number of rounds of the shuffle. -/
def shuffleRoundCount : Preset → Nat
  | .mainnet => 90
  | .minimal => 10

/-- The size that committees have where the number of committees is not at a bound. -/
def targetCommitteeSize : Preset → UInt64
  | .mainnet => 128
  | .minimal => 4

/-- The number of slots at the start of an epoch in which the justified checkpoint may move to a
conflicting one. -/
def safeSlotsToUpdateJustified : Preset → UInt64
  | .mainnet => 8
  | .minimal => 2

/-! ## Slots and epochs -/

/-- The epoch that a slot belongs to. -/
def epochAt (p : Preset) (slot : Slot) : Epoch := slot / p.slotsPerEpoch

/-- The first slot of an epoch, or the greatest word where that does not fit. -/
def startSlot (p : Preset) (epoch : Epoch) : Slot :=
  if epoch.toNat * p.slotsPerEpoch.toNat < UInt64.size then epoch * p.slotsPerEpoch
  else 18446744073709551615

/-- The number of slots of the same epoch before a slot. -/
def slotsSinceEpochStart (p : Preset) (slot : Slot) : UInt64 :=
  slot - p.startSlot (p.epochAt slot)

/-- Whether a slot is the first of its epoch. -/
def isEpochStart (p : Preset) (slot : Slot) : Bool := p.slotsSinceEpochStart slot = 0

end Preset

/-! ## Configurations -/

/-- What may differ between networks of one preset. -/
structure Config where
  name : String := "default"
  presetBase : Preset := .mainnet
  genesisDelay : UInt64 := 604800
  genesisForkVersion : Version := 0
  minGenesisTime : UInt64 := 0
  secondsPerSlot : UInt64 := 12
  secondsPerSlot_pos : 0 < secondsPerSlot := by decide
  unknownKeys : List String := []

namespace Config

/-- The configuration of the public network. -/
def mainnet : Config where
  name := "mainnet"
  minGenesisTime := 1606824000

/-- The configuration of small test networks. -/
def minimal : Config where
  name := "minimal"
  presetBase := .minimal
  genesisDelay := 300
  genesisForkVersion := 1
  minGenesisTime := 1578009600
  secondsPerSlot := 6

/-- The version of the protocol in an epoch: there is only one. -/
def versionAt (config : Config) (_epoch : Epoch) : Version := config.genesisForkVersion

end Config

/-- The usual configuration of a preset. -/
def Preset.config : Preset → Config
  | .mainnet => .mainnet
  | .minimal => .minimal

end ForkChoice
