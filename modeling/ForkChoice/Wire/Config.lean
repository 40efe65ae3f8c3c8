import ForkChoice.Wire.Value

/-!
# ForkChoice — configurations as documents

A configuration is an object in which every field may be absent. Fields that are not known are
remembered by name only.
-/

namespace ForkChoice

namespace Config

/-- The names of the fields that are known. -/
def knownKeys : List String :=
  ["CONFIG_NAME", "PRESET_BASE", "GENESIS_DELAY", "GENESIS_FORK_VERSION", "MIN_GENESIS_TIME",
    "SECONDS_PER_SLOT"]

/-- The value of a field, or `default` if the field is absent; `none` if it cannot be read. -/
def readOr {α : Type} [Wire α] (fields : List (String × Value)) (key : String) (default : α) :
    Option α :=
  match Value.find? key fields with
  | some value => read? value
  | none => some default

/-- The names of fields that are not known, in order. -/
def unknownIn (fields : List (String × Value)) : List String :=
  ((fields.map (·.1)).filter fun key => !knownKeys.contains key).mergeSort
    fun key key' => decide (key ≤ key')

/-- Reads the fields of a configuration. -/
def ofFields? (fields : List (String × Value)) : Option Config := do
  let name ← readOr fields "CONFIG_NAME" "default"
  let presetBase ← readOr fields "PRESET_BASE" Preset.mainnet
  let genesisDelay ← readOr fields "GENESIS_DELAY" (604800 : UInt64)
  let version ← readOr fields "GENESIS_FORK_VERSION" (0 : Version)
  let minGenesisTime ← readOr fields "MIN_GENESIS_TIME" (0 : UInt64)
  let seconds ← readOr fields "SECONDS_PER_SLOT" (12 : UInt64)
  if h : 0 < seconds then
    return {
      name := name
      presetBase := presetBase
      genesisDelay := genesisDelay
      genesisForkVersion := version
      minGenesisTime := minGenesisTime
      secondsPerSlot := seconds
      secondsPerSlot_pos := h
      unknownKeys := unknownIn fields }
  else none

end Config

instance : Wire Config where
  write c := .object [("CONFIG_NAME", write c.name), ("PRESET_BASE", write c.presetBase),
    ("GENESIS_DELAY", write c.genesisDelay), ("GENESIS_FORK_VERSION", write c.genesisForkVersion),
    ("MIN_GENESIS_TIME", write c.minGenesisTime), ("SECONDS_PER_SLOT", write c.secondsPerSlot)]
  read?
    | .object fields => Config.ofFields? fields
    | _ => none

end ForkChoice
