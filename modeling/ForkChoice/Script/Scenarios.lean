import ForkChoice.Script.Reader
import ForkChoice.Script.Writer

/-!
# ForkChoice — scripts that grow a tree of blocks

Scripts about stores, engines and nodes begin with the first block of a network and add blocks
with names, to which other steps refer.

* `scenarioOf` — the scenario that a script begins with;
* `buildOr` — the steps that add blocks; all others are left to the script;
* `rootIn`, `checkpointIn`, `attestationIn` — what may refer to blocks by name.
-/

namespace ForkChoice

namespace Script

open Devnet

section

variable [HashFunction]

/-- The scenario that a script begins with. -/
def scenarioOf (v : Value) : Reply Scenario := do
  let config ← configOf .minimal v
  let state ← stateOf .minimal config v
  let patch ← fieldOr v "tweak" blockPatch {}
  Scenario.start .minimal config state patch (← fieldOr v "unreachable_slots" plain [])

/-- The bounds on the work of a store that a script asks for. -/
def limitsOf (v : Value) : Reply StoreLimits := fieldOr v "store_config" storeLimits {}

/-- The step adds a block to the scenario, or blocks in a row, which `put` puts into the state of
the script; any other step is left to `other`, which is told what it asks for. -/
def buildOr {σ : Type} (c : Scenario) (put : Scenario → σ) (v : Value)
    (other : String → Reply (Value × σ)) : Reply (Value × σ) := do
  match ← verb v with
  | "build" =>
    let (b, c) ← c.build (← blockSpec c.context v)
    return (.object [("root", write b.root), ("header", write (← b.block.header))], put c)
  | "chain" =>
    let names ← field v "names" plain
    let slots ← field v "slots" plain
    let (roots, c) ← c.buildChain (← field v "on" plain) names slots
    return (write roots, put c)
  | verb => other verb

/-- Reads an attestation. -/
def attestationIn (c : Scenario) (v : Value) : Reply Attestation := attestation c.context v

end

/-- Reads the name of a block. -/
def blockIn (c : Scenario) (v : Value) : Reply NamedBlock := do c.find (← plain v)

/-- Reads a root. -/
def rootIn (c : Scenario) (v : Value) : Reply Root := do (← rootSpec v).resolve c.context

/-- Reads a checkpoint. -/
def checkpointIn (c : Scenario) (v : Value) : Reply Checkpoint := do
  (← checkpointSpec v).resolve c.context

/-- Reads the vote of a validator. -/
def messageIn (c : Scenario) (v : Value) : Reply LatestMessage := do
  let (epoch, root) ← pairOf plain (rootIn c) v
  return ⟨epoch, root⟩

/-- Reads a vote of several validators. -/
def voteIn (c : Scenario) (v : Value) : Reply Vote := do
  return (← field v "indices" plain, ← field v "message" (messageIn c))

/-- Reads the index of a validator and its vote. -/
def indexedVoteIn (c : Scenario) : Value → Reply (ValidatorIndex × LatestMessage)
  | .list [index, epoch, root] => do
    return (← plain index, ⟨← plain epoch, ← rootIn c root⟩)
  | _ => misshapen

end Script

end ForkChoice
