import ForkChoice.Devnet.Building
import ForkChoice.Proofs.Merkle.Defined
import ForkChoice.Store.Basic

/-!
# ForkChoice — the store at genesis

A network begins with a state of new validators, the block that belongs to it, and a store that
trusts this block. Nothing else is known then, and all checkpoints are those of the first epoch.

* `Store.IsGenesis` — such a store, with any configuration, limits and validators;
* `Store.IsGenesis.facts` — what is known of it;
* `Store.exists_genesis` — there is one for any list of validators that fits into the registry,
  `isGenesis_of_quickStart` — in particular for those whose keys follow from their indices;
* `Engine.forkedNetwork`, `Engine.chainedNetwork` — two networks of eight validators with blocks, in
  which what general results assume can be computed, `exists_forkedNetwork`, `exists_chainedNetwork`,
  `exists_branches` — what has been computed holds of a network that begins at genesis.
-/

namespace ForkChoice

open Devnet

namespace Store

variable [HashFunction]

/-- The store of a network at its beginning. -/
def IsGenesis (s : Store) : Prop :=
  ∃ config genesisTime validators state block,
    genesisState s.preset config genesisTime validators = .ok state ∧
      genesisBlock s.preset state = .ok block ∧
        ofAnchor s.preset s.config s.limits block state = .ok s

/-- The store that knows a block and its state, and nothing else. -/
def singleton (p : Preset) (config : Config) (limits : StoreLimits) (time : UInt64) (root : Root)
    (block : Block) (state : BeaconState) : Store :=
  let checkpoint : Checkpoint := ⟨p.epochAt state.slot, root⟩
  { preset := p
    config := config
    limits := limits
    genesisTime := state.genesisTime
    time := time
    anchorRoot := root
    justified := checkpoint
    bestJustified := checkpoint
    finalized := checkpoint
    blocks := (∅ : Table Root Block).insert root block
    states := (∅ : Table Root BeaconState).insert root state
    checkpointStates := (∅ : Table Checkpoint BeaconState).insert checkpoint state
    links := []
    latestMessages := .empty }

theorem ofAnchor_eq_ok {p : Preset} {config : Config} {limits : StoreLimits} {block : Block}
    {state : BeaconState} {s : Store} :
    ofAnchor p config limits block state = .ok s ↔
      ∃ root, block.treeRoot = .ok root ∧ state.treeRoot p = .ok block.stateRoot ∧
        ∃ elapsed, Word.mul state.slot config.secondsPerSlot = .ok elapsed ∧
          ∃ time, Word.add state.genesisTime elapsed = .ok time ∧
            singleton p config limits time root block state = s := by
  simp only [ofAnchor, bind_eq_ok, Checked.liftM_eq, Checked.toOutcome_eq_ok,
    Outcome.guard_eq_ok, pure_eq_ok, Classical.not_not, ne_eq]
  constructor
  · rintro ⟨root, hRoot, stateRoot, hState, rfl, elapsed, hElapsed, time, hTime, rfl⟩
    exact ⟨root, hRoot, hState, elapsed, hElapsed, time, hTime, rfl⟩
  · rintro ⟨root, hRoot, hState, elapsed, hElapsed, time, hTime, rfl⟩
    exact ⟨root, hRoot, _, hState, rfl, elapsed, hElapsed, time, hTime, rfl⟩

/-- What is known at genesis: a block of the first slot with its state, in which no checkpoint is
later than the first epoch. -/
structure Facts (s : Store) (root : Root) (block : Block) (state : BeaconState) : Prop where
  root_eq : block.treeRoot = .ok root
  stateRoot_eq : state.treeRoot s.preset = .ok block.stateRoot
  slot : block.slot = 0
  stateSlot : state.slot = 0
  headerSlot : state.latestBlockHeader.slot = 0
  currentJustified : state.currentJustified = .empty
  finalized : state.finalized = .empty
  store_eq : ∃ time, s = singleton s.preset s.config s.limits time root block state

theorem facts_of_ofAnchor {s : Store} {config : Config} {genesisTime : UInt64}
    {validators : List Validator} {state : BeaconState} {block : Block}
    (hState : genesisState s.preset config genesisTime validators = .ok state)
    (hBlock : genesisBlock s.preset state = .ok block)
    (hAnchor : ofAnchor s.preset s.config s.limits block state = .ok s) :
    ∃ root, Facts s root block state := by
  obtain ⟨root, hRoot, hStateRoot, elapsed, -, time, -, hStore⟩ := ofAnchor_eq_ok.mp hAnchor
  -- State and block are given by their fields, so that the facts can be read from them.
  simp only [genesisState, bind_eq_ok, pure_eq_ok] at hState
  obtain ⟨validatorsRoot, -, bodyRoot, -, rfl⟩ := hState
  simp only [genesisBlock, bind_eq_ok, pure_eq_ok] at hBlock
  obtain ⟨stateRoot, -, rfl⟩ := hBlock
  exact ⟨root, hRoot, hStateRoot, rfl, rfl, rfl, rfl, rfl, time, hStore.symm⟩

theorem IsGenesis.facts {s : Store} (h : s.IsGenesis) :
    ∃ root block state, Facts s root block state := by
  obtain ⟨config, genesisTime, validators, state, block, hState, hBlock, hAnchor⟩ := h
  obtain ⟨root, hFacts⟩ := facts_of_ofAnchor hState hBlock hAnchor
  exact ⟨root, block, state, hFacts⟩

/-- The store that trusts the block of a state of new validators is one of these, under the rules
that it was given. -/
theorem isGenesis_of_ofAnchor {p : Preset} {config config' : Config} {limits : StoreLimits}
    {genesisTime : UInt64} {validators : List Validator} {state : BeaconState} {block : Block}
    {s : Store} (hState : genesisState p config genesisTime validators = .ok state)
    (hBlock : genesisBlock p state = .ok block)
    (hAnchor : ofAnchor p config' limits block state = .ok s) :
    s.IsGenesis ∧ s.preset = p ∧ s.config = config' ∧ s.limits = limits := by
  have hStore := hAnchor
  obtain ⟨root, -, -, elapsed, -, time, -, rfl⟩ := ofAnchor_eq_ok.mp hAnchor
  exact ⟨⟨config, genesisTime, validators, state, block, hState, hBlock, hStore⟩, rfl, rfl, rfl⟩

/-- A network whose validators have keys that follow from their indices is one of these. -/
theorem isGenesis_of_quickStart {p : Preset} {config config' : Config} {limits : StoreLimits}
    {genesisTime : UInt64} {count : Nat} {state : BeaconState} {block : Block} {s : Store}
    (hState : quickStartState p config genesisTime count = .ok state)
    (hBlock : genesisBlock p state = .ok block)
    (hAnchor : ofAnchor p config' limits block state = .ok s) : s.IsGenesis := by
  obtain ⟨validators, -, hGenesis⟩ := bind_eq_ok.mp hState
  exact (isGenesis_of_ofAnchor hGenesis hBlock hAnchor).1

/-! ## Existence -/

theorem emptyBody_defined : ∃ root, emptyBody.treeRoot = .ok root := by
  have hRoom : maxAttestations ≤ 2 ^ Merkle.maxDepth := by decide
  obtain ⟨attestations, hAttestations⟩ := Merkle.listRoot_defined [] hRoom (Nat.zero_le _)
  simp only [BlockBody.treeRoot, emptyBody, List.mapM_nil, bind_eq_ok, pure_eq_ok]
  exact ⟨_, _, rfl, attestations, hAttestations, rfl⟩

theorem genesisState_defined (p : Preset) (config : Config) (genesisTime : UInt64)
    {validators : List Validator} (hLength : validators.length ≤ validatorRegistryLimit) :
    ∃ state, genesisState p config genesisTime validators = .ok state := by
  have hRegistry : validatorRegistryLimit ≤ 2 ^ Merkle.maxDepth := by decide
  obtain ⟨body, hBody⟩ := emptyBody_defined
  obtain ⟨registry, hValidators⟩ := Merkle.listRoot_defined
    (validators.map Validator.treeRoot) hRegistry (by simpa using hLength)
  simp only [genesisState, hBody, hValidators, bind_eq_ok, pure_eq_ok]
  exact ⟨_, registry, rfl, body, rfl, rfl⟩

theorem genesisState_treeRoot_defined {p : Preset} {config : Config} {genesisTime : UInt64}
    {validators : List Validator} {state : BeaconState}
    (h : genesisState p config genesisTime validators = .ok state)
    (hLength : validators.length ≤ validatorRegistryLimit) :
    ∃ root, state.treeRoot p = .ok root := by
  simp only [genesisState, bind_eq_ok, pure_eq_ok] at h
  obtain ⟨validatorsRoot, -, bodyRoot, -, rfl⟩ := h
  have hHistory : p.slotsPerHistoricalRoot.toNat ≤ 2 ^ Merkle.maxDepth := by cases p <;> decide
  have hVector : p.epochsPerHistoricalVector.toNat ≤ 2 ^ Merkle.maxDepth := by cases p <;> decide
  have hRegistry : validatorRegistryLimit ≤ 2 ^ Merkle.maxDepth := by decide
  -- Only the collections of a state can fail to have roots.
  obtain ⟨roots, hRoots⟩ := Merkle.vectorRoot_defined
    (List.replicate p.slotsPerHistoricalRoot.toNat 0) hHistory (by simp)
  obtain ⟨registry, hValidators⟩ := Merkle.listRoot_defined
    (validators.map Validator.treeRoot) hRegistry (by simpa using hLength)
  obtain ⟨balances, hBalances⟩ := Merkle.wordListRoot_defined
    (validators.map Validator.effectiveBalance) hRegistry (by simpa using hLength)
  obtain ⟨mixes, hMixes⟩ := Merkle.vectorRoot_defined
    (List.replicate p.epochsPerHistoricalVector.toNat genesisState.hashOfBeginning)
    hVector (by simp)
  simp only [BeaconState.treeRoot, Array.toList_replicate, hRoots, hValidators, hBalances,
    hMixes, bind_eq_ok, pure_eq_ok]
  exact ⟨_, roots, rfl, roots, rfl, registry, rfl, balances, rfl, mixes, rfl, rfl⟩

/-- **Genesis.** Every list of validators that fits into the registry has a network that begins
with it. -/
theorem exists_genesis (p : Preset) (config : Config) (limits : StoreLimits)
    (genesisTime : UInt64) {validators : List Validator}
    (hLength : validators.length ≤ validatorRegistryLimit) :
    ∃ s : Store, s.IsGenesis ∧ s.preset = p ∧ s.config = config ∧ s.limits = limits := by
  obtain ⟨state, hState⟩ := genesisState_defined p config genesisTime hLength
  obtain ⟨stateRoot, hStateRoot⟩ := genesisState_treeRoot_defined hState hLength
  obtain ⟨bodyRoot, hBody⟩ := emptyBody_defined
  let block : Block := ⟨state.slot, 0, 0, stateRoot, emptyBody⟩
  have hBlock : genesisBlock p state = .ok block := by
    rw [genesisBlock, hStateRoot]
    rfl
  have hRoot : ∃ root, block.treeRoot = .ok root := by
    simp only [Block.treeRoot, Block.header, hBody, bind_eq_ok, pure_eq_ok, block]
    exact ⟨_, _, ⟨bodyRoot, rfl, rfl⟩, rfl⟩
  obtain ⟨root, hRoot⟩ := hRoot
  -- No time has passed at slot zero, so the time of the store is that of genesis.
  have hSlot : state.slot = 0 := by
    simp only [genesisState, bind_eq_ok, pure_eq_ok] at hState
    obtain ⟨_, -, _, -, rfl⟩ := hState
    rfl
  have hElapsed : Word.mul state.slot config.secondsPerSlot = .ok 0 := by
    simp [Word.mul, hSlot]
  have hTime : Word.add state.genesisTime 0 = .ok state.genesisTime := by
    simp only [Word.add, UInt64.toNat_zero, Nat.add_zero, UInt64.add_zero]
    exact if_pos state.genesisTime.toNat_lt
  have hAnchor : ofAnchor p config limits block state =
      .ok (singleton p config limits state.genesisTime root block state) :=
    ofAnchor_eq_ok.mpr ⟨root, hRoot, hStateRoot, 0, hElapsed, _, hTime, rfl⟩
  exact ⟨_, isGenesis_of_ofAnchor hState hBlock hAnchor⟩

end Store

/-! ## Small networks -/

namespace Engine

/-- A hash function that is cheap to compute. -/
@[reducible]
def linearHash : HashFunction :=
  ⟨fun x => BitVec.ofNat 256 (x.toNat * 210306068529402873165736369884012333109 % (2 ^ 255 - 19))⟩

theorem one_participant_le : [true].length ≤ maxValidatorsPerCommittee := by
  decide

theorem toOption_eq_some {ε α : Type} {x : Except ε α} {a : α} :
    x.toOption = some a ↔ x = .ok a := by
  cases x <;> simp [Except.toOption]

/-- A network at genesis, and two blocks on its anchor. -/
structure ForkedNetwork where
  state : BeaconState
  anchor : Block
  store : Store
  /-- A block of the second slot. -/
  late : Block
  lateRoot : Root
  /-- A block of the first slot, with a vote for the other one. -/
  early : Block

/-- The network of eight validators in which walks follow no link. -/
def forkedNetwork [HashFunction] : Option ForkedNetwork := do
  let validators := (List.range 8).map Devnet.keylessValidator
  let state ← (Devnet.genesisState .minimal .minimal 0 validators).toOption
  let anchor ← (Devnet.genesisBlock .minimal state).toOption
  let store ← (Store.ofAnchor .minimal .minimal ⟨0, 32⟩ anchor state).toOption
  let (late, _) ← (Devnet.buildBlock .minimal state 2 0 []).toOption
  let lateRoot ← late.treeRoot.toOption
  let vote : Attestation :=
    ⟨⟨[true], one_participant_le⟩, ⟨0, 0, lateRoot, .empty, ⟨0, store.anchorRoot⟩⟩, 0⟩
  let (early, _) ← (Devnet.buildBlock .minimal state 1 0 [vote]).toOption
  return ⟨state, anchor, store, late, lateRoot, early⟩

/-- What has been computed of the network holds of one that begins at genesis. -/
theorem exists_forkedNetwork [HashFunction] {check : ForkedNetwork → Bool}
    (h : forkedNetwork.any check = true) :
    ∃ n, forkedNetwork = some n ∧ n.store.IsGenesis ∧ check n = true := by
  rw [Option.any_eq_true] at h
  obtain ⟨n, hNetwork, hCheck⟩ := h
  refine ⟨n, hNetwork, ?_, hCheck⟩
  simp only [forkedNetwork, Option.bind_eq_bind, Option.bind_eq_some_iff, toOption_eq_some]
    at hNetwork
  obtain ⟨state, hState, anchor, hAnchor, store, hStore, _, -, _, -, _, -, hEnd⟩ := hNetwork
  cases hEnd
  exact (Store.isGenesis_of_ofAnchor hState hAnchor hStore).1

/-- A network at genesis, and two blocks one after the other. -/
structure ChainedNetwork where
  state : BeaconState
  anchor : Block
  store : Store
  /-- A block of the first slot. -/
  first : Block
  /-- A block of the second slot, on the first one. -/
  second : Block
  /-- A vote of the first slot for the first block. -/
  vote : ReceivedAttestation

/-- The network of eight validators. -/
def chainedNetwork [HashFunction] : Option ChainedNetwork := do
  let validators := (List.range 8).map Devnet.keylessValidator
  let state ← (Devnet.genesisState .minimal .minimal 0 validators).toOption
  let anchor ← (Devnet.genesisBlock .minimal state).toOption
  let store ← (Store.ofAnchor .minimal .minimal {} anchor state).toOption
  let (first, firstState) ← (Devnet.buildBlock .minimal state 1 0 []).toOption
  let (second, _) ← (Devnet.buildBlock .minimal firstState 2 0 []).toOption
  let firstRoot ← first.treeRoot.toOption
  let vote : Attestation :=
    ⟨⟨[true], one_participant_le⟩, ⟨1, 0, firstRoot, .empty, ⟨0, store.anchorRoot⟩⟩, 0⟩
  return ⟨state, anchor, store, first, second, { (default : ReceivedAttestation) with
    attestation := vote }⟩

/-- What has been computed of the network holds of one that begins at genesis. -/
theorem exists_chainedNetwork [HashFunction] {check : ChainedNetwork → Bool}
    (h : chainedNetwork.any check = true) :
    ∃ n, chainedNetwork = some n ∧ n.store.IsGenesis ∧ check n = true := by
  rw [Option.any_eq_true] at h
  obtain ⟨n, hNetwork, hCheck⟩ := h
  refine ⟨n, hNetwork, ?_, hCheck⟩
  simp only [chainedNetwork, Option.bind_eq_bind, Option.bind_eq_some_iff, toOption_eq_some]
    at hNetwork
  obtain ⟨state, hState, anchor, hAnchor, store, hStore, _, -, _, -, _, -, hEnd⟩ := hNetwork
  cases hEnd
  exact (Store.isGenesis_of_ofAnchor hState hAnchor hStore).1

/-- A block of the second slot beside the first block of a small network. -/
def ChainedNetwork.rival? [HashFunction] (n : ChainedNetwork) : Option Block :=
  (Devnet.buildBlock .minimal n.state 2 1 []).toOption.map Prod.fst

/-- Whether a check holds of the network, the block beside its first one, and the roots of its first
block, of its second one and of that block. -/
def checkBranches [HashFunction]
    (check : ChainedNetwork → Block → Root → Root → Root → Bool) : Bool :=
  chainedNetwork.any fun n => n.rival?.any fun other =>
    n.first.treeRoot.toOption.any fun first => n.second.treeRoot.toOption.any fun second =>
      other.treeRoot.toOption.any fun rival => check n other first second rival

/-- What has been computed of the branches holds in a network that begins at genesis. -/
theorem exists_branches [HashFunction]
    {check : ChainedNetwork → Block → Root → Root → Root → Bool} (h : checkBranches check = true) :
    ∃ n other first second rival, chainedNetwork = some n ∧ n.store.IsGenesis ∧
      n.rival? = some other ∧ check n other first second rival = true := by
  obtain ⟨n, hNetwork, hs, hBranches⟩ := exists_chainedNetwork h
  simp only [Option.any_eq_true] at hBranches
  obtain ⟨other, hOther, first, -, second, -, rival, -, hCheck⟩ := hBranches
  exact ⟨n, other, first, second, rival, hNetwork, hs, hOther, hCheck⟩

/-- A vote of the first validator of a slot in the small network. -/
def ChainedNetwork.voteFor (n : ChainedNetwork) (slot : Slot) (root : Root) : Attestation :=
  let vote := n.vote.attestation
  { vote with data := { vote.data with slot := slot, blockRoot := root } }

end Engine

end ForkChoice
