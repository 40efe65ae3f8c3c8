import ForkChoice.Chain.State
import ForkChoice.Proofs.BitList.Packing
import ForkChoice.Proofs.Chain.Roots
import ForkChoice.Proofs.Merkle.Binding
import ForkChoice.Proofs.Outcome

/-!
# ForkChoice — roots bind values

The root of a value stands for the value: blocks name their parents by root, votes name blocks and
checkpoints by root, and signatures are made over roots. This is sound as long as no two different
values that anyone comes across have one root. Here it is shown that two such values exhibit a
collision of the hash function among the pairs that are hashed for their roots.

Each kind of value has the roots of its fields, `fieldRoots`, and the pairs that are hashed for its
root, `pairs`: those of the tree over the fields, and those of the fields. The trees of two values
are compared first, which gives the roots of the fields, and then the fields one after the other.

* `Checkpoint.treeRoot_binds`, `AttestationData.treeRoot_binds`, … — one lemma for each kind;
* `BeaconState.Within` — states of the sizes that the preset admits;
* `treeRoots_bind` — the kinds of values that are looked up or signed by their roots.
-/

namespace ForkChoice

open Merkle

section

variable [HashFunction]

/-! ## Bit lists -/

namespace BitList

variable {limit : Nat}

/-- The root that a bit list has if its limit is not too great. -/
def plainRoot (b : BitList limit) : Root :=
  mixedRoot b.leaves ((limit + 255) / 256) b.length

/-- The pairs that are hashed for the root. -/
def pairs (b : BitList limit) : List (Root × Root) :=
  mixedPairs b.leaves ((limit + 255) / 256) b.length

/-- **Bit lists.** Padding hides the length from the leaves but not from the root. -/
theorem plainRoot_binds (hLimit : limit < UInt64.size) :
    Binds (fun _ : BitList limit => True) plainRoot pairs := by
  intro b b' _ _ hPairs h
  have hRoom : b.length ≤ limit := b.length_le
  have hRoom' : b'.length ≤ limit := b'.length_le
  have hLeaves : b.leaves.length ≤ (limit + 255) / 256 := by
    rw [length_leaves]
    omega
  -- Equal lengths are known before the bits are, and only then do padding bits say nothing.
  obtain ⟨hLength, hSame⟩ := mixedRoot_inj (by omega) (by omega) hLeaves
    (fun hLength => by rw [length_leaves, length_leaves, hLength]) hPairs h
  have hBytes : bytesOf b.bits = bytesOf b'.bits := by
    refine packBytes_inj ?_ hSame
    rw [length_bytesOf, length_bytesOf]
    exact congrArg (fun length => (length + 7) / 8) hLength
  cases b
  cases b'
  rw [mk.injEq]
  exact bytesOf_inj hLength hBytes

end BitList

/-! ## Votes -/

namespace Checkpoint

/-- The roots of the fields, in the order of the type. -/
def fieldRoots (c : Checkpoint) : List Root :=
  [wordChunk c.epoch, c.root]

/-- The pairs that are hashed for the root. -/
def pairs (c : Checkpoint) : List (Root × Root) :=
  containerPairs c.fieldRoots

theorem treeRoot_binds : Binds (fun _ => True) treeRoot pairs := by
  intro c c' _ _ hPairs h
  have hFields := containerRoot_inj (by simp [fieldRoots]) hPairs h
  simp only [fieldRoots, List.cons.injEq, wordChunk_inj] at hFields
  obtain ⟨hEpoch, hRoot, -⟩ := hFields
  cases c
  cases c'
  exact (mk.injEq ..).mpr ⟨hEpoch, hRoot⟩

end Checkpoint

namespace AttestationData

def fieldRoots (d : AttestationData) : List Root :=
  [wordChunk d.slot, wordChunk d.index, d.blockRoot, d.source.treeRoot, d.target.treeRoot]

def pairs (d : AttestationData) : List (Root × Root) :=
  containerPairs d.fieldRoots ++ (d.source.pairs ++ d.target.pairs)

theorem treeRoot_binds : Binds (fun _ => True) treeRoot pairs := by
  intro d d' _ _ hPairs h
  -- First the tree over the fields, then the two checkpoints in it.
  obtain ⟨hTree, hPairs⟩ := hPairs.parts
  obtain ⟨hSourcePairs, hTargetPairs⟩ := hPairs.parts
  have hFields := containerRoot_inj (by simp [fieldRoots]) hTree h
  simp only [fieldRoots, List.cons.injEq, wordChunk_inj] at hFields
  obtain ⟨hSlot, hIndex, hBlock, hSource, hTarget, -⟩ := hFields
  have hSource := Checkpoint.treeRoot_binds trivial trivial hSourcePairs hSource
  have hTarget := Checkpoint.treeRoot_binds trivial trivial hTargetPairs hTarget
  cases d
  cases d'
  exact (mk.injEq ..).mpr ⟨hSlot, hIndex, hBlock, hSource, hTarget⟩

end AttestationData

namespace Attestation

def fieldRoots (a : Attestation) : List Root :=
  [a.aggregationBits.plainRoot, a.data.treeRoot, signatureRoot a.signature]

def pairs (a : Attestation) : List (Root × Root) :=
  containerPairs a.fieldRoots ++
    (a.aggregationBits.pairs ++ (a.data.pairs ++ signaturePairs a.signature))

/-- The root, which always exists. -/
def plainRoot (a : Attestation) : Root :=
  containerRoot a.fieldRoots

theorem treeRoot_eq_ok (a : Attestation) : a.treeRoot = .ok a.plainRoot := by
  rw [treeRoot, BitList.root_eq_ok (by decide)]
  rfl

theorem plainRoot_binds : Binds (fun _ => True) plainRoot pairs := by
  intro a a' _ _ hPairs h
  obtain ⟨hTree, hPairs⟩ := hPairs.parts
  obtain ⟨hBitPairs, hPairs⟩ := hPairs.parts
  obtain ⟨hDataPairs, hSignaturePairs⟩ := hPairs.parts
  have hFields := containerRoot_inj (by simp [fieldRoots]) hTree h
  simp only [fieldRoots, List.cons.injEq] at hFields
  obtain ⟨hBits, hData, hSignature, -⟩ := hFields
  have hBits := BitList.plainRoot_binds (by decide) trivial trivial hBitPairs hBits
  have hData := AttestationData.treeRoot_binds trivial trivial hDataPairs hData
  have hSignature := signatureRoot_binds trivial trivial hSignaturePairs hSignature
  cases a
  cases a'
  exact (mk.injEq ..).mpr ⟨hBits, hData, hSignature⟩

end Attestation

namespace IndexedAttestation

def fieldRoots (a : IndexedAttestation) : List Root :=
  [mixedRoot (wordLeaves a.attestingIndices) ((maxValidatorsPerCommittee * 8 + 31) / 32)
      a.attestingIndices.length,
    a.data.treeRoot, signatureRoot a.signature]

def pairs (a : IndexedAttestation) : List (Root × Root) :=
  containerPairs a.fieldRoots ++
    (wordListPairs a.attestingIndices maxValidatorsPerCommittee ++
      (a.data.pairs ++ signaturePairs a.signature))

/-- The list of participants is not longer than its type admits. -/
def Within (a : IndexedAttestation) : Prop :=
  a.attestingIndices.length ≤ maxValidatorsPerCommittee

/-- The root, which exists if the list of participants is not too long. -/
def plainRoot (a : IndexedAttestation) : Root :=
  containerRoot a.fieldRoots

theorem treeRoot_eq_ok (a : IndexedAttestation) (h : a.Within) : a.treeRoot = .ok a.plainRoot := by
  rw [treeRoot, wordListRoot_eq_ok (by decide) h]
  rfl

theorem plainRoot_binds : Binds Within plainRoot pairs := by
  intro a a' hWithin hWithin' hPairs h
  obtain ⟨hTree, hPairs⟩ := hPairs.parts
  obtain ⟨hIndexPairs, hPairs⟩ := hPairs.parts
  obtain ⟨hDataPairs, hSignaturePairs⟩ := hPairs.parts
  have hFields := containerRoot_inj (by simp [fieldRoots]) hTree h
  simp only [fieldRoots, List.cons.injEq] at hFields
  obtain ⟨hIndices, hData, hSignature, -⟩ := hFields
  have hIndices := wordListRoot_inj (by decide) hWithin hWithin' hIndexPairs hIndices
  have hData := AttestationData.treeRoot_binds trivial trivial hDataPairs hData
  have hSignature := signatureRoot_binds trivial trivial hSignaturePairs hSignature
  cases a
  cases a'
  exact (mk.injEq ..).mpr ⟨hIndices, hData, hSignature⟩

end IndexedAttestation

/-! ## Blocks -/

namespace BlockHeader

def fieldRoots (h : BlockHeader) : List Root :=
  [wordChunk h.slot, wordChunk h.proposerIndex, h.parentRoot, h.stateRoot, h.bodyRoot]

def pairs (h : BlockHeader) : List (Root × Root) :=
  containerPairs h.fieldRoots

theorem treeRoot_binds : Binds (fun _ => True) treeRoot pairs := by
  intro header header' _ _ hPairs h
  have hFields := containerRoot_inj (by simp [fieldRoots]) hPairs h
  simp only [fieldRoots, List.cons.injEq, wordChunk_inj] at hFields
  obtain ⟨hSlot, hProposer, hParent, hState, hBody, -⟩ := hFields
  cases header
  cases header'
  exact (mk.injEq ..).mpr ⟨hSlot, hProposer, hParent, hState, hBody⟩

end BlockHeader

namespace BlockBody

def fieldRoots (b : BlockBody) : List Root :=
  [signatureRoot b.randaoReveal, b.graffiti,
    mixedRoot (b.attestations.map Attestation.plainRoot) maxAttestations b.attestations.length]

def pairs (b : BlockBody) : List (Root × Root) :=
  containerPairs b.fieldRoots ++
    (signaturePairs b.randaoReveal ++
      listPairs Attestation.plainRoot Attestation.pairs b.attestations maxAttestations)

/-- There are no more attestations than the type of the list admits. -/
def Within (b : BlockBody) : Prop :=
  b.attestations.length ≤ maxAttestations

/-- The root, which exists if there are not too many attestations. -/
def plainRoot (b : BlockBody) : Root :=
  containerRoot b.fieldRoots

theorem treeRoot_eq_ok (b : BlockBody) (h : b.Within) : b.treeRoot = .ok b.plainRoot := by
  have hRoots : b.attestations.mapM Attestation.treeRoot =
      .ok (b.attestations.map Attestation.plainRoot) :=
    mapM_eq_ok_map fun a _ => a.treeRoot_eq_ok
  have hRoom : (b.attestations.map Attestation.plainRoot).length ≤ maxAttestations := by
    rw [List.length_map]
    exact h
  rw [treeRoot, hRoots, ok_bind, listRoot_eq_ok (by decide) hRoom, List.length_map]
  rfl

theorem plainRoot_binds : Binds Within plainRoot pairs := by
  intro body body' hWithin hWithin' hPairs h
  obtain ⟨hTree, hPairs⟩ := hPairs.parts
  obtain ⟨hRevealPairs, hListPairs⟩ := hPairs.parts
  have hFields := containerRoot_inj (by simp [fieldRoots]) hTree h
  simp only [fieldRoots, List.cons.injEq] at hFields
  obtain ⟨hReveal, hGraffiti, hList, -⟩ := hFields
  have hReveal := signatureRoot_binds trivial trivial hRevealPairs hReveal
  have hList := Attestation.plainRoot_binds.listRoot_inj (by decide) hWithin hWithin'
    (fun _ _ => trivial) (fun _ _ => trivial) hListPairs hList
  cases body
  cases body'
  exact (mk.injEq ..).mpr ⟨hReveal, hGraffiti, hList⟩

end BlockBody

namespace Block

/-- The header in which the root of the body stands for the body. -/
def plainHeader (b : Block) : BlockHeader :=
  ⟨b.slot, b.proposerIndex, b.parentRoot, b.stateRoot, b.body.plainRoot⟩

def pairs (b : Block) : List (Root × Root) :=
  b.plainHeader.pairs ++ b.body.pairs

theorem treeRoot_eq_ok (b : Block) (h : b.body.Within) :
    b.treeRoot = .ok b.plainHeader.treeRoot := by
  rw [treeRoot, header, b.body.treeRoot_eq_ok h]
  rfl

/-- **Blocks.** A root of a block binds the header, and this binds the body. -/
theorem plainRoot_binds :
    Binds (fun b : Block => b.body.Within) (fun b => b.plainHeader.treeRoot) pairs := by
  intro b b' hWithin hWithin' hPairs h
  obtain ⟨hHeaderPairs, hBodyPairs⟩ := hPairs.parts
  -- The root of a block is that of its header, in which the body is a root again.
  have hHeader := BlockHeader.treeRoot_binds trivial trivial hHeaderPairs h
  simp only [plainHeader, BlockHeader.mk.injEq] at hHeader
  obtain ⟨hSlot, hProposer, hParent, hState, hBody⟩ := hHeader
  have hBody := BlockBody.plainRoot_binds hWithin hWithin' hBodyPairs hBody
  cases b
  cases b'
  exact (mk.injEq ..).mpr ⟨hSlot, hProposer, hParent, hState, hBody⟩

end Block

/-! ## States -/

namespace Fork

def fieldRoots (f : Fork) : List Root :=
  [versionChunk f.previousVersion, versionChunk f.currentVersion, wordChunk f.epoch]

def pairs (f : Fork) : List (Root × Root) :=
  containerPairs f.fieldRoots

theorem treeRoot_binds : Binds (fun _ => True) treeRoot pairs := by
  intro f f' _ _ hPairs h
  have hFields := containerRoot_inj (by simp [fieldRoots]) hPairs h
  simp only [fieldRoots, List.cons.injEq, wordChunk_inj, versionChunk_inj] at hFields
  obtain ⟨hPrevious, hCurrent, hEpoch, -⟩ := hFields
  cases f
  cases f'
  exact (mk.injEq ..).mpr ⟨hPrevious, hCurrent, hEpoch⟩

end Fork

namespace Validator

def fieldRoots (v : Validator) : List Root :=
  [publicKeyRoot v.publicKey, v.withdrawalCredentials, wordChunk v.effectiveBalance,
    boolChunk v.slashed, wordChunk v.activationEligibilityEpoch, wordChunk v.activationEpoch,
    wordChunk v.exitEpoch, wordChunk v.withdrawableEpoch]

def pairs (v : Validator) : List (Root × Root) :=
  containerPairs v.fieldRoots ++ publicKeyPairs v.publicKey

theorem treeRoot_binds : Binds (fun _ => True) treeRoot pairs := by
  intro v v' _ _ hPairs h
  obtain ⟨hTree, hKeyPairs⟩ := hPairs.parts
  have hFields := containerRoot_inj (by simp [fieldRoots]) hTree h
  simp only [fieldRoots, List.cons.injEq, wordChunk_inj, boolChunk_inj] at hFields
  obtain ⟨hKey, hCredentials, hBalance, hSlashed, hEligibility, hActivation, hExit, hWithdrawable,
    -⟩ := hFields
  have hKey := publicKeyRoot_binds trivial trivial hKeyPairs hKey
  cases v
  cases v'
  exact (mk.injEq ..).mpr
    ⟨hKey, hCredentials, hBalance, hSlashed, hEligibility, hActivation, hExit, hWithdrawable⟩

end Validator

namespace BeaconState

variable {p : Preset}

/-- The vectors have the lengths that the preset gives them, and the lists of the registry are not
longer than their types admit. -/
structure Within (p : Preset) (s : BeaconState) : Prop where
  blockRoots : s.blockRoots.size = p.slotsPerHistoricalRoot.toNat
  stateRoots : s.stateRoots.size = p.slotsPerHistoricalRoot.toNat
  validators : s.validators.size ≤ validatorRegistryLimit
  balances : s.balances.size ≤ validatorRegistryLimit
  randaoMixes : s.randaoMixes.size = p.epochsPerHistoricalVector.toNat

def fieldRoots (p : Preset) (s : BeaconState) : List Root :=
  [wordChunk s.genesisTime, s.genesisValidatorsRoot, wordChunk s.slot, s.fork.treeRoot,
    s.latestBlockHeader.treeRoot,
    Merkle.treeRoot s.blockRoots.toList (treeDepth p.slotsPerHistoricalRoot.toNat),
    Merkle.treeRoot s.stateRoots.toList (treeDepth p.slotsPerHistoricalRoot.toNat),
    mixedRoot (s.validators.toList.map Validator.treeRoot) validatorRegistryLimit
      s.validators.toList.length,
    mixedRoot (wordLeaves s.balances.toList) ((validatorRegistryLimit * 8 + 31) / 32)
      s.balances.toList.length,
    Merkle.treeRoot s.randaoMixes.toList (treeDepth p.epochsPerHistoricalVector.toNat),
    s.previousJustified.treeRoot, s.currentJustified.treeRoot, s.finalized.treeRoot]

def pairs (p : Preset) (s : BeaconState) : List (Root × Root) :=
  containerPairs (s.fieldRoots p) ++
    (s.fork.pairs ++
      (s.latestBlockHeader.pairs ++
        (treePairs s.blockRoots.toList (treeDepth p.slotsPerHistoricalRoot.toNat) ++
          (treePairs s.stateRoots.toList (treeDepth p.slotsPerHistoricalRoot.toNat) ++
            (listPairs Validator.treeRoot Validator.pairs s.validators.toList
                validatorRegistryLimit ++
              (wordListPairs s.balances.toList validatorRegistryLimit ++
                (treePairs s.randaoMixes.toList (treeDepth p.epochsPerHistoricalVector.toNat) ++
                  (s.previousJustified.pairs ++
                    (s.currentJustified.pairs ++ s.finalized.pairs)))))))))

/-- The root, which exists if the vectors and the lists have the right sizes. -/
def plainRoot (p : Preset) (s : BeaconState) : Root :=
  containerRoot (s.fieldRoots p)

theorem treeRoot_eq_ok (s : BeaconState) (h : s.Within p) :
    s.treeRoot p = .ok (s.plainRoot p) := by
  have hHistory : p.slotsPerHistoricalRoot.toNat ≤ 2 ^ maxDepth := by cases p <;> decide
  have hVector : p.epochsPerHistoricalVector.toNat ≤ 2 ^ maxDepth := by cases p <;> decide
  have hValidators :
      (s.validators.toList.map Validator.treeRoot).length ≤ validatorRegistryLimit := by
    rw [List.length_map]
    exact h.validators
  rw [treeRoot, vectorRoot_eq_ok hHistory (Nat.le_of_eq h.blockRoots), ok_bind,
    vectorRoot_eq_ok hHistory (Nat.le_of_eq h.stateRoots), ok_bind,
    listRoot_eq_ok (by decide) hValidators, ok_bind,
    wordListRoot_eq_ok (by decide) h.balances, ok_bind,
    vectorRoot_eq_ok hVector (Nat.le_of_eq h.randaoMixes), ok_bind, List.length_map]
  rfl

theorem plainRoot_binds : Binds (Within p) (plainRoot p) (pairs p) := by
  intro s s' hWithin hWithin' hPairs h
  obtain ⟨hTree, hPairs⟩ := hPairs.parts
  obtain ⟨hForkPairs, hPairs⟩ := hPairs.parts
  obtain ⟨hHeaderPairs, hPairs⟩ := hPairs.parts
  obtain ⟨hBlockPairs, hPairs⟩ := hPairs.parts
  obtain ⟨hStatePairs, hPairs⟩ := hPairs.parts
  obtain ⟨hValidatorPairs, hPairs⟩ := hPairs.parts
  obtain ⟨hBalancePairs, hPairs⟩ := hPairs.parts
  obtain ⟨hMixPairs, hPairs⟩ := hPairs.parts
  obtain ⟨hPreviousPairs, hPairs⟩ := hPairs.parts
  obtain ⟨hCurrentPairs, hFinalPairs⟩ := hPairs.parts
  have hFields := containerRoot_inj (by simp only [fieldRoots, List.length_cons]) hTree h
  simp only [fieldRoots, List.cons.injEq, wordChunk_inj] at hFields
  -- The plain fields are settled; the others have roots, each with its own pairs.
  obtain ⟨hTime, hGenesis, hSlot, hFork, hHeader, hBlocks, hStates, hValidators, hBalances, hMixes,
    hPrevious, hCurrent, hFinal, -⟩ := hFields
  have hFork := Fork.treeRoot_binds trivial trivial hForkPairs hFork
  have hHeader := BlockHeader.treeRoot_binds trivial trivial hHeaderPairs hHeader
  have hBlocks := vectorRoot_inj hWithin.blockRoots hWithin'.blockRoots hBlockPairs hBlocks
  have hStates := vectorRoot_inj hWithin.stateRoots hWithin'.stateRoots hStatePairs hStates
  have hValidators := Array.toList_inj.mp <|
    Validator.treeRoot_binds.listRoot_inj (by decide) hWithin.validators hWithin'.validators
      (fun _ _ => trivial) (fun _ _ => trivial) hValidatorPairs hValidators
  have hBalances := Array.toList_inj.mp <|
    wordListRoot_inj (by decide) hWithin.balances hWithin'.balances hBalancePairs hBalances
  have hMixes := vectorRoot_inj hWithin.randaoMixes hWithin'.randaoMixes hMixPairs hMixes
  have hPrevious := Checkpoint.treeRoot_binds trivial trivial hPreviousPairs hPrevious
  have hCurrent := Checkpoint.treeRoot_binds trivial trivial hCurrentPairs hCurrent
  have hFinal := Checkpoint.treeRoot_binds trivial trivial hFinalPairs hFinal
  cases s
  cases s'
  exact (mk.injEq ..).mpr ⟨hTime, hGenesis, hSlot, hFork, hHeader, hBlocks, hStates, hValidators,
    hBalances, hMixes, hPrevious, hCurrent, hFinal⟩

end BeaconState

/-! ## All kinds -/

/-- **Roots bind values**, whatever the hash function is. -/
theorem treeRoots_bind (p : Preset) :
    Binds (fun _ => True) AttestationData.treeRoot AttestationData.pairs ∧
      Binds (fun _ => True) Attestation.treeRoot Attestation.pairs ∧
      Binds (fun b => b.body.Within) Block.treeRoot Block.pairs ∧
      Binds IndexedAttestation.Within IndexedAttestation.treeRoot IndexedAttestation.pairs ∧
      Binds (fun _ => True) Validator.treeRoot Validator.pairs ∧
      Binds (BeaconState.Within p) (BeaconState.treeRoot p) (BeaconState.pairs p) :=
  ⟨AttestationData.treeRoot_binds,
    Attestation.plainRoot_binds.checked fun a _ => a.treeRoot_eq_ok,
    Block.plainRoot_binds.checked Block.treeRoot_eq_ok,
    IndexedAttestation.plainRoot_binds.checked IndexedAttestation.treeRoot_eq_ok,
    Validator.treeRoot_binds,
    BeaconState.plainRoot_binds.checked BeaconState.treeRoot_eq_ok⟩

end

/-- Values of each kind that are told apart by their roots, where the hash of a pair is a remainder.
Most of them are twins whose leaves are the same and whose lists differ in length. -/
theorem treeRoots_bind_twins :
    let hash : HashFunction :=
      ⟨fun bytes => BitVec.ofNat 256 ((bytes.toNat + 1) % (2 ^ 256 - 189))⟩
    let data (slot : Slot) : AttestationData := ⟨slot, 0, 0, default, default⟩
    let vote (bits : AggregationBits) : Attestation := ⟨bits, data 1, 0⟩
    let block (bits : AggregationBits) : Block := ⟨2, 0, 0, 0, ⟨0, 0, [vote bits]⟩⟩
    let indexed (indices : List ValidatorIndex) : IndexedAttestation := ⟨indices, data 1, 0⟩
    let validator (slashed : Bool) : Validator := ⟨0, 0, 0, slashed, 0, 0, 0, 0⟩
    let state (balances : Array UInt64) : BeaconState :=
      ⟨0, 0, 0, default, default, .replicate 64 0, .replicate 64 0, #[], balances,
        .replicate 64 0, default, default, default⟩
    let short : AggregationBits := ⟨[true], by decide⟩
    let long : AggregationBits := ⟨[true, false], by decide⟩
    (CollisionFree ((data 1).pairs ++ (data 2).pairs) ∧ (data 1).treeRoot ≠ (data 2).treeRoot) ∧
      (CollisionFree ((vote short).pairs ++ (vote long).pairs) ∧
        (vote short).treeRoot ≠ (vote long).treeRoot) ∧
      (CollisionFree ((block short).pairs ++ (block long).pairs) ∧
        (block short).treeRoot ≠ (block long).treeRoot) ∧
      (CollisionFree ((indexed [7]).pairs ++ (indexed [7, 0]).pairs) ∧
        (indexed [7]).treeRoot ≠ (indexed [7, 0]).treeRoot) ∧
      (CollisionFree ((validator true).pairs ++ (validator false).pairs) ∧
        (validator true).treeRoot ≠ (validator false).treeRoot) ∧
      (CollisionFree ((state #[0]).pairs .minimal ++ (state #[0, 0]).pairs .minimal) ∧
        (state #[0]).treeRoot .minimal ≠ (state #[0, 0]).treeRoot .minimal) := by
  intro hash data vote block indexed validator state short long
  obtain ⟨hData, hVote, hBlock, hIndexed, hValidator, hState⟩ := treeRoots_bind .minimal
  have hDataPairs : CollisionFree ((data 1).pairs ++ (data 2).pairs) := by
    decide +kernel +zetaReduce
  have hVotePairs : CollisionFree ((vote short).pairs ++ (vote long).pairs) := by
    decide +kernel +zetaReduce
  have hBlockPairs : CollisionFree ((block short).pairs ++ (block long).pairs) := by
    decide +kernel +zetaReduce
  have hIndexedPairs : CollisionFree ((indexed [7]).pairs ++ (indexed [7, 0]).pairs) := by
    decide +kernel +zetaReduce
  have hValidatorPairs : CollisionFree ((validator true).pairs ++ (validator false).pairs) := by
    decide +kernel +zetaReduce
  have hStatePairs :
      CollisionFree ((state #[0]).pairs .minimal ++ (state #[0, 0]).pairs .minimal) := by
    decide +kernel +zetaReduce
  have hWithin : ∀ balances : Array UInt64, balances.size ≤ 2 → (state balances).Within .minimal :=
    fun balances hSize =>
      ⟨Array.size_replicate, Array.size_replicate, Nat.zero_le _, Nat.le_trans hSize (by decide),
        Array.size_replicate⟩
  have hOne : 1 ≤ maxAttestations := by decide
  have hTwo : 2 ≤ maxValidatorsPerCommittee := by decide
  refine ⟨⟨hDataPairs, hData.root_ne trivial trivial hDataPairs ?_⟩,
    ⟨hVotePairs, hVote.root_ne trivial trivial hVotePairs ?_⟩,
    ⟨hBlockPairs, hBlock.root_ne hOne hOne hBlockPairs ?_⟩,
    ⟨hIndexedPairs, hIndexed.root_ne (Nat.le_of_succ_le hTwo) hTwo hIndexedPairs ?_⟩,
    ⟨hValidatorPairs, hValidator.root_ne trivial trivial hValidatorPairs ?_⟩,
    ⟨hStatePairs, hState.root_ne (hWithin _ (by decide)) (hWithin _ (by decide)) hStatePairs ?_⟩⟩
  all_goals decide +kernel +zetaReduce

end ForkChoice
