import ForkChoice.Chain.Block
import ForkChoice.Proofs.BitList.Packing
import ForkChoice.Proofs.Merkle.Defined

/-!
# ForkChoice — which blocks have roots

The bits of an attestation are bounded by their type, so attestations always have roots. The
attestations of a block are not: a tree has room for a fixed number of them, and a block with more
has no root. This is the only thing that can go wrong with the root of a block.

* `Merkle.listRoot_eq_error` — a list that does not fit;
* `BitList.leaves`, `BitList.root_eq_ok` — bit lists;
* `Attestation.treeRoot_defined` — attestations;
* `Block.treeRoot_defined`, `Block.treeRoot_eq_error` — blocks with few and with many attestations.
-/

namespace ForkChoice

/-- What is reported of a list that does not fit into its tree. -/
def Fault.crowdedTree : Fault :=
  .violated "assertion failed: depth_for(layer.len()) <= depth"

theorem Merkle.listRoot_eq_error [HashFunction] {elements : List Root} {limit : Nat}
    (hLimit : limit ≤ 2 ^ maxDepth) (hLength : 2 ^ treeDepth limit < elements.length) :
    listRoot elements limit = .error .crowdedTree := by
  have hDepth : treeDepth limit ≤ maxDepth := treeDepth_le.mpr hLimit
  have hCrowded : ¬treeDepth elements.length ≤ treeDepth limit := by
    rw [treeDepth_le]
    omega
  simp only [listRoot, depthFor_eq_ok hLimit, merkleize, Checked.require, hDepth, hCrowded,
    decide_true, decide_false, if_true, ok_bind]
  rfl

/-- A list that has a root fits into its tree. -/
theorem Merkle.length_le_of_listRoot [HashFunction] {elements : List Root} {limit : Nat}
    {root : Root} (hLimit : limit ≤ 2 ^ maxDepth) (h : listRoot elements limit = .ok root) :
    elements.length ≤ 2 ^ treeDepth limit := by
  refine Nat.not_lt.mp fun hLonger => ?_
  rw [listRoot_eq_error hLimit hLonger] at h
  cases h

/-- The leaves of a bit list, each of which holds 256 bits. -/
def BitList.leaves {limit : Nat} (b : BitList limit) : List Root :=
  Merkle.packBytes (BitList.bytesOf b.bits)

theorem BitList.length_leaves {limit : Nat} (b : BitList limit) :
    b.leaves.length = (b.length + 255) / 256 := by
  show (Merkle.packBytes (BitList.bytesOf b.bits)).length = (b.bits.length + 255) / 256
  rw [Merkle.length_packBytes, BitList.length_bytesOf]
  omega

section

variable [HashFunction]

/-- The bits that the type admits fill no more leaves than its tree has room for. -/
theorem BitList.root_eq_ok {limit : Nat} (hLimit : (limit + 255) / 256 ≤ 2 ^ Merkle.maxDepth)
    (b : BitList limit) :
    b.root = .ok (Merkle.mixedRoot b.leaves ((limit + 255) / 256) b.length) := by
  have hLeaves : b.leaves.length ≤ (limit + 255) / 256 := by
    have hBits : b.length ≤ limit := b.length_le
    rw [length_leaves]
    omega
  show (Merkle.depthFor ((limit + 255) / 256) >>= fun depth =>
    Merkle.merkleize b.leaves depth >>= fun tree => pure (Merkle.mixInLength tree b.length)) = _
  rw [Merkle.depthFor_eq_ok hLimit, ok_bind, Merkle.merkleize_treeDepth_eq_ok hLimit hLeaves,
    ok_bind]
  rfl

theorem Attestation.treeRoot_defined (a : Attestation) : ∃ root, a.treeRoot = .ok root := by
  exact ⟨_, by rw [treeRoot, BitList.root_eq_ok (by decide)]; rfl⟩

/-- The roots of some attestations, as many as there are attestations. -/
theorem attestationRoots_defined (attestations : List Attestation) :
    ∃ roots, attestations.mapM Attestation.treeRoot = .ok roots ∧
      roots.length = attestations.length := by
  induction attestations with
  | nil => exact ⟨[], rfl, rfl⟩
  | cons a rest ih =>
    obtain ⟨root, hRoot⟩ := a.treeRoot_defined
    obtain ⟨roots, hRoots, hLength⟩ := ih
    refine ⟨root :: roots, ?_, by rw [List.length_cons, List.length_cons, hLength]⟩
    rw [List.mapM_cons, hRoot, ok_bind, hRoots]
    rfl

namespace Block

variable {b : Block}

theorem header_defined (h : b.body.attestations.length ≤ maxAttestations) :
    ∃ header, b.header = .ok header := by
  have hRoom : maxAttestations ≤ 2 ^ Merkle.maxDepth := by decide
  obtain ⟨roots, hRoots, hLength⟩ := attestationRoots_defined b.body.attestations
  obtain ⟨attestations, hAttestations⟩ := Merkle.listRoot_defined roots hRoom (hLength ▸ h)
  simp only [header, BlockBody.treeRoot, hRoots, hAttestations, ok_bind]
  exact ⟨_, rfl⟩

/-- **Blocks** with at most the greatest number of attestations have roots. -/
theorem treeRoot_defined (h : b.body.attestations.length ≤ maxAttestations) :
    ∃ root, b.treeRoot = .ok root := by
  obtain ⟨header, hHeader⟩ := header_defined h
  exact ⟨header.treeRoot, by rw [treeRoot, hHeader]; rfl⟩

/-- **Blocks** with more attestations have none. -/
theorem treeRoot_eq_error (h : maxAttestations < b.body.attestations.length) :
    b.treeRoot = .error .crowdedTree := by
  have hLimit : maxAttestations ≤ 2 ^ Merkle.maxDepth := by decide
  -- The limit is a power of two, so that the tree has no room beyond it.
  have hFull : 2 ^ Merkle.treeDepth maxAttestations = maxAttestations := by decide
  obtain ⟨roots, hRoots, hLength⟩ := attestationRoots_defined b.body.attestations
  have hError : Merkle.listRoot roots maxAttestations = .error .crowdedTree :=
    Merkle.listRoot_eq_error hLimit (by omega)
  simp only [treeRoot, header, BlockBody.treeRoot, hRoots, hError, ok_bind]
  rfl

end Block

end

end ForkChoice
