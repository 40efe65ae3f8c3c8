import Mathlib.Algebra.Group.Nat.Defs
import ForkChoice.Merkle
import ForkChoice.Proofs.Outcome

/-!
# ForkChoice — collections that have roots

A collection has a root if its elements fit into the tree of its type. The trees of the chain have
at most `Merkle.maxDepth` levels, so nothing else can go wrong.

* `treeDepth_le` — the room in a tree;
* `merkleize_eq_ok` — leaves that fit;
* `mixedRoot` — the root of leaves with a length, which all collections of varying length have;
* `vectorRoot_eq_ok`, `listRoot_eq_ok`, `wordListRoot_eq_ok` — the roots of collections that fit,
  and `vectorRoot_defined`, `listRoot_defined`, `wordListRoot_defined` where only that they exist
  matters.
-/

namespace ForkChoice.Merkle

variable {count depth limit : Nat}

theorem treeDepth_le : treeDepth count ≤ depth ↔ count ≤ 2 ^ depth := by
  unfold treeDepth
  split
  · rename_i hSmall
    have hPos : 0 < 2 ^ depth := Nat.two_pow_pos depth
    omega
  · have hLog := Nat.log2_lt (n := count - 1) (k := depth) (by omega)
    omega

theorem le_two_pow_treeDepth (count : Nat) : count ≤ 2 ^ treeDepth count :=
  treeDepth_le.mp (Nat.le_refl _)

/-- No room in a tree of the chain is too great to be counted. -/
theorem depthFor_eq_ok (h : count ≤ 2 ^ maxDepth) : depthFor count = .ok (treeDepth count) := by
  unfold depthFor
  have hBound : 2 ^ maxDepth = 1099511627776 := rfl
  have hSize : UInt64.size = 18446744073709551616 := rfl
  rw [if_pos (by omega)]

theorem flatMap_littleEndian_length (words : List UInt64) :
    (words.flatMap fun word => Bytes.littleEndian 8 word.toNat).length = 8 * words.length := by
  induction words with
  | nil => rfl
  | cons word rest ih =>
    rw [List.flatMap_cons, List.length_append, ih, List.length_cons]
    have hBytes : (Bytes.littleEndian 8 word.toNat).length = 8 := rfl
    omega

theorem length_packBytes (bytes : List UInt8) :
    (packBytes bytes).length = (bytes.length + 31) / 32 := by
  induction bytes using packBytes.induct with
  | case1 => rw [packBytes]; rfl
  | case2 byte rest bytes ih =>
    -- One leaf holds the first 32 bytes, the other leaves hold the rest.
    rw [packBytes, List.length_cons, ih, List.length_drop]
    have hLength : bytes.length = rest.length + 1 := rfl
    show _ = (rest.length + 1 + 31) / 32
    omega

/-- The leaves of words, four of which share one. -/
def wordLeaves (words : List UInt64) : List Root :=
  packBytes (words.flatMap fun word => Bytes.littleEndian 8 word.toNat)

@[simp] theorem length_wordLeaves (words : List UInt64) :
    (wordLeaves words).length = (8 * words.length + 31) / 32 := by
  rw [wordLeaves, length_packBytes, flatMap_littleEndian_length]

section

variable [HashFunction]

/-- Leaves that fit have a root. -/
theorem merkleize_eq_ok {leaves : List Root} (hDepth : depth ≤ maxDepth)
    (hRoom : leaves.length ≤ 2 ^ depth) :
    merkleize leaves depth = .ok (treeRoot leaves depth) := by
  simp only [merkleize, Checked.require, hDepth, treeDepth_le.mpr hRoom, decide_true, if_true]
  rfl

/-- Leaves that a type admits fit into the tree of the type. -/
theorem merkleize_treeDepth_eq_ok {leaves : List Root} (hLimit : limit ≤ 2 ^ maxDepth)
    (hLength : leaves.length ≤ limit) :
    merkleize leaves (treeDepth limit) = .ok (treeRoot leaves (treeDepth limit)) :=
  merkleize_eq_ok (treeDepth_le.mpr hLimit) (Nat.le_trans hLength (le_two_pow_treeDepth limit))

/-! ## Collections -/

/-- The root of leaves, of which there may be as many as `limit`, with a length. -/
def mixedRoot (leaves : List Root) (limit length : Nat) : Root :=
  mixInLength (treeRoot leaves (treeDepth limit)) length

theorem vectorRoot_eq_ok {roots : List Root} (hLimit : limit ≤ 2 ^ maxDepth)
    (hLength : roots.length ≤ limit) :
    vectorRoot roots limit = .ok (treeRoot roots (treeDepth limit)) := by
  rw [vectorRoot, depthFor_eq_ok hLimit, ok_bind, merkleize_treeDepth_eq_ok hLimit hLength]

theorem listRoot_eq_ok {elements : List Root} (hLimit : limit ≤ 2 ^ maxDepth)
    (hLength : elements.length ≤ limit) :
    listRoot elements limit = .ok (mixedRoot elements limit elements.length) := by
  rw [listRoot, depthFor_eq_ok hLimit, ok_bind, merkleize_treeDepth_eq_ok hLimit hLength, ok_bind]
  rfl

theorem wordListRoot_eq_ok {words : List UInt64} (hLimit : (limit * 8 + 31) / 32 ≤ 2 ^ maxDepth)
    (hLength : words.length ≤ limit) :
    wordListRoot words limit =
      .ok (mixedRoot (wordLeaves words) ((limit * 8 + 31) / 32) words.length) := by
  have hBound : 2 ^ maxDepth = 1099511627776 := rfl
  have hSize : UInt64.size = 18446744073709551616 := rfl
  have hLeaves : (wordLeaves words).length ≤ (limit * 8 + 31) / 32 := by
    rw [length_wordLeaves]
    omega
  rw [wordListRoot, if_pos (by omega)]
  show (depthFor ((limit * 8 + 31) / 32) >>= fun depth =>
    merkleize (wordLeaves words) depth >>= fun root => pure (mixInLength root words.length)) = _
  rw [depthFor_eq_ok hLimit, ok_bind, merkleize_treeDepth_eq_ok hLimit hLeaves, ok_bind]
  rfl

theorem vectorRoot_defined (roots : List Root) (hLimit : limit ≤ 2 ^ maxDepth)
    (hLength : roots.length ≤ limit) : ∃ root, vectorRoot roots limit = .ok root :=
  ⟨_, vectorRoot_eq_ok hLimit hLength⟩

theorem listRoot_defined (elements : List Root) (hLimit : limit ≤ 2 ^ maxDepth)
    (hLength : elements.length ≤ limit) : ∃ root, listRoot elements limit = .ok root :=
  ⟨_, listRoot_eq_ok hLimit hLength⟩

theorem wordListRoot_defined (words : List UInt64) (hLimit : limit ≤ 2 ^ maxDepth)
    (hLength : words.length ≤ limit) : ∃ root, wordListRoot words limit = .ok root :=
  ⟨_, wordListRoot_eq_ok (by omega) hLength⟩

end

end ForkChoice.Merkle
