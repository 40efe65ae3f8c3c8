import Mathlib.Data.Nat.Log
import ForkChoice.Proofs.BitList.Packing
import ForkChoice.Proofs.Chain.Roots
import ForkChoice.Proofs.Merkle.Complete

/-!
# ForkChoice — roots as SSZ defines them

SSZ defines the root of a value in three steps. The value is turned into leaves of 32 bytes: a
composite value into the roots of its parts, basic values into their bytes, one after the other.
Zeros are added up to the least power of two that has room for the greatest value of the type, and
the leaves are hashed in pairs until one is left. At last the length is mixed in if it may vary.

The definitions here follow these steps and nothing else. They place every byte by its position and
build every zero leaf, where the computation packs as it goes and builds none.

* `Ssz.container`, `Ssz.list`, `Ssz.wordList`, `Ssz.vector`, `Ssz.bitList` — the definitions;
* `packBytes_eq_pack`, `mixInLength_eq`, `treeDepth_eq_clog` — the steps;
* `FollowsSsz`, `followsSsz` — what is computed is what is defined, and nothing that fits is
  refused.
-/

namespace ForkChoice

/-! ## Definitions -/

namespace Ssz

/-- The leaf whose bytes are given by position. -/
def leaf (byte : Nat → UInt8) : Root :=
  BitVec.ofNat 256 (Bytes.toNat ((List.range 32).map byte))

/-- The bytes in leaves of 32, zeros following the last byte. -/
def pack (bytes : List UInt8) : List Root :=
  (List.range ((bytes.length + 31) / 32)).map fun i => leaf fun j => bytes.getD (32 * i + j) 0

/-- The bytes of words: eight for each, the least significant one first. -/
def bytesOfWords (words : List UInt64) : List UInt8 :=
  words.flatMap fun word => (List.range 8).map fun place => UInt8.ofNat (word.toNat / 256 ^ place)

/-- The byte whose bits are given by place. -/
def byteOfBits (bit : Nat → Bool) : UInt8 :=
  UInt8.ofNat ((List.range 8).map fun place => if bit place then 2 ^ place else 0).sum

/-- The bytes of bits: eight bits in each, the first one in the least significant place. -/
def bytesOfBits (bits : List Bool) : List UInt8 :=
  (List.range ((bits.length + 7) / 8)).map fun i =>
    byteOfBits fun place => bits.getD (8 * i + place) false

section

variable [HashFunction]

/-- The root of leaves of which there may be as many as `limit`: the tree has room for the least
power of two that is not below the limit. -/
def root (leaves : List Root) (limit : Nat) : Root :=
  Merkle.completeRoot (Nat.clog 2 limit) leaves

/-- A root with a length, a little-endian number of 32 bytes. -/
def mixInLength (root : Root) (length : Nat) : Root :=
  hashPair root (leaf fun place => UInt8.ofNat (length / 256 ^ place))

/-- The root of a container whose fields have the given roots. -/
def container (fields : List Root) : Root :=
  root fields fields.length

/-- The root of a vector whose elements have the given roots. -/
def vector (elements : List Root) : Root :=
  root elements elements.length

/-- The root of a list of at most `limit` elements with the given roots. -/
def list (elements : List Root) (limit : Nat) : Root :=
  mixInLength (root elements limit) elements.length

/-- The root of a list of at most `limit` words. -/
def wordList (words : List UInt64) (limit : Nat) : Root :=
  mixInLength (root (pack (bytesOfWords words)) ((limit * 8 + 31) / 32)) words.length

/-- The root of a list of at most `limit` bits. -/
def bitList (bits : List Bool) (limit : Nat) : Root :=
  mixInLength (root (pack (bytesOfBits bits)) ((limit + 255) / 256)) bits.length

end

end Ssz

/-! ## Bytes -/

namespace Ssz

theorem bytesOfWords_eq (words : List UInt64) :
    bytesOfWords words = words.flatMap fun word => Bytes.littleEndian 8 word.toNat := by
  simp only [bytesOfWords, Bytes.littleEndian_eq_map]

/-- The number that bits spell is the sum of the powers of two at their places. -/
theorem packed_map_range (count : Nat) (bit : Nat → Bool) :
    BitList.packed ((List.range count).map bit) =
      ((List.range count).map fun place => if bit place then 2 ^ place else 0).sum := by
  induction count with
  | zero => rfl
  | succ count ih =>
    rw [List.range_succ, List.map_append, List.map_append, BitList.packed_append, ih,
      List.sum_append, List.length_map, List.length_range]
    cases hBit : bit count <;> simp [BitList.packed, hBit]

theorem testBit_byteOfBits (bit : Nat → Bool) {place : Nat} (h : place < 8) :
    (byteOfBits bit).toNat.testBit place = bit place := by
  have hPlace : place < ((List.range 8).map bit).length := by
    rw [List.length_map, List.length_range]
    exact h
  rw [byteOfBits, UInt8.toNat_ofNat', Nat.testBit_mod_two_pow, decide_eq_true h, Bool.true_and,
    ← packed_map_range, BitList.testBit_packed, List.getD_eq_getElem _ _ hPlace, List.getElem_map,
    List.getElem_range]

/-- Packing puts the bits where they belong. -/
theorem bytesOfBits_eq (bits : List Bool) : bytesOfBits bits = BitList.bytesOf bits := by
  have hLength : (bytesOfBits bits).length = (bits.length + 7) / 8 := by
    rw [bytesOfBits, List.length_map, List.length_range]
  refine Bytes.ext_bit (hLength.trans (BitList.length_bytesOf bits).symm) fun position => ?_
  rw [BitList.bit_bytesOf]
  by_cases h : position / 8 < (bits.length + 7) / 8
  · have hPosition : 8 * (position / 8) + position % 8 = position := by omega
    rw [Bytes.bit, bytesOfBits, List.getD_eq_getElem?_getD, List.getElem?_map,
      List.getElem?_range h, Option.map_some, Option.getD_some,
      testBit_byteOfBits _ (Nat.mod_lt _ (by decide)), hPosition]
  · have hBeyond : bits.length ≤ position := by omega
    rw [Bytes.bit_eq_false_of_le (by omega), List.getD_eq_default _ _ hBeyond]

/-- A leaf with at most 32 bytes has zeros after them. -/
theorem leaf_eq {bytes : List UInt8} (h : bytes.length ≤ 32) :
    leaf (fun place => bytes.getD place 0) =
      BitVec.ofNat 256 (Bytes.toNat bytes * 256 ^ (32 - bytes.length)) := by
  have hBytes : (List.range 32).map (fun place => bytes.getD place 0) =
      bytes ++ List.replicate (32 - bytes.length) 0 := by
    refine List.ext_getElem ?_ fun place hLeft hRight => ?_
    · rw [List.length_map, List.length_range, List.length_append, List.length_replicate]
      omega
    · rw [List.getElem_map, List.getElem_range]
      by_cases hPlace : place < bytes.length
      · rw [List.getElem_append_left hPlace, List.getD_eq_getElem _ _ hPlace]
      · rw [List.getElem_append_right (by omega), List.getElem_replicate,
          List.getD_eq_default _ _ (by omega)]
  rw [leaf, hBytes, Bytes.toNat_append, Bytes.toNat_replicate_zero, List.length_replicate,
    Nat.add_zero]

/-- The leaves of a string are its first 32 bytes and the leaves of the rest. -/
theorem pack_eq_cons {bytes : List UInt8} (h : bytes ≠ []) :
    pack bytes = leaf (fun j => (bytes.take 32).getD j 0) :: pack (bytes.drop 32) := by
  have hPos : 0 < bytes.length := List.length_pos_iff.mpr h
  have hCount : (bytes.length + 31) / 32 = (bytes.length - 32 + 31) / 32 + 1 := by omega
  have hFirst : (List.range 32).map (fun j => bytes.getD (32 * 0 + j) 0) =
      (List.range 32).map fun j => (bytes.take 32).getD j 0 := by
    refine List.map_congr_left fun j hj => ?_
    have hSmall : j < 32 := List.mem_range.mp hj
    rw [Nat.mul_zero, Nat.zero_add, List.getD_eq_getElem?_getD, List.getD_eq_getElem?_getD,
      List.getElem?_take_of_lt hSmall]
  have hRest : ∀ i j, bytes.getD (32 * (i + 1) + j) 0 = (bytes.drop 32).getD (32 * i + j) 0 := by
    intro i j
    have hPlace : 32 * (i + 1) + j = 32 + (32 * i + j) := by omega
    rw [List.getD_eq_getElem?_getD, List.getD_eq_getElem?_getD, List.getElem?_drop, hPlace]
  rw [pack, hCount, List.range_succ_eq_map, List.map_cons, List.map_map, leaf, hFirst, pack,
    List.length_drop]
  refine congrArg _ (List.map_congr_left fun i _ => ?_)
  show leaf (fun j => bytes.getD (32 * (i + 1) + j) 0) = _
  simp only [hRest]

end Ssz

namespace Merkle

/-- **Leaves** are packed as they should be. -/
theorem packBytes_eq_pack (bytes : List UInt8) : packBytes bytes = Ssz.pack bytes := by
  induction bytes using packBytes.induct with
  | case1 => rw [packBytes]; rfl
  | case2 byte rest bytes ih =>
    have hShort : (bytes.take 32).length ≤ 32 := by
      rw [List.length_take]
      omega
    have hPower : 2 ^ (8 * (32 - (bytes.take 32).length)) =
        256 ^ (32 - (bytes.take 32).length) := Nat.pow_mul 2 8 _
    rw [packBytes, Ssz.pack_eq_cons (List.cons_ne_nil byte rest), ih, Ssz.leaf_eq hShort,
      Nat.shiftLeft_eq, hPower]

/-- The least depth of a tree is a logarithm. -/
theorem treeDepth_eq_clog (count : Nat) : treeDepth count = Nat.clog 2 count := by
  refine Nat.le_antisymm (treeDepth_le.mpr (Nat.le_pow_clog (by decide) count)) ?_
  exact Nat.clog_le_of_le_pow (le_two_pow_treeDepth count)

/-- A length that is a word is a leaf with zeros after its eight bytes. -/
theorem wordChunk_eq {length : Nat} (h : length < UInt64.size) :
    wordChunk (UInt64.ofNat length) =
      Ssz.leaf fun place => UInt8.ofNat (length / 256 ^ place) := by
  have hWord : (UInt64.ofNat length).toNat = length := UInt64.toNat_ofNat_of_lt' h
  have hSplit : (List.range 32).map (fun place => UInt8.ofNat (length / 256 ^ place)) =
      Bytes.littleEndian 8 length ++ List.replicate 24 0 := by
    -- The first eight places hold the word; beyond them the quotient is zero.
    have hPlaces : List.range 32 = List.range 8 ++ (List.range 24).map (8 + ·) := by decide
    rw [hPlaces, List.map_append, List.map_map, ← Bytes.littleEndian_eq_map]
    congr 1
    refine List.eq_replicate_iff.mpr ⟨rfl, fun byte hByte => ?_⟩
    obtain ⟨place, -, rfl⟩ := List.mem_map.mp hByte
    have hGreater : UInt64.size ≤ 256 ^ (8 + place) := by
      rw [Nat.pow_add]
      exact Nat.le_mul_of_pos_right _ (Nat.pow_pos (by decide))
    rw [Function.comp_apply, Nat.div_eq_of_lt (Nat.lt_of_lt_of_le h hGreater)]
    rfl
  have hBytes : Bytes.toNat (Bytes.littleEndian 8 length) < 2 ^ 64 := by
    have hLess := Bytes.toNat_lt (Bytes.littleEndian 8 length)
    rwa [Bytes.length_littleEndian] at hLess
  have hPower : 2 ^ 192 = 256 ^ 24 := rfl
  refine BitVec.eq_of_toNat_eq ?_
  rw [Ssz.leaf, hSplit, Bytes.toNat_append, Bytes.toNat_replicate_zero, List.length_replicate,
    wordChunk, wordBytes, hWord, BitVec.toNat_append, BitVec.toNat_ofNat, BitVec.toNat_ofNat,
    Nat.mod_eq_of_lt hBytes, BitVec.toNat_ofNat, Nat.zero_mod, Nat.or_zero, Nat.shiftLeft_eq,
    Nat.add_zero, ← hPower, Nat.mod_eq_of_lt (by omega)]

variable [HashFunction] {limit : Nat}

theorem mixInLength_eq {length : Nat} (root : Root) (h : length < UInt64.size) :
    mixInLength root length = Ssz.mixInLength root length := by
  rw [mixInLength, Ssz.mixInLength, wordChunk_eq h]

/-- The tree of a type has the root that SSZ defines. -/
theorem treeRoot_treeDepth (leaves : List Root) (limit : Nat) :
    treeRoot leaves (treeDepth limit) = Ssz.root leaves limit := by
  rw [treeRoot_eq_completeRoot, Ssz.root, treeDepth_eq_clog]

theorem mixedRoot_eq {length : Nat} (leaves : List Root) (h : length < UInt64.size) :
    mixedRoot leaves limit length = Ssz.mixInLength (Ssz.root leaves limit) length := by
  rw [mixedRoot, mixInLength_eq _ h, treeRoot_treeDepth]

/-! ## Collections -/

omit [HashFunction] in
/-- Leaves for which a tree of forty levels is deep enough fit into such a tree. -/
theorem le_of_clog_le {count : Nat} (h : Nat.clog 2 count ≤ 40) : count ≤ 2 ^ maxDepth := by
  rw [← treeDepth_eq_clog] at h
  exact treeDepth_le.mp h

omit [HashFunction] in
/-- What fits into such a tree can be counted by a word. -/
theorem two_pow_maxDepth_lt : 256 * 2 ^ maxDepth < UInt64.size := by
  decide

theorem containerRoot_eq (fields : List Root) : containerRoot fields = Ssz.container fields :=
  treeRoot_treeDepth fields fields.length

theorem vectorRoot_eq {elements : List Root} (hLimit : Nat.clog 2 elements.length ≤ 40) :
    vectorRoot elements elements.length = .ok (Ssz.vector elements) := by
  rw [vectorRoot_eq_ok (le_of_clog_le hLimit) (Nat.le_refl _), treeRoot_treeDepth, Ssz.vector]

theorem listRoot_eq {elements : List Root} (hLimit : Nat.clog 2 limit ≤ 40)
    (hLength : elements.length ≤ limit) :
    listRoot elements limit = .ok (Ssz.list elements limit) := by
  have hBound := le_of_clog_le hLimit
  have hWord := two_pow_maxDepth_lt
  rw [listRoot_eq_ok hBound hLength, mixedRoot_eq _ (by omega), Ssz.list]

theorem wordListRoot_eq {words : List UInt64}
    (hLimit : Nat.clog 2 ((limit * 8 + 31) / 32) ≤ 40) (hLength : words.length ≤ limit) :
    wordListRoot words limit = .ok (Ssz.wordList words limit) := by
  have hBound := le_of_clog_le hLimit
  have hWord := two_pow_maxDepth_lt
  rw [wordListRoot_eq_ok hBound hLength, mixedRoot_eq _ (by omega), wordLeaves, packBytes_eq_pack,
    ← Ssz.bytesOfWords_eq, Ssz.wordList]

end Merkle

open Merkle in
/-- **Bit lists** have roots, since their type bounds their length. -/
theorem BitList.root_eq [HashFunction] {limit : Nat}
    (hLimit : Nat.clog 2 ((limit + 255) / 256) ≤ 40) (b : BitList limit) :
    b.root = .ok (Ssz.bitList b.bits limit) := by
  have hBound := le_of_clog_le hLimit
  have hWord := two_pow_maxDepth_lt
  have hBits : b.length ≤ limit := b.length_le
  rw [b.root_eq_ok hBound, mixedRoot_eq _ (by omega), BitList.leaves, packBytes_eq_pack,
    ← Ssz.bytesOfBits_eq]
  rfl

/-! ## All roots -/

open Merkle in
/-- Roots are those that SSZ defines, as far as trees have at most forty levels. -/
structure FollowsSsz [HashFunction] : Prop where
  /-- Leaves that fit have the root of the complete tree. -/
  complete : ∀ (depth : Nat) (leaves : List Root), depth ≤ 40 ∧ leaves.length ≤ 2 ^ depth →
    merkleize leaves depth = .ok (completeRoot depth leaves)
  /-- All others are a fault. -/
  refused : ∀ (depth : Nat) (leaves : List Root), ¬(depth ≤ 40 ∧ leaves.length ≤ 2 ^ depth) →
    ∃ statement, merkleize leaves depth = .error (.violated statement)
  /-- Containers are not checked for room, since they have it. -/
  container : ∀ fields : List Root, Nat.clog 2 fields.length ≤ 40 →
    merkleize fields (treeDepth fields.length) = .ok (containerRoot fields) ∧
      containerRoot fields = Ssz.container fields
  list : ∀ (elements : List Root) (limit : Nat), Nat.clog 2 limit ≤ 40 →
    elements.length ≤ limit → listRoot elements limit = .ok (Ssz.list elements limit)
  wordList : ∀ (words : List UInt64) (limit : Nat), Nat.clog 2 ((limit * 8 + 31) / 32) ≤ 40 →
    words.length ≤ limit → wordListRoot words limit = .ok (Ssz.wordList words limit)
  vector : ∀ (elements : List Root) (length : Nat), Nat.clog 2 length ≤ 40 →
    elements.length = length → vectorRoot elements length = .ok (Ssz.vector elements)
  /-- Bit lists, however they have been made, are within their limit and have roots. -/
  bitList : ∀ (limit : Nat) (b : BitList limit), Nat.clog 2 ((limit + 255) / 256) ≤ 40 →
    b.root = .ok (Ssz.bitList b.bits limit)

open Merkle in
/-- **Roots follow SSZ.** -/
theorem followsSsz [HashFunction] : FollowsSsz where
  complete := fun _ _ h => merkleize_eq h.1 h.2
  refused := fun _ _ h => merkleize_eq_error h
  container := fun fields h => by
    refine ⟨?_, containerRoot_eq fields⟩
    exact merkleize_treeDepth_eq_ok (le_of_clog_le h) (Nat.le_refl _)
  list := fun _ _ hLimit hLength => listRoot_eq hLimit hLength
  wordList := fun _ _ hLimit hLength => wordListRoot_eq hLimit hLength
  vector := fun elements length hLimit hLength => by
    subst hLength
    exact vectorRoot_eq hLimit
  bitList := fun _ b hLimit => b.root_eq hLimit

/-- Three bits in a tree of two leaves, and three leaves that do not fit into such a tree. -/
theorem followsSsz_of_threeBits :
    let _ : HashFunction := ⟨fun message => message.setWidth 256⟩
    (Nat.clog 2 ((300 + 255) / 256) ≤ 40 ∧
      (⟨[true, false, true], by decide⟩ : BitList 300).root =
        .ok (Ssz.bitList [true, false, true] 300)) ∧
      (¬(1 ≤ 40 ∧ [(1 : Root), 2, 3].length ≤ 2 ^ 1) ∧
        ∃ statement, Merkle.merkleize [1, 2, 3] 1 = .error (.violated statement)) := by
  intro hash
  have hDepth : Nat.clog 2 ((300 + 255) / 256) ≤ 40 := by
    rw [← Merkle.treeDepth_eq_clog]
    decide
  have hCrowded : ¬(1 ≤ 40 ∧ [(1 : Root), 2, 3].length ≤ 2 ^ 1) := by decide
  exact ⟨⟨hDepth, followsSsz.bitList 300 ⟨[true, false, true], by decide⟩ hDepth⟩,
    hCrowded, followsSsz.refused 1 [1, 2, 3] hCrowded⟩

end ForkChoice
