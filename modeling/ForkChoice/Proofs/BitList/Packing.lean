import Mathlib.Data.List.GetD
import ForkChoice.BitList
import ForkChoice.Proofs.Bytes

/-!
# ForkChoice — bits in bytes

The bits of a list are packed into bytes, least significant bit of the first byte first, and what is
left of the last byte is zero. Everything about packing follows from what stands at each position:
position `i` of a byte string is bit `i % 8` of byte `i / 8`.

* `Bytes.bit` — the bit at a position of a byte string, `Bytes.ext_bit` — strings of one length are
  told apart by their bits;
* `bit_bytesOf`, `getD_bitsOf` — packing and unpacking leave every bit at its position;
* `bitsOf_bytesOf` — what is packed and unpacked again, with zeros after it;
* `bytesOf_inj` — lists of one length are told apart by their bytes.
-/

namespace ForkChoice

/-- Nothing changes if what stands for missing elements is added at the end. -/
theorem getD_append_replicate {α : Type} (elements : List α) (count position : Nat) (missing : α) :
    (elements ++ List.replicate count missing).getD position missing =
      elements.getD position missing := by
  simp only [List.getD_eq_getElem?_getD, List.getElem?_append]
  split
  · rfl
  · rename_i h
    rw [List.getElem?_eq_none (Nat.not_lt.mp h), List.getElem?_replicate]
    split <;> rfl

/-! ## Bits of byte strings -/

namespace Bytes

variable {bytes bytes' : List UInt8} {count n position : Nat}

/-- The bit at a position, counted from the least significant bit of the first byte; there are only
zeros after the last byte. -/
def bit (bytes : List UInt8) (position : Nat) : Bool :=
  (bytes.getD (position / 8) 0).toNat.testBit (position % 8)

theorem bit_eq_false_of_le (h : 8 * bytes.length ≤ position) : bit bytes position = false := by
  have hBeyond : bytes.length ≤ position / 8 := by omega
  rw [bit, List.getD_eq_getElem?_getD, List.getElem?_eq_none hBeyond]
  exact Nat.zero_testBit _

theorem bit_cons_of_lt (byte : UInt8) (rest : List UInt8) (h : position < 8) :
    bit (byte :: rest) position = byte.toNat.testBit position := by
  rw [bit, Nat.div_eq_of_lt h, Nat.mod_eq_of_lt h]
  rfl

theorem bit_cons_add (byte : UInt8) (rest : List UInt8) (position : Nat) :
    bit (byte :: rest) (position + 8) = bit rest position := by
  have hByte : (position + 8) / 8 = position / 8 + 1 := by omega
  have hPlace : (position + 8) % 8 = position % 8 := by omega
  rw [bit, bit, hByte, hPlace]
  rfl

/-- Byte strings of one length with the same bits are the same. -/
theorem ext_bit (hLength : bytes.length = bytes'.length)
    (h : ∀ position, bit bytes position = bit bytes' position) : bytes = bytes' := by
  induction bytes generalizing bytes' with
  | nil => exact (List.eq_nil_of_length_eq_zero hLength.symm).symm
  | cons byte rest ih =>
    cases bytes' with
    | nil => cases hLength
    | cons byte' rest' =>
      have hByte : byte.toNat = byte'.toNat := by
        refine Nat.eq_of_testBit_eq fun place => ?_
        by_cases hPlace : place < 8
        · have hBit := h place
          rwa [bit_cons_of_lt _ _ hPlace, bit_cons_of_lt _ _ hPlace] at hBit
        · -- A byte has no more than eight bits.
          have hRoom : 2 ^ 8 ≤ 2 ^ place := Nat.pow_le_pow_right (by decide) (by omega)
          rw [Nat.testBit_lt_two_pow (Nat.lt_of_lt_of_le byte.toNat_lt hRoom),
            Nat.testBit_lt_two_pow (Nat.lt_of_lt_of_le byte'.toNat_lt hRoom)]
      have hRest : rest = rest' := by
        refine ih (Nat.succ.inj hLength) fun position => ?_
        have hBit := h (position + 8)
        rwa [bit_cons_add, bit_cons_add] at hBit
      rw [UInt8.toNat_inj.mp hByte, hRest]

theorem bit_append_zeros (bytes : List UInt8) (count position : Nat) :
    bit (bytes ++ List.replicate count 0) position = bit bytes position := by
  rw [bit, bit, getD_append_replicate]

/-- The bits of a number are those of its digits. -/
theorem bit_littleEndian (h : position < 8 * count) :
    bit (littleEndian count n) position = n.testBit position := by
  have hByte : position / 8 < count := by omega
  have hPower : 256 ^ (position / 8) = 2 ^ (8 * (position / 8)) := by
    rw [Nat.pow_mul]
  have hPlace : position % 8 + 8 * (position / 8) = position := by omega
  have hSmall : decide (position % 8 < 8) = true := decide_eq_true (by omega)
  rw [bit, littleEndian_eq_map, List.getD_eq_getElem?_getD, List.getElem?_map,
    List.getElem?_range hByte, Option.map_some, Option.getD_some, UInt8.toNat_ofNat',
    Nat.testBit_mod_two_pow, hSmall, Bool.true_and, hPower, Nat.testBit_div_two_pow, hPlace]

end Bytes

/-! ## Packing -/

namespace BitList

variable {bits bits' : List Bool}

theorem packed_append (bits bits' : List Bool) :
    packed (bits ++ bits') = packed bits + 2 ^ bits.length * packed bits' := by
  induction bits with
  | nil => simp [packed]
  | cons bit rest ih =>
    rw [List.cons_append, packed, packed, ih, List.length_cons]
    ring

/-- The number has the bits of the list at their positions. -/
theorem testBit_packed (bits : List Bool) (position : Nat) :
    (packed bits).testBit position = bits.getD position false := by
  induction bits generalizing position with
  | nil => exact Nat.zero_testBit position
  | cons bit rest ih =>
    have hBit : bit.toNat ≤ 1 := Bool.toNat_le bit
    cases position with
    | zero =>
      rw [packed, Nat.testBit_zero, List.getD_cons_zero]
      cases bit <;> simp
    | succ position =>
      have hHalf : (bit.toNat + 2 * packed rest) / 2 = packed rest := by omega
      rw [packed, Nat.testBit_add_one, hHalf, ih, List.getD_cons_succ]

/-- The bytes have the bits of the list at their positions, and zeros after them. -/
theorem bit_bytesOf (bits : List Bool) (position : Nat) :
    Bytes.bit (bytesOf bits) position = bits.getD position false := by
  by_cases h : position < 8 * ((bits.length + 7) / 8)
  · rw [bytesOf, Bytes.bit_littleEndian h, testBit_packed]
  · have hBeyond : bits.length ≤ position := by omega
    rw [Bytes.bit_eq_false_of_le, List.getD_eq_default _ _ hBeyond]
    rw [bytesOf, Bytes.length_littleEndian]
    omega

@[simp] theorem length_bytesOf (bits : List Bool) :
    (bytesOf bits).length = (bits.length + 7) / 8 :=
  Bytes.length_littleEndian _ _

/-- Two lists of one length have the same bits if they have the same bit everywhere. -/
theorem ext_getD (hLength : bits.length = bits'.length)
    (h : ∀ position, bits.getD position false = bits'.getD position false) : bits = bits' := by
  refine List.ext_getElem hLength fun position hLeft hRight => ?_
  have hBit := h position
  rwa [List.getD_eq_getElem _ _ hLeft, List.getD_eq_getElem _ _ hRight] at hBit

/-- Lists of one length are told apart by their bytes. -/
theorem bytesOf_inj (hLength : bits.length = bits'.length) (h : bytesOf bits = bytesOf bits') :
    bits = bits' := by
  refine ext_getD hLength fun position => ?_
  rw [← bit_bytesOf, ← bit_bytesOf, h]

/-! ## Unpacking -/

@[simp] theorem length_unpacked (count n : Nat) : (unpacked count n).length = count := by
  induction count generalizing n with
  | zero => rfl
  | succ count ih => rw [unpacked, List.length_cons, ih]

theorem getD_unpacked {count position : Nat} (n : Nat) (h : position < count) :
    (unpacked count n).getD position false = n.testBit position := by
  induction count generalizing n position with
  | zero => omega
  | succ count ih =>
    cases position with
    | zero =>
      rw [unpacked, List.getD_cons_zero, Nat.testBit_zero]
      rfl
    | succ position =>
      rw [unpacked, List.getD_cons_succ, ih _ (by omega), Nat.testBit_add_one]

theorem bitsOf_cons (byte : UInt8) (rest : List UInt8) :
    bitsOf (byte :: rest) = unpacked 8 byte.toNat ++ bitsOf rest :=
  List.flatMap_cons

@[simp] theorem length_bitsOf (bytes : List UInt8) : (bitsOf bytes).length = 8 * bytes.length := by
  induction bytes with
  | nil => rfl
  | cons byte rest ih =>
    rw [bitsOf_cons, List.length_append, length_unpacked, ih, List.length_cons]
    omega

/-- The bits of a byte string come in the order of their positions. -/
theorem getD_bitsOf (bytes : List UInt8) (position : Nat) :
    (bitsOf bytes).getD position false = Bytes.bit bytes position := by
  induction bytes generalizing position with
  | nil => exact (Bytes.bit_eq_false_of_le (Nat.zero_le _)).symm
  | cons byte rest ih =>
    rw [bitsOf_cons]
    by_cases h : position < 8
    · rw [List.getD_append _ _ _ _ (by rw [length_unpacked]; exact h), getD_unpacked _ h,
        Bytes.bit_cons_of_lt _ _ h]
    · obtain ⟨later, rfl⟩ : ∃ later, position = later + 8 := ⟨position - 8, by omega⟩
      rw [List.getD_append_right _ _ _ _ (by rw [length_unpacked]; omega), length_unpacked,
        Nat.add_sub_cancel, ih, Bytes.bit_cons_add]

/-- **Packing** loses nothing but adds zeros up to the end of the last byte. -/
theorem bitsOf_bytesOf (bits : List Bool) :
    bitsOf (bytesOf bits) =
      bits ++ List.replicate (8 * ((bits.length + 7) / 8) - bits.length) false := by
  refine ext_getD ?_ fun position => ?_
  · rw [length_bitsOf, length_bytesOf, List.length_append, List.length_replicate]
    omega
  · rw [getD_bitsOf, bit_bytesOf, getD_append_replicate]

end BitList

end ForkChoice
