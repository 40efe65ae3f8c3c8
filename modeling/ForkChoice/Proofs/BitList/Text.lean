import Mathlib.Data.List.DropRight
import ForkChoice.Proofs.BitList.Packing
import ForkChoice.Proofs.Hex

/-!
# ForkChoice — the text of bit lists

The text of a bit list is a byte string in hexadecimal. Its last bit that is set, the delimiter,
tells where the list ends, so that a list and the same list with a zero after it have different
texts. The converse does not hold: digits come in two cases, the mark in front may be missing, and
zero bytes may follow the delimiter. A text that is read and written again loses these differences.

The argument follows the bytes. What is read is whatever stands below the delimiter, since packing
leaves every bit at its position; what is written ends with the byte of the delimiter, which is not
zero.

* `Bytes.LastSet` — where the delimiter is;
* `beforeDelimiter_bitsOf` — the bits below it;
* `ofHex_eq_ok`, `ofHex_toHex` — reading, and reading what has been written;
* `bytesOf_eq_rdropWhile` — writing what has been read;
* `FollowsGrammar`, `followsGrammar` — which texts are read and what becomes of them.
-/

namespace ForkChoice

namespace Bytes

variable {bytes : List UInt8} {position : Nat}

/-- The last bit that is set is at a position. -/
structure LastSet (bytes : List UInt8) (position : Nat) : Prop where
  set : bit bytes position = true
  last : ∀ later, position < later → bit bytes later = false

theorem LastSet.unique {other : Nat} (h : LastSet bytes position) (hOther : LastSet bytes other) :
    position = other := by
  rcases Nat.lt_trichotomy position other with hBefore | hSame | hAfter
  · cases (h.last other hBefore).symm.trans hOther.set
  · exact hSame
  · cases (hOther.last position hAfter).symm.trans h.set

end Bytes

namespace BitList

variable {limit : Nat} {bits front : List Bool} {bytes : List UInt8}

/-! ## The delimiter -/

theorem beforeDelimiter_concat_true (bits : List Bool) :
    beforeDelimiter (bits ++ [true]) = some bits := by
  simp [beforeDelimiter]

theorem beforeDelimiter_concat_false (bits : List Bool) :
    beforeDelimiter (bits ++ [false]) = beforeDelimiter bits := by
  simp [beforeDelimiter]

theorem beforeDelimiter_append_zeros (bits : List Bool) (count : Nat) :
    beforeDelimiter (bits ++ List.replicate count false) = beforeDelimiter bits := by
  induction count with
  | zero => rw [List.replicate_zero, List.append_nil]
  | succ count ih =>
    rw [List.replicate_succ', ← List.append_assoc, beforeDelimiter_concat_false, ih]

/-- The delimiter is followed by zeros only. -/
theorem beforeDelimiter_eq_some :
    beforeDelimiter bits = some front ↔
      ∃ count, bits = front ++ [true] ++ List.replicate count false := by
  constructor
  · intro h
    induction bits using List.reverseRecOn with
    | nil => cases h
    | append_singleton bits bit ih =>
      cases bit with
      | false =>
        rw [beforeDelimiter_concat_false] at h
        obtain ⟨count, hBits⟩ := ih h
        exact ⟨count + 1, by rw [hBits, List.replicate_succ', List.append_assoc]⟩
      | true =>
        rw [beforeDelimiter_concat_true, Option.some.injEq] at h
        exact ⟨0, by rw [h, List.replicate_zero, List.append_nil]⟩
  · rintro ⟨count, rfl⟩
    rw [beforeDelimiter_append_zeros, beforeDelimiter_concat_true]

/-- Below the delimiter stand the bits, and nothing is set above it. -/
theorem getD_delimited (front : List Bool) (count position : Nat) :
    (front ++ [true] ++ List.replicate count false).getD position false =
      if position < front.length then front.getD position false
      else decide (position = front.length) := by
  rw [getD_append_replicate]
  split
  · rename_i h
    rw [List.getD_append _ _ _ _ h]
  · rename_i h
    rw [List.getD_append_right _ _ _ _ (Nat.not_lt.mp h)]
    by_cases hDelimiter : position = front.length
    · simp [hDelimiter]
    · rw [List.getD_eq_default _ _ (by rw [List.length_singleton]; omega),
        decide_eq_false hDelimiter]

/-- **The delimiter** of bytes is the last bit that is set, and the bits are those below it. -/
theorem beforeDelimiter_bitsOf :
    beforeDelimiter (bitsOf bytes) = some front ↔
      Bytes.LastSet bytes front.length ∧
        ∀ position < front.length, front.getD position false = Bytes.bit bytes position := by
  rw [beforeDelimiter_eq_some]
  constructor
  · rintro ⟨count, hBits⟩
    have hBit : ∀ position, Bytes.bit bytes position =
        if position < front.length then front.getD position false
        else decide (position = front.length) := fun position => by
      rw [← getD_bitsOf, hBits, getD_delimited]
    refine ⟨⟨by simp [hBit], fun later hLater => ?_⟩, fun position h => by rw [hBit, if_pos h]⟩
    rw [hBit, if_neg (by omega)]
    exact decide_eq_false (by omega)
  · rintro ⟨hLast, hBelow⟩
    -- The delimiter stands within the bytes, and as many zeros follow it as there is room.
    have hRoom : front.length < 8 * bytes.length := Nat.not_le.mp fun hBeyond => by
      have hSet := hLast.set
      rw [Bytes.bit_eq_false_of_le hBeyond] at hSet
      cases hSet
    refine ⟨8 * bytes.length - front.length - 1, ext_getD ?_ fun position => ?_⟩
    · simp only [length_bitsOf, List.length_append, List.length_replicate, List.length_singleton]
      omega
    · rw [getD_bitsOf, getD_delimited]
      split
      · rename_i h
        exact (hBelow position h).symm
      · by_cases hDelimiter : position = front.length
        · rw [hDelimiter, hLast.set]
          simp
        · rw [hLast.last position (by omega), decide_eq_false hDelimiter]

/-! ## Reading -/

/-- The loop puts the bytes that it has passed in front of those to come. -/
theorem toList_loop (bytes : ByteArray) (i : Nat) (passed : List UInt8) :
    ByteArray.toList.loop bytes i passed = passed.reverse ++ bytes.data.toList.drop i := by
  have hSize : bytes.size = bytes.data.toList.length := rfl
  fun_induction ByteArray.toList.loop bytes i passed with
  | case1 i passed hMore ih =>
    have hByte : bytes.get! i = bytes.data.toList[i] := by
      show bytes.data[i]! = bytes.data.toList[i]
      rw [getElem!_pos bytes.data i hMore]
      rfl
    have hRest : bytes.data.toList.drop i =
        bytes.data.toList[i] :: bytes.data.toList.drop (i + 1) :=
      List.drop_eq_getElem_cons (hSize ▸ hMore)
    rw [ih, hByte, hRest, List.reverse_cons, List.append_assoc, List.singleton_append]
  | case2 i passed hEnd => rw [List.drop_eq_nil_of_le (by omega), List.append_nil]

/-- Each of the first 128 characters is a byte in UTF-8. -/
theorem toUTF8_toList {text : List Char} (h : ∀ c ∈ text, c.toNat < 128) :
    (String.ofList text).toUTF8.toList = text.map fun c => UInt8.ofNat c.toNat := by
  show ByteArray.toList.loop (String.ofList text).toByteArray 0 [] = _
  rw [String.toByteArray_ofList, toList_loop, List.utf8Encode, List.toList_data_toByteArray,
    List.drop_zero, List.reverse_nil, List.nil_append]
  induction text with
  | nil => rfl
  | cons c rest ih =>
    rw [List.forall_mem_cons] at h
    have hByte : String.utf8EncodeChar c = [UInt8.ofNat c.toNat] := by
      have hSmall : c.val.toNat ≤ 127 := Nat.le_of_lt_succ h.1
      rw [String.utf8EncodeChar, if_pos hSmall]
      rfl
    rw [List.flatMap_cons, hByte, ih h.2]
    rfl

/-- Nothing is wrong with digits. -/
theorem firstInvalid?_eq_none {text : List Char} (h : ∀ c ∈ text, c ∈ Hex.alphabet)
    (position : Nat) : firstInvalid? position (text.map fun c => UInt8.ofNat c.toNat) = none := by
  induction text generalizing position with
  | nil => rfl
  | cons c rest ih =>
    rw [List.forall_mem_cons] at h
    have hByte : (UInt8.ofNat c.toNat).toNat = c.toNat :=
      UInt8.toNat_ofNat_of_lt' (Nat.lt_trans (Hex.lt_of_mem_alphabet h.1) (by decide))
    have hChar : (Hex.value? (Char.ofNat (UInt8.ofNat c.toNat).toNat)).isSome := by
      rw [hByte, Char.ofNat_toNat]
      exact Hex.mem_alphabet.mp h.1
    rw [List.map_cons, firstInvalid?, if_pos hChar, ih h.2]

/-- Bits make a list if the type admits as many. -/
theorem ofBits_eq_ok {b : BitList limit} : ofBits bits = .ok b ↔ bits = b.bits := by
  unfold ofBits
  constructor
  · intro h
    split at h
    · cases h
      rfl
    · cases h
  · rintro rfl
    exact dif_pos b.length_le

/-- **Reading** gives the bits below the delimiter of the bytes that the digits spell, if the type
admits as many. -/
theorem ofDigits_eq_ok {digits : List Char} {b : BitList limit} :
    ofDigits digits = .ok b ↔
      ∃ bytes, Hex.Spells digits bytes ∧ beforeDelimiter (bitsOf bytes) = some b.bits := by
  simp only [← Hex.decode_eq_some]
  constructor
  · intro h
    simp only [ofDigits] at h
    split at h
    · cases h
    split at h
    · cases h
    split at h
    · cases h
    rename_i bits hBits
    obtain ⟨bytes, hBytes, hFront⟩ := Option.bind_eq_some_iff.mp hBits
    split at h
    · rename_i b' hOk
      cases h
      exact ⟨bytes, hBytes, ofBits_eq_ok.mp hOk ▸ hFront⟩
    · cases h
  · rintro ⟨bytes, hBytes, hFront⟩
    -- Digits are one byte each in UTF-8, so the checks in front of the decoding pass.
    obtain ⟨hEven, hDigits⟩ := Hex.exists_spells.mp ⟨bytes, Hex.decode_eq_some.mp hBytes⟩
    have hUtf8 := toUTF8_toList fun c hc => Hex.lt_of_mem_alphabet (hDigits c hc)
    have hBits : (Hex.decode digits).bind (fun bytes => beforeDelimiter (bitsOf bytes)) =
        some b.bits := by
      rw [hBytes]
      exact hFront
    have hList : ofBits b.bits = .ok b := ofBits_eq_ok.mpr rfl
    simp only [ofDigits, hUtf8, List.length_map, hEven, firstInvalid?_eq_none hDigits, hBits, hList]
    rfl

theorem ofHex_eq_ok {text : String} {b : BitList limit} :
    ofHex text = .ok b ↔
      ∃ bytes, Hex.Spells (Hex.stripMark text.toList) bytes ∧
        beforeDelimiter (bitsOf bytes) = some b.bits :=
  ofDigits_eq_ok

/-- Bits below a delimiter make a bit list if the type admits as many. -/
theorem exists_ofHex_eq_ok {text : String} :
    (∃ b : BitList limit, ofHex text = .ok b) ↔
      ∃ bytes, Hex.Spells (Hex.stripMark text.toList) bytes ∧
        ∃ position ≤ limit, Bytes.LastSet bytes position := by
  constructor
  · rintro ⟨b, hOk⟩
    obtain ⟨bytes, hSpells, hFront⟩ := ofHex_eq_ok.mp hOk
    exact ⟨bytes, hSpells, b.length, b.length_le, (beforeDelimiter_bitsOf.mp hFront).1⟩
  · rintro ⟨bytes, hSpells, position, hLimit, hLast⟩
    let bits := (List.range position).map (Bytes.bit bytes)
    have hLength : bits.length = position := by
      rw [List.length_map, List.length_range]
    refine ⟨⟨bits, hLength.trans_le hLimit⟩, ofHex_eq_ok.mpr ⟨bytes, hSpells, ?_⟩⟩
    refine beforeDelimiter_bitsOf.mpr ⟨hLength.symm ▸ hLast, fun i hi => ?_⟩
    rw [List.getD_eq_getElem _ _ hi, List.getElem_map, List.getElem_range]

/-! ## Writing -/

theorem stripMark_toHex (b : BitList limit) :
    Hex.stripMark b.toHex.toList = Hex.encode (bytesOf (b.bits ++ [true])) := by
  rw [toHex, Hex.ofBytes, String.toList_ofList]
  rfl

/-- **What has been written** is read. -/
theorem ofHex_toHex (b : BitList limit) : ofHex b.toHex = .ok b := by
  refine ofHex_eq_ok.mpr ⟨bytesOf (b.bits ++ [true]), ?_, ?_⟩
  · rw [stripMark_toHex]
    exact Hex.spells_encode _
  · rw [bitsOf_bytesOf, beforeDelimiter_append_zeros, beforeDelimiter_concat_true]

/-- The last byte holds the delimiter, so it is not zero. -/
theorem rdropWhile_bytesOf (bits : List Bool) :
    (bytesOf (bits ++ [true])).rdropWhile (· = 0) = bytesOf (bits ++ [true]) := by
  rw [List.rdropWhile_eq_self_iff]
  intro hNonempty hLast
  have hZero : (bytesOf (bits ++ [true])).getLast hNonempty = 0 := of_decide_eq_true hLast
  have hLength : (bytesOf (bits ++ [true])).length = bits.length / 8 + 1 := by
    rw [length_bytesOf, List.length_append, List.length_singleton]
    omega
  have hSet : Bytes.bit (bytesOf (bits ++ [true])) bits.length = true := by
    rw [bit_bytesOf]
    simp
  have hByte : (bytesOf (bits ++ [true])).getD (bits.length / 8) 0 = 0 := by
    rw [List.getLast_eq_getElem] at hZero
    rw [List.getD_eq_getElem _ _ (by omega)]
    simpa only [hLength, Nat.add_sub_cancel] using hZero
  rw [Bytes.bit, hByte] at hSet
  cases (Nat.zero_testBit _).symm.trans hSet

theorem rdropWhile_append_zeros (bytes : List UInt8) (count : Nat) :
    (bytes ++ List.replicate count 0).rdropWhile (· = 0) = bytes.rdropWhile (· = 0) := by
  induction count with
  | zero => rw [List.replicate_zero, List.append_nil]
  | succ count ih =>
    rw [List.replicate_succ', ← List.append_assoc, List.rdropWhile_concat_pos _ _ _ rfl, ih]

/-- **What has been read** is written without the zero bytes after the delimiter. -/
theorem bytesOf_eq_rdropWhile (h : beforeDelimiter (bitsOf bytes) = some bits) :
    bytesOf (bits ++ [true]) = bytes.rdropWhile (· = 0) := by
  obtain ⟨count, hBits⟩ := beforeDelimiter_eq_some.mp h
  have hLength : 8 * bytes.length = bits.length + 1 + count := by
    have hSame := congrArg List.length hBits
    simp only [length_bitsOf, List.length_append, List.length_singleton,
      List.length_replicate] at hSame
    exact hSame
  -- The bytes have the same bits as what is written, so only their number can differ.
  have hBytes : bytes = bytesOf (bits ++ [true]) ++
      List.replicate (bytes.length - (bytesOf (bits ++ [true])).length) 0 := by
    refine Bytes.ext_bit ?_ fun position => ?_
    · simp only [List.length_append, List.length_replicate, length_bytesOf, List.length_singleton]
      omega
    · rw [Bytes.bit_append_zeros, bit_bytesOf, ← getD_bitsOf, hBits, getD_append_replicate]
  rw [hBytes, rdropWhile_append_zeros, rdropWhile_bytesOf]

/-! ## The grammar -/

/-- Reading and writing bit lists of at most `limit` bits. -/
structure FollowsGrammar (limit : Nat) : Prop where
  /-- Every bit list is read back. -/
  readsBack : ∀ b : BitList limit, ofHex b.toHex = .ok b
  /-- A text is read if it has an even number of digits, the bytes that they spell have a bit that
  is set, and the last one has at most as many bits below it as the type admits. -/
  accepts : ∀ text : String, (∃ b : BitList limit, ofHex text = .ok b) ↔
    ∃ digits, Hex.DigitsOf text digits ∧ digits.length % 2 = 0 ∧ (∀ c ∈ digits, c ∈ Hex.alphabet) ∧
      ∃ bytes, Hex.Spells digits bytes ∧ ∃ position ≤ limit, Bytes.LastSet bytes position
  /-- What is read are the bits below that bit, and it is written in lowercase without zero bytes at
  the end. -/
  gives : ∀ (text : String) (b : BitList limit), ofHex text = .ok b →
    ∃ digits bytes, Hex.DigitsOf text digits ∧ Hex.Spells digits bytes ∧
      Bytes.LastSet bytes b.length ∧ (∀ i < b.length, b.get i = Bytes.bit bytes i) ∧
      b.toHex = Hex.ofBytes (bytes.rdropWhile (· = 0))
  /-- What has been written in this way stays as it is. -/
  settles : ∀ text text' : String, (@ofHex limit text).map toHex = .ok text' →
    (@ofHex limit text').map toHex = .ok text'
  /-- Different bit lists are written differently. -/
  injective : Function.Injective (toHex : BitList limit → String)

end BitList

end ForkChoice
