import Mathlib.Tactic.Tauto
import ForkChoice.Bytes

/-!
# ForkChoice — hexadecimal digits

A text of hexadecimal digits spells a byte string if its digits, in lowercase, are those of the
bytes. Reading gives the byte string that a text spells, and nothing where there is none: where the
number of digits is odd, or where a character is not a digit of either case.

* `Hex.alphabet` — the digits, `Hex.DigitsOf` — a text and its digits;
* `Hex.Spells` — which bytes the digits spell;
* `Hex.decode_eq_some` — reading gives these;
* `Hex.exists_spells` — which digits spell anything.
-/

namespace ForkChoice.Hex

variable {c : Char} {digits : List Char} {bytes : List UInt8}

/-! ## Digits -/

/-- The digits, those of either case. -/
def alphabet : List Char := "0123456789abcdefABCDEF".toList

/-- What holds of the first 128 characters and of all others holds of all. -/
theorem forall_ascii {P : Char → Prop} (hAscii : ∀ n : Fin 128, P (Char.ofNat n))
    (hBeyond : ∀ c : Char, 128 ≤ c.toNat → P c) (c : Char) : P c := by
  by_cases h : c.toNat < 128
  · have hChar := hAscii ⟨c.toNat, h⟩
    rwa [Char.ofNat_toNat] at hChar
  · exact hBeyond c (Nat.not_lt.mp h)

theorem value?_eq_none (h : 128 ≤ c.toNat) : value? c = none := by
  unfold value?
  rw [if_neg (by omega), if_neg (by omega), if_neg (by omega)]

/-- Only the first 128 characters come in two cases. -/
theorem toLower_eq_self (h : 128 ≤ c.toNat) : c.toLower = c := by
  have hUpper : ¬(c.val ≥ 'A'.val ∧ c.val ≤ 'Z'.val) := fun hUpper => by
    have hLast : c.toNat ≤ 90 := hUpper.2
    omega
  exact dif_neg hUpper

theorem value?_toLower (c : Char) : value? c.toLower = value? c := by
  have hAll : ∀ c : Char, value? c.toLower = value? c := by
    refine forall_ascii (by decide) fun c hBeyond => ?_
    rw [toLower_eq_self hBeyond]
  exact hAll c

/-- A digit in lowercase is the digit of its value. -/
theorem toLower_eq_digit {n : Nat} (h : value? c = some n) : c.toLower = digit n ∧ n < 16 := by
  have hAll : ∀ c, ∀ n ∈ value? c, c.toLower = digit n ∧ n < 16 := by
    refine forall_ascii (by decide) fun c hBeyond n hValue => ?_
    rw [value?_eq_none hBeyond] at hValue
    cases hValue
  exact hAll c n h

theorem lt_of_mem_alphabet (h : c ∈ alphabet) : c.toNat < 128 := by
  have hAll : alphabet.all (fun c => c.toNat < 128) = true := by decide
  exact of_decide_eq_true (List.all_eq_true.mp hAll c h)

theorem mem_alphabet : c ∈ alphabet ↔ (value? c).isSome := by
  have hAll : ∀ c, c ∈ alphabet ↔ (value? c).isSome := by
    refine forall_ascii (by decide +kernel) fun c hBeyond => ?_
    rw [value?_eq_none hBeyond]
    exact ⟨fun hMem => absurd (lt_of_mem_alphabet hMem) (Nat.not_lt.mpr hBeyond), nofun⟩
  exact hAll c

theorem value?_digit {n : Nat} (h : n < 16) : value? (digit n) = some n := by
  have hAll : ∀ n : Fin 16, value? (digit n) = some n.val := by decide
  exact hAll ⟨n, h⟩

theorem toLower_digit {n : Nat} (h : n < 16) : (digit n).toLower = digit n := by
  have hAll : ∀ n : Fin 16, (digit n).toLower = digit n := by decide
  exact hAll ⟨n, h⟩

/-! ## Texts -/

/-- The digits of a text follow the mark of hexadecimal text, or are all of it where there is no
mark. -/
def DigitsOf (text : String) (digits : List Char) : Prop :=
  text.toList = '0' :: 'x' :: digits ∨ ¬['0', 'x'] <+: text.toList ∧ text.toList = digits

theorem digitsOf_iff {text : String} : DigitsOf text digits ↔ stripMark text.toList = digits := by
  unfold DigitsOf stripMark
  split
  · rename_i rest hMarked
    simp [hMarked]
  · rename_i hPlain
    have hNone : ¬['0', 'x'] <+: text.toList := by
      rintro ⟨rest, hRest⟩
      exact hPlain rest hRest.symm
    constructor
    · rintro (hMarked | ⟨-, hSame⟩)
      · exact absurd hMarked (hPlain digits)
      · exact hSame
    · exact fun hSame => .inr ⟨hNone, hSame⟩

/-- At most one mark is taken off, so nothing is left to choose. -/
theorem DigitsOf.unique {text : String} {digits' : List Char} (h : DigitsOf text digits)
    (h' : DigitsOf text digits') : digits = digits' :=
  (digitsOf_iff.mp h).symm.trans (digitsOf_iff.mp h')

/-- Two digits of either case for each byte, the more significant one first. -/
def Spells (digits : List Char) (bytes : List UInt8) : Prop :=
  digits.map Char.toLower = encode bytes

theorem encode_cons (byte : UInt8) (rest : List UInt8) :
    encode (byte :: rest) = digit (byte.toNat / 16) :: digit (byte.toNat % 16) :: encode rest :=
  rfl

/-- The digits of bytes spell these. -/
theorem spells_encode (bytes : List UInt8) : Spells (encode bytes) bytes := by
  unfold Spells
  induction bytes with
  | nil => rfl
  | cons byte rest ih =>
    have hByte : byte.toNat < 256 := byte.toNat_lt
    rw [encode_cons, List.map_cons, List.map_cons, ih, toLower_digit (by omega),
      toLower_digit (by omega)]

/-- Reading does not mind the case. -/
theorem decode_map_toLower (digits : List Char) :
    decode (digits.map Char.toLower) = decode digits := by
  induction digits using decode.induct with
  | case1 => rfl
  | case2 c => rfl
  | case3 high low rest ih =>
    rw [List.map_cons, List.map_cons, decode, decode, value?_toLower, value?_toLower, ih]

theorem decode_encode (bytes : List UInt8) : decode (encode bytes) = some bytes := by
  induction bytes with
  | nil => rfl
  | cons byte rest ih =>
    have hByte : byte.toNat < 256 := byte.toNat_lt
    have hDigits : byte.toNat / 16 * 16 + byte.toNat % 16 = byte.toNat := Nat.div_add_mod' _ _
    rw [encode_cons, decode, value?_digit (by omega), value?_digit (by omega), ih]
    show some (UInt8.ofNat (byte.toNat / 16 * 16 + byte.toNat % 16) :: rest) = some (byte :: rest)
    rw [hDigits, UInt8.ofNat_toNat]

/-- **Reading** gives the bytes that a text spells. -/
theorem decode_eq_some : decode digits = some bytes ↔ Spells digits bytes := by
  constructor
  · intro h
    unfold Spells
    induction digits using decode.induct generalizing bytes with
    | case1 =>
      rw [decode, Option.some.injEq] at h
      rw [← h]
      rfl
    | case2 c => cases h
    | case3 high low rest ih =>
      simp only [decode, Option.bind_eq_bind, Option.bind_eq_some_iff, Option.pure_def,
        Option.some.injEq] at h
      obtain ⟨m, hHigh, n, hLow, bytes', hRest, rfl⟩ := h
      obtain ⟨hHigh, hm⟩ := toLower_eq_digit hHigh
      obtain ⟨hLow, hn⟩ := toLower_eq_digit hLow
      have hByte : (UInt8.ofNat (m * 16 + n)).toNat = m * 16 + n :=
        UInt8.toNat_ofNat_of_lt' (by show _ < 256; omega)
      have hQuotient : (m * 16 + n) / 16 = m := by omega
      have hRemainder : (m * 16 + n) % 16 = n := by omega
      rw [List.map_cons, List.map_cons, ih hRest, encode_cons, hByte, hQuotient, hRemainder, hHigh,
        hLow]
  · intro h
    rw [← decode_map_toLower, h, decode_encode]

/-- Digits spell one byte string at most. -/
theorem Spells.unique {bytes' : List UInt8} (h : Spells digits bytes) (h' : Spells digits bytes') :
    bytes = bytes' :=
  Option.some.inj ((decode_eq_some.mpr h).symm.trans (decode_eq_some.mpr h'))

/-- **Texts** that spell something consist of digits, an even number of them. -/
theorem exists_spells :
    (∃ bytes, Spells digits bytes) ↔ digits.length % 2 = 0 ∧ ∀ c ∈ digits, c ∈ alphabet := by
  simp only [← decode_eq_some, ← Option.isSome_iff_exists]
  induction digits using decode.induct with
  | case1 => simp [decode]
  | case2 c => simp [decode]
  | case3 high low rest ih =>
    have hEven : (high :: low :: rest).length % 2 = rest.length % 2 := by
      simp only [List.length_cons]
      omega
    have hPair : (decode (high :: low :: rest)).isSome ↔
        (value? high).isSome ∧ (value? low).isSome ∧ (decode rest).isSome := by
      rw [decode]
      cases value? high <;> cases value? low <;> cases decode rest <;> simp
    rw [hPair, ih, hEven, List.forall_mem_cons, List.forall_mem_cons, mem_alphabet, mem_alphabet]
    tauto

end ForkChoice.Hex
