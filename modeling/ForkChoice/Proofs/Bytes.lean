import Mathlib.Algebra.Order.Ring.Nat
import Mathlib.Tactic.Ring
import ForkChoice.Bytes

/-!
# ForkChoice — byte strings as numbers

A byte string is read as the digits of a number to the base 256, most significant digit first, when
it becomes a bit vector, and numbers are written with the least significant digit first. Strings of
one length and the numbers below the power of 256 that belongs to it are the same thing either way.

* `Bytes.toNat_append`, `Bytes.toNat_lt`, `Bytes.toNat_inj` — strings as numbers;
* `Bytes.littleEndian_eq_map`, `Bytes.littleEndian_inj` — numbers as strings.
-/

namespace ForkChoice.Bytes

variable {bytes bytes' : List UInt8} {count m n : Nat}

/-! ## Most significant digit first -/

/-- Digits that follow others move these up. -/
theorem foldl_digits (bytes : List UInt8) (start : Nat) :
    bytes.foldl (fun n byte => n * 256 + byte.toNat) start =
      start * 256 ^ bytes.length + toNat bytes := by
  unfold toNat
  -- What has been read so far is a parameter of the fold, so it has to vary.
  induction bytes generalizing start with
  | nil => simp
  | cons byte rest ih =>
    rw [List.foldl_cons, List.foldl_cons, ih, ih (0 * 256 + byte.toNat), List.length_cons]
    ring

theorem toNat_append (bytes bytes' : List UInt8) :
    toNat (bytes ++ bytes') = toNat bytes * 256 ^ bytes'.length + toNat bytes' := by
  rw [toNat, List.foldl_append, foldl_digits]
  rfl

theorem toNat_cons (byte : UInt8) (rest : List UInt8) :
    toNat (byte :: rest) = byte.toNat * 256 ^ rest.length + toNat rest := by
  have hByte : toNat [byte] = byte.toNat := by
    show 0 * 256 + byte.toNat = byte.toNat
    omega
  rw [← List.singleton_append, toNat_append, hByte]

theorem toNat_lt (bytes : List UInt8) : toNat bytes < 256 ^ bytes.length := by
  induction bytes with
  | nil => exact Nat.one_pos
  | cons byte rest ih =>
    have hByte : byte.toNat + 1 ≤ 256 := byte.toNat_lt
    rw [toNat_cons, List.length_cons, Nat.pow_succ]
    calc byte.toNat * 256 ^ rest.length + toNat rest
        < byte.toNat * 256 ^ rest.length + 256 ^ rest.length := Nat.add_lt_add_left ih _
      _ = (byte.toNat + 1) * 256 ^ rest.length := (Nat.succ_mul _ _).symm
      _ ≤ 256 * 256 ^ rest.length := Nat.mul_le_mul_right _ hByte
      _ = 256 ^ rest.length * 256 := Nat.mul_comm _ _

theorem toNat_replicate_zero (count : Nat) : toNat (List.replicate count 0) = 0 := by
  induction count with
  | zero => rfl
  | succ count ih =>
    rw [List.replicate_succ, toNat_cons, ih]
    simp

/-- Strings of one length are told apart by their numbers. -/
theorem toNat_inj (hLength : bytes.length = bytes'.length) (h : toNat bytes = toNat bytes') :
    bytes = bytes' := by
  induction bytes generalizing bytes' with
  | nil => exact (List.eq_nil_of_length_eq_zero hLength.symm).symm
  | cons byte rest ih =>
    cases bytes' with
    | nil => cases hLength
    | cons byte' rest' =>
      have hRest : rest.length = rest'.length := Nat.succ.inj hLength
      have hLow : toNat rest < 256 ^ rest'.length := hRest ▸ toNat_lt rest
      have hLow' : toNat rest' < 256 ^ rest'.length := toNat_lt rest'
      have hPos : 0 < 256 ^ rest'.length := Nat.pow_pos (by decide)
      rw [toNat_cons, toNat_cons, hRest, Nat.mul_comm, Nat.mul_comm byte'.toNat] at h
      -- The first digit is the quotient, the others are the remainder.
      have hQuotient := congrArg (· / 256 ^ rest'.length) h
      simp only [Nat.mul_add_div hPos, Nat.div_eq_of_lt hLow, Nat.div_eq_of_lt hLow',
        Nat.add_zero] at hQuotient
      have hRemainder : toNat rest = toNat rest' := by
        rw [hQuotient] at h
        omega
      rw [UInt8.toNat_inj.mp hQuotient, ih hRest hRemainder]

/-! ## Least significant digit first -/

@[simp] theorem length_littleEndian (count n : Nat) : (littleEndian count n).length = count := by
  induction count generalizing n with
  | zero => rfl
  | succ count ih => rw [littleEndian, List.length_cons, ih]

theorem ofNat_mod_256 (n : Nat) : UInt8.ofNat (n % 256) = UInt8.ofNat n := by
  refine UInt8.toNat_inj.mp ?_
  rw [UInt8.toNat_ofNat', UInt8.toNat_ofNat', Nat.mod_mod]

/-- The digit at a place is what is left when the number is divided by the power of the place. -/
theorem littleEndian_eq_map (count n : Nat) :
    littleEndian count n = (List.range count).map fun place => UInt8.ofNat (n / 256 ^ place) := by
  induction count generalizing n with
  | zero => rfl
  | succ count ih =>
    rw [littleEndian, ih, List.range_succ_eq_map, List.map_cons, List.map_map, Nat.pow_zero,
      Nat.div_one, ofNat_mod_256]
    congr 1
    refine List.map_congr_left fun place _ => ?_
    rw [Function.comp_apply, Nat.div_div_eq_div_mul, Nat.pow_succ, Nat.mul_comm]

/-- Numbers that fit are told apart by their digits. -/
theorem littleEndian_inj (hm : m < 256 ^ count) (hn : n < 256 ^ count)
    (h : littleEndian count m = littleEndian count n) : m = n := by
  induction count generalizing m n with
  | zero => rw [Nat.pow_zero] at hm hn; omega
  | succ count ih =>
    rw [littleEndian, littleEndian, List.cons.injEq] at h
    obtain ⟨hFirst, hRest⟩ := h
    have hDigit : m % 256 = n % 256 := by
      have hBytes := congrArg UInt8.toNat hFirst
      rwa [UInt8.toNat_ofNat', UInt8.toNat_ofNat', Nat.mod_mod, Nat.mod_mod] at hBytes
    rw [Nat.pow_succ] at hm hn
    have hQuotient : m / 256 = n / 256 :=
      ih (Nat.div_lt_of_lt_mul (by omega)) (Nat.div_lt_of_lt_mul (by omega)) hRest
    omega

end ForkChoice.Bytes
