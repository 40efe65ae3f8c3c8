/-!
# ForkChoice — numbers of double precision

A number of double precision has a significand of at most 53 binary digits and an exponent
between -1074 and 971. Products and quotients are computed exactly and then rounded once to the
nearest of these numbers; of two that are equally near, the one with the even significand is
taken. Nothing is infinite: a result that is too great is no number.

* `Double` — the numbers, `Double.numerator`, `Double.denominator` — their size as a fraction;
* `Double.nearest?` — the number that is nearest to a quotient;
* `Double.ofDecimal?` — the number that digits and a power of ten stand for.
-/

namespace ForkChoice

/-- The number `significand * 2 ^ exponent` or its negative; there are two zeros. -/
structure Double where
  negative : Bool := false
  significand : Nat
  exponent : Int
  deriving DecidableEq, Inhabited

namespace Double

/-- Zero without a sign. -/
def zero : Double := ⟨false, 0, -1074⟩

/-- The number of the other sign. -/
def neg (d : Double) : Double := { d with negative := !d.negative }

/-- The numerator of the size of a number as a fraction. -/
def numerator (d : Double) : Nat := d.significand <<< d.exponent.toNat

/-- The denominator of the size of a number as a fraction, a power of two. -/
def denominator (d : Double) : Nat := 1 <<< (-d.exponent).toNat

/-! ## Rounding -/

/-- The natural number that is nearest to a quotient; of two, the even one. -/
def roundHalfEven (n d : Nat) : Nat :=
  let quotient := n / d
  let twice := 2 * (n % d)
  if d < twice ∨ (twice = d ∧ quotient % 2 = 1) then quotient + 1 else quotient

/-- The exponent of the greatest power of two that is not above a positive quotient. -/
def binaryExponent (n d : Nat) : Int :=
  let exponent : Int := (n.log2 : Int) - d.log2
  if n <<< (-exponent).toNat < d <<< exponent.toNat then exponent - 1 else exponent

/-- The number that is nearest to a quotient, unless the quotient is too great. -/
def nearest? (n d : Nat) : Option Double :=
  if n = 0 then some zero
  else
    let exponent := max (binaryExponent n d - 52) (-1074)
    let significand := roundHalfEven (n <<< (-exponent).toNat) (d <<< exponent.toNat)
    let rounded : Double :=
      if significand = 9007199254740992 then ⟨false, 4503599627370496, exponent + 1⟩
      else ⟨false, significand, exponent⟩
    if 971 < rounded.exponent then none else some rounded

/-- The product of the sizes of two numbers. -/
def mul? (a b : Double) : Option Double :=
  nearest? (a.numerator * b.numerator) (a.denominator * b.denominator)

/-- The quotient of the sizes of two numbers. -/
def div? (a b : Double) : Option Double :=
  nearest? (a.numerator * b.denominator) (a.denominator * b.numerator)

/-! ## Decimals -/

/-- The number that is nearest to a power of ten. -/
def tenTo? (n : Nat) : Option Double := nearest? (Nat.pow 10 n) 1

/-- Divides the size of a number several times, until it is zero. -/
def divideBy? (divisor : Double) : Nat → Double → Option Double
  | 0, d => some d
  | times + 1, d =>
    if d.significand = 0 then some d else do divideBy? divisor times (← d.div? divisor)

/-- The size of a number divided by `10 ^ n`, at most by `10 ^ 308` at once. -/
def scaleDown? (d : Double) (n : Nat) : Option Double := do
  let times := (n - 1) / 308
  let d ← divideBy? (← tenTo? 308) times d
  if d.significand = 0 then some d else d.div? (← tenTo? (n - 308 * times))

/-- The size of a number multiplied by `10 ^ n`. -/
def scaleUp? (d : Double) (n : Nat) : Option Double :=
  if d.significand = 0 then some d else if n ≤ 308 then do d.mul? (← tenTo? n) else none

/-- The number that is read for `digits * 10 ^ exponent`: the digits are rounded, and what comes of
multiplying or dividing by the power is rounded again. -/
def ofDecimal? (digits : Nat) (exponent : Int) : Option Double := do
  let d ← nearest? digits 1
  if exponent < 0 then d.scaleDown? (-exponent).toNat else d.scaleUp? exponent.toNat

end Double

end ForkChoice
