import ForkChoice.Decimal.Double

/-!
# ForkChoice — the shortest decimal

Many decimals are rounded to the same number of double precision. The one that is written for it
is a multiple of the greatest possible power of ten, which gives it the fewest digits; of two such
multiples it is the nearer one.

* `Decimal` — digits and a power of ten;
* `Double.onGrid?` — the nearest multiple of a power of ten that is rounded to a number;
* `Double.shortest` — the decimal that is written for a number;
* `DecimalForm` — when a decimal is written without an exponent, `DecimalForm.write` — how it is
  written.
-/

namespace ForkChoice

/-- The number `digits * 10 ^ exponent`. -/
structure Decimal where
  digits : Nat
  exponent : Int
  deriving DecidableEq, Inhabited

namespace Double

/-- The multiple of `10 ^ k` that is rounded to a positive number, the nearer one if there are two.
What is rounded to the number lies between the middles of the gaps to its neighbours, which are
rounded to it themselves if its significand is even. The gap below a power of two is half as wide
as that above it. -/
def onGrid? (d : Double) (k : Int) : Option Decimal :=
  let power := Nat.pow 10 k.toNat * 4 * d.denominator
  let unit := Nat.pow 10 (-k).toNat * 1 <<< d.exponent.toNat
  let value := 4 * d.significand * unit
  let isNarrow := d.significand = 4503599627370496 ∧ d.exponent ≠ -1074
  let low := value - (if isNarrow then 1 else 2) * unit
  let high := value + 2 * unit
  let isEven := d.significand % 2 = 0
  let fits (n : Nat) : Bool :=
    let x := n * power
    if isEven then low ≤ x ∧ x ≤ high else low < x ∧ x < high
  let below := value / power
  let above := below + 1
  let isAboveNearer := above * power - value < value - below * power
    ∨ (above * power - value = value - below * power ∧ below % 2 = 1)
  if fits below ∧ ¬ (fits above ∧ isAboveNearer) then some ⟨below, k⟩
  else if fits above then some ⟨above, k⟩
  else none

/-- The powers of ten of which multiples are tried, the greatest one first. -/
def gridExponents : List Int := (List.range 650).map fun (i : Nat) => (309 : Int) - i

/-- The decimal that is written for a positive number. -/
def shortest (d : Double) : Decimal := (gridExponents.findSome? d.onGrid?).getD ⟨0, 0⟩

end Double

/-- The exponents of the first digit for which a decimal is written without an exponent. -/
structure DecimalForm where
  least : Int
  greatest : Int

namespace DecimalForm

/-- The digits of a decimal with a point at its place, and at least one digit on each side. -/
def positional (d : Decimal) : List Char :=
  let digits := Nat.toDigits 10 d.digits
  if 0 ≤ d.exponent then digits ++ List.replicate d.exponent.toNat '0' ++ ['.', '0']
  else
    let places := (-d.exponent).toNat
    let padded := List.replicate (places + 1 - digits.length) '0' ++ digits
    padded.take (padded.length - places) ++ '.' :: padded.drop (padded.length - places)

/-- The digits of a decimal with a point after the first one if there are more, and the exponent
of the first one. -/
def scientific (d : Decimal) : List Char :=
  let digits := Nat.toDigits 10 d.digits
  let exponent := d.exponent + (digits.length - 1 : Nat)
  let fraction := if digits.length = 1 then [] else '.' :: digits.drop 1
  let sign := if exponent < 0 then '-' else '+'
  digits.take 1 ++ fraction ++ 'e' :: sign :: Nat.toDigits 10 exponent.natAbs

/-- The text of a number. -/
def write (form : DecimalForm) (d : Double) : String :=
  let sign := if d.negative then ['-'] else []
  let size :=
    if d.significand = 0 then ['0', '.', '0']
    else
      let decimal := d.shortest
      let first := decimal.exponent + ((Nat.toDigits 10 decimal.digits).length - 1 : Nat)
      if form.least ≤ first ∧ first ≤ form.greatest then positional decimal
      else scientific decimal
  String.ofList (sign ++ size)

end DecimalForm

end ForkChoice
