import ForkChoice.Bls.Curve

/-!
# ForkChoice — the pairing of BLS12-381

The optimal ate pairing. A product of pairings is computed with one loop over the digits of the
curve parameter and one final power; whether it is one is all that signatures need.

* `millerLoop` — the product of the values of the lines;
* `finalPower` — a power that sends exactly the trivial values to one;
* `pairingProductIsOne` — whether the product of pairings is one.
-/

namespace ForkChoice.Bls

/-- A point of the first curve and a running multiple of a point of the second one. -/
structure Running where
  xp : Fp
  yp : Fp
  xq : Fp2
  yq : Fp2
  xt : Fp2
  yt : Fp2

/-- Multiplies by the value of the line through the running point of slope `slope`, and moves
on to the third point on that line, given the other point's first coordinate. -/
def Running.follow (s : Running) (slope x : Fp2) (value : Fp12) : Running × Fp12 :=
  let value := value.mulByLine (slope * s.xt - s.yt) (-(slope.scale s.xp)) ⟨s.yp, 0⟩
  let x3 := slope * slope - s.xt - x
  ({ s with xt := x3, yt := slope * (s.xt - x3) - s.yt }, value)

/-- The tangent at the running point. -/
def Running.double (s : Running) (value : Fp12) : Running × Fp12 :=
  let xx := s.xt * s.xt
  s.follow ((xx + xx + xx) * (s.yt + s.yt).inverse) s.xt value

/-- The line through the running point and the fixed one. -/
def Running.add (s : Running) (value : Fp12) : Running × Fp12 :=
  s.follow ((s.yt - s.yq) * (s.xt - s.xq).inverse) s.xq value

/-- Applies a step to each running point. -/
def stepAll (step : Running → Fp12 → Running × Fp12) : List Running → Fp12 → List Running × Fp12
  | [], value => ([], value)
  | s :: rest, value =>
    let (s, value) := step s value
    let (rest, value) := stepAll step rest value
    (s :: rest, value)

/-- The loop over the last `count` digits of the curve parameter. -/
def millerFrom : Nat → List Running → Fp12 → Fp12
  | 0, _, value => value
  | count + 1, points, value =>
    let (points, value) := stepAll Running.double points value.square
    if parameter.testBit count then
      let (points, value) := stepAll Running.add points value
      millerFrom count points value
    else millerFrom count points value

/-- The product of the values of the lines for pairs without a point at infinity. -/
def millerLoop (pairs : List (G1.Point × G2.Point)) : Fp12 :=
  let points := pairs.filterMap fun
    | (.affine xp yp, .affine xq yq) => some ⟨xp, yp, xq, yq, xq, yq⟩
    | _ => none
  (millerFrom parameter.log2 points 1).conjugate

/-- The square of `acc` for each of the last `count` digits of the exponent, and `base` for each
digit that is set. -/
def unitaryPowerFrom (base : Fp12) : Nat → Fp12 → Fp12
  | 0, acc => acc
  | count + 1, acc =>
    let squared := acc.square
    unitaryPowerFrom base count (if parameter.testBit count then squared * base else squared)

/-- The power by the curve parameter, of a value whose inverse is its conjugate. -/
def parameterPower (a : Fp12) : Fp12 :=
  (unitaryPowerFrom a parameter.log2 a).conjugate

/-- A power that sends exactly the trivial values to one. -/
def finalPower (f : Fp12) : Fp12 :=
  let f := f.conjugate * f.inverse
  let f := f.frobenius.frobenius * f
  let a := parameterPower f * f.conjugate
  let a := parameterPower a * a.conjugate
  let b := parameterPower a * a.frobenius
  let c := parameterPower (parameterPower b) * b.frobenius.frobenius * b.conjugate
  c * (f.square * f)

/-- Whether the product of the pairings is one. -/
def pairingProductIsOne (pairs : List (G1.Point × G2.Point)) : Bool :=
  finalPower (millerLoop pairs) = 1

end ForkChoice.Bls
