import ForkChoice.Bls.Quadratic

/-!
# ForkChoice — the extension of degree twelve of BLS12-381

The field in which pairings take their values, as a tower: a cubic extension by `v³ = 1 + i` and
a quadratic one by `w² = v`.

* `Fp6`, `Fp12` — the two stories and their ring operations;
* `Fp12.frobenius` — the power by the prime;
* `Fp12.mulByLine` — the product with the value of a line, most of whose parts are zero.
-/

namespace ForkChoice.Bls

/-- `c0 + c1 · v + c2 · v²` with `v³ = 1 + i`. -/
structure Fp6 where
  c0 : Fp2
  c1 : Fp2
  c2 : Fp2
  deriving DecidableEq, Inhabited, Repr

namespace Fp6

instance : Zero Fp6 := ⟨⟨0, 0, 0⟩⟩
instance : One Fp6 := ⟨⟨1, 0, 0⟩⟩

/-- The sum. -/
def add (a b : Fp6) : Fp6 := ⟨a.c0 + b.c0, a.c1 + b.c1, a.c2 + b.c2⟩

/-- The difference. -/
def sub (a b : Fp6) : Fp6 := ⟨a.c0 - b.c0, a.c1 - b.c1, a.c2 - b.c2⟩

/-- The negative. -/
def neg (a : Fp6) : Fp6 := ⟨-a.c0, -a.c1, -a.c2⟩

/-- The product, with six products of pairs. -/
def mul (a b : Fp6) : Fp6 :=
  let x := a.c0 * b.c0
  let y := a.c1 * b.c1
  let z := a.c2 * b.c2
  ⟨x + ((a.c1 + a.c2) * (b.c1 + b.c2) - y - z).mulByNonresidue,
    (a.c0 + a.c1) * (b.c0 + b.c1) - x - y + z.mulByNonresidue,
    (a.c0 + a.c2) * (b.c0 + b.c2) - x - z + y⟩

instance : Add Fp6 := ⟨add⟩
instance : Sub Fp6 := ⟨sub⟩
instance : Neg Fp6 := ⟨neg⟩
instance : Mul Fp6 := ⟨mul⟩

/-- The product with `v`. -/
def mulByV (a : Fp6) : Fp6 := ⟨a.c2.mulByNonresidue, a.c0, a.c1⟩

/-- The product with `b0 + b1 · v`. -/
def mulBy01 (a : Fp6) (b0 b1 : Fp2) : Fp6 :=
  let x := a.c0 * b0
  let y := a.c1 * b1
  ⟨x + ((a.c1 + a.c2) * b1 - y).mulByNonresidue,
    (a.c0 + a.c1) * (b0 + b1) - x - y,
    (a.c0 + a.c2) * b0 - x + y⟩

/-- The product with `b1 · v`. -/
def mulBy1 (a : Fp6) (b1 : Fp2) : Fp6 :=
  ⟨(a.c2 * b1).mulByNonresidue, a.c0 * b1, a.c1 * b1⟩

/-- The inverse; zero for zero. -/
def inverse (a : Fp6) : Fp6 :=
  let x := a.c0 * a.c0 - (a.c1 * a.c2).mulByNonresidue
  let y := (a.c2 * a.c2).mulByNonresidue - a.c0 * a.c1
  let z := a.c1 * a.c1 - a.c0 * a.c2
  let t := (a.c0 * x + ((a.c2 * y + a.c1 * z).mulByNonresidue)).inverse
  ⟨x * t, y * t, z * t⟩

end Fp6

/-- `c0 + c1 · w` with `w² = v`. -/
structure Fp12 where
  c0 : Fp6
  c1 : Fp6
  deriving DecidableEq, Inhabited, Repr

namespace Fp12

instance : One Fp12 := ⟨⟨1, 0⟩⟩

/-- The product, with three products in the lower story. -/
def mul (a b : Fp12) : Fp12 :=
  let x := a.c0 * b.c0
  let y := a.c1 * b.c1
  ⟨x + y.mulByV, (a.c0 + a.c1) * (b.c0 + b.c1) - x - y⟩

instance : Mul Fp12 := ⟨mul⟩

/-- The square, with two products in the lower story. -/
def square (a : Fp12) : Fp12 :=
  let x := a.c0 * a.c1
  ⟨(a.c0 + a.c1) * (a.c0 + a.c1.mulByV) - x - x.mulByV, x + x⟩

/-- The conjugate over the lower story, which is the power by the sixth power of the prime. -/
def conjugate (a : Fp12) : Fp12 := ⟨a.c0, -a.c1⟩

/-- The inverse; zero for zero. -/
def inverse (a : Fp12) : Fp12 :=
  let t := (a.c0 * a.c0 - (a.c1 * a.c1).mulByV).inverse
  ⟨a.c0 * t, -(a.c1 * t)⟩

/-- The product with `x0 + x1 · v + x4 · v · w`. -/
def mulByLine (a : Fp12) (x0 x1 x4 : Fp2) : Fp12 :=
  let s := a.c0.mulBy01 x0 x1
  let t := a.c1.mulBy1 x4
  ⟨s + t.mulByV, (a.c0 + a.c1).mulBy01 x0 (x1 + x4) - s - t⟩

/-- `(1 + i)` to the power `k · (p - 1) / 6`, by which the power by the prime multiplies `wᵏ`. -/
def frobeniusFactor (k : Nat) : Fp2 := power 1 ⟨1, 1⟩ (k * ((modulus - 1) / 6))

/-- The factors for the powers `w` to `w⁵`. -/
def frobeniusFactors : Fp2 × Fp2 × Fp2 × Fp2 × Fp2 :=
  (frobeniusFactor 1, frobeniusFactor 2, frobeniusFactor 3, frobeniusFactor 4, frobeniusFactor 5)

/-- The power by the prime. -/
def frobenius (a : Fp12) : Fp12 :=
  let (f1, f2, f3, f4, f5) := frobeniusFactors
  ⟨⟨a.c0.c0.conjugate, a.c0.c1.conjugate * f2, a.c0.c2.conjugate * f4⟩,
    ⟨a.c1.c0.conjugate * f1, a.c1.c1.conjugate * f3, a.c1.c2.conjugate * f5⟩⟩

end Fp12

end ForkChoice.Bls
