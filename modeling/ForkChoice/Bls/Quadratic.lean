import ForkChoice.Bls.Base

/-!
# ForkChoice — the quadratic extension of BLS12-381

Pairs `re + im · i` of residues with `i² = -1`.

* `Fp2` — pairs and their ring operations;
* `Fp2.inverse`, `Fp2.sqrt?`, `Fp2.isSquare` — through the norm `re² + im²`;
* `Fp2.sign`, `Fp2.isGreater` — the two ways to tell a root from its negative.
-/

namespace ForkChoice.Bls

/-- `re + im · i` with `i² = -1`. -/
structure Fp2 where
  re : Fp
  im : Fp
  deriving DecidableEq, Inhabited, Repr

namespace Fp2

instance : Zero Fp2 := ⟨⟨0, 0⟩⟩
instance : One Fp2 := ⟨⟨1, 0⟩⟩

/-- The sum. -/
def add (a b : Fp2) : Fp2 := ⟨a.re + b.re, a.im + b.im⟩

/-- The difference. -/
def sub (a b : Fp2) : Fp2 := ⟨a.re - b.re, a.im - b.im⟩

/-- The negative. -/
def neg (a : Fp2) : Fp2 := ⟨-a.re, -a.im⟩

/-- The square of the prime, which keeps a difference of products positive. -/
def modulusSquared : Nat := modulus * modulus

/-- The product, with three products of numbers. -/
def mul (a b : Fp2) : Fp2 :=
  let x := a.re.value * b.re.value
  let y := a.im.value * b.im.value
  let z := (a.re.value + a.im.value) * (b.re.value + b.im.value)
  ⟨⟨(x + modulusSquared - y) % modulus⟩, ⟨(z - x - y) % modulus⟩⟩

instance : Add Fp2 := ⟨add⟩
instance : Sub Fp2 := ⟨sub⟩
instance : Neg Fp2 := ⟨neg⟩
instance : Mul Fp2 := ⟨mul⟩

/-- The pair with the imaginary part negated. -/
def conjugate (a : Fp2) : Fp2 := ⟨a.re, -a.im⟩

/-- The product with a residue. -/
def scale (a : Fp2) (k : Fp) : Fp2 := ⟨a.re * k, a.im * k⟩

/-- The product with `1 + i`. -/
def mulByNonresidue (a : Fp2) : Fp2 := ⟨a.re - a.im, a.re + a.im⟩

/-- The product of a pair and its conjugate. -/
def norm (a : Fp2) : Fp := a.re * a.re + a.im * a.im

/-- The inverse; zero for zero. -/
def inverse (a : Fp2) : Fp2 := a.conjugate.scale a.norm.inverse

/-- Whether there is a root. -/
def isSquare (a : Fp2) : Bool := a.norm.isSquare

/-- One half. -/
def half : Fp := ⟨(modulus + 1) / 2⟩

/-- A root if there is one. -/
def sqrt? (a : Fp2) : Option Fp2 :=
  if a.im.value = 0 then
    match a.re.sqrt? with
    | some r => some ⟨r, 0⟩
    | none => (-a.re).sqrt?.map fun r => ⟨0, r⟩
  else do
    let s ← a.norm.sqrt?
    let re ← ((a.re + s) * half).sqrt? <|> ((a.re - s) * half).sqrt?
    let root : Fp2 := ⟨re, a.im * half * re.inverse⟩
    if root * root = a then some root else none

/-- The parity of the first part that is not zero. -/
def sign (a : Fp2) : Bool :=
  if a.re.value = 0 then a.im.value % 2 = 1 else a.re.value % 2 = 1

/-- Whether the pair is greater than its negative, imaginary part first. -/
def isGreater (a : Fp2) : Bool :=
  if a.im.value = 0 then a.re.isGreater else a.im.isGreater

end Fp2

end ForkChoice.Bls
