/-!
# ForkChoice — the prime field of BLS12-381

Residues modulo a prime of 381 bits, with the square root that exists because the prime is three
modulo four.

* `Fp` — residues and their ring operations;
* `power` — powers in any monoid, by repeated squaring;
* `Fp.inverse`, `Fp.sqrt?`, `Fp.isSquare` — inverse, root and the test for squares.
-/

namespace ForkChoice.Bls

/-- The prime over which the curve is defined. -/
def modulus : Nat :=
  0x1a0111ea397fe69a4b1ba7b6434bacd764774b84f38512bf6730d2a0f6b0f6241eabfffeb153ffffb9feffffffffaaab

/-- The prime order of the groups that the pairing is defined on. -/
def groupOrder : Nat :=
  0x73eda753299d7d483339d80809a1d80553bda402fffe5bfeffffffff00000001

/-- The absolute value of the curve parameter, which is negative. -/
def parameter : Nat := 0xd201000000010000

/-- A residue modulo the prime, represented by the least number in its class. -/
structure Fp where
  value : Nat
  deriving DecidableEq, Inhabited, Repr

/-- `base` to the power that the last `count` binary digits of `exponent` spell, times the
square of `acc` for each digit. -/
@[specialize] def powerFrom {M : Type} [Mul M] (base : M) (exponent : Nat) : Nat → M → M
  | 0, acc => acc
  | count + 1, acc =>
    let squared := acc * acc
    powerFrom base exponent count (if exponent.testBit count then squared * base else squared)

/-- `base` to the power `exponent`, where `unit` is the empty product. -/
@[specialize] def power {M : Type} [Mul M] (unit base : M) (exponent : Nat) : M :=
  if exponent = 0 then unit else powerFrom base exponent exponent.log2 base

namespace Fp

/-- The residue of a number. -/
def ofNat (n : Nat) : Fp := ⟨n % modulus⟩

instance : Zero Fp := ⟨⟨0⟩⟩
instance : One Fp := ⟨⟨1⟩⟩

/-- The sum. -/
def add (a b : Fp) : Fp :=
  let s := a.value + b.value
  if s < modulus then ⟨s⟩ else ⟨s - modulus⟩

/-- The difference. -/
def sub (a b : Fp) : Fp :=
  if b.value ≤ a.value then ⟨a.value - b.value⟩ else ⟨a.value + modulus - b.value⟩

/-- The negative. -/
def neg (a : Fp) : Fp :=
  if a.value = 0 then a else ⟨modulus - a.value⟩

/-- The product. -/
def mul (a b : Fp) : Fp := ⟨a.value * b.value % modulus⟩

instance : Add Fp := ⟨add⟩
instance : Sub Fp := ⟨sub⟩
instance : Neg Fp := ⟨neg⟩
instance : Mul Fp := ⟨mul⟩

/-- The inverse; zero for zero. -/
def inverse (a : Fp) : Fp := power 1 a (modulus - 2)

/-- Whether there is a root. -/
def isSquare (a : Fp) : Bool :=
  let e := power 1 a ((modulus - 1) / 2)
  e.value = 0 || e.value = 1

/-- A root if there is one. -/
def sqrt? (a : Fp) : Option Fp :=
  let r := power 1 a ((modulus + 1) / 4)
  if r * r = a then some r else none

/-- Whether the residue is greater than its negative. -/
def isGreater (a : Fp) : Bool := (modulus - 1) / 2 < a.value

end Fp

end ForkChoice.Bls
