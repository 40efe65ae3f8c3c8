import ForkChoice.Bls.Tower

/-!
# ForkChoice — the curves of BLS12-381

Points of curves `y² = x³ + b`. Sums are computed in Jacobian coordinates, in which `(x, y, z)`
stands for `(x / z², y / z³)` and `z = 0` for the point at infinity.

* `Coordinate` — the operations on coordinates that the formulas use;
* `Point` — affine points and the one at infinity, with `Point.add`, `Point.neg`, `Point.times`;
* `G1.onCurve`, `G2.onCurve`, `G1.generator` — the curves and the generator of the first group;
* `Point.inGroup` — whether a point is in the subgroup of prime order.
-/

namespace ForkChoice.Bls

/-- The operations on coordinates that the formulas use. -/
class Coordinate (F : Type) extends Zero F, One F, Add F, Sub F, Neg F, Mul F where
  inverse : F → F
  isZero : F → Bool

instance : Coordinate Fp where
  inverse := Fp.inverse
  isZero a := a.value = 0

instance : Coordinate Fp2 where
  inverse := Fp2.inverse
  isZero a := a.re.value = 0 && a.im.value = 0

/-- A point of a curve over `F`. -/
inductive Point (F : Type) where
  | infinity
  | affine (x y : F)
  deriving DecidableEq, Inhabited, Repr

/-- A point in Jacobian coordinates. -/
structure Jacobian (F : Type) where
  x : F
  y : F
  z : F

namespace Jacobian

variable {F : Type} [Coordinate F]

/-- The point at infinity. -/
@[specialize] def infinity : Jacobian F := ⟨1, 1, 0⟩

/-- The same point in Jacobian coordinates. -/
@[specialize] def ofPoint : Point F → Jacobian F
  | .infinity => infinity
  | .affine x y => ⟨x, y, 1⟩

/-- The same point in affine coordinates. -/
@[specialize] def toPoint (p : Jacobian F) : Point F :=
  if Coordinate.isZero p.z then .infinity
  else
    let i := Coordinate.inverse p.z
    let s := i * i
    .affine (p.x * s) (p.y * (s * i))

/-- Twice a point of a curve without a linear term. -/
@[specialize] def double (p : Jacobian F) : Jacobian F :=
  if Coordinate.isZero p.z then p
  else
    let a := p.x * p.x
    let b := p.y * p.y
    let c := b * b
    let t := p.x + b
    let d := t * t - a - c
    let d := d + d
    let e := a + a + a
    let f := e * e
    let x := f - d - d
    let c2 := c + c
    let c4 := c2 + c2
    let yz := p.y * p.z
    ⟨x, e * (d - x) - (c4 + c4), yz + yz⟩

/-- The sum of two points. -/
@[specialize] def add (p q : Jacobian F) : Jacobian F :=
  if Coordinate.isZero p.z then q
  else if Coordinate.isZero q.z then p
  else
    let zp := p.z * p.z
    let zq := q.z * q.z
    let u := p.x * zq
    let h := q.x * zp - u
    let s := p.y * (q.z * zq)
    let r := q.y * (p.z * zp) - s
    if Coordinate.isZero h then
      if Coordinate.isZero r then double p else infinity
    else
      let hh := h * h
      let hhh := h * hh
      let v := u * hh
      let x := r * r - hhh - (v + v)
      ⟨x, r * (v - x) - s * hhh, p.z * q.z * h⟩

/-- The sum of `q` for each binary digit that is set among the last `count` of `k`, and of `acc`,
doubled at each digit. -/
@[specialize] def timesFrom (q : Jacobian F) (k : Nat) : Nat → Jacobian F → Jacobian F
  | 0, acc => acc
  | count + 1, acc =>
    let doubled := double acc
    timesFrom q k count (if k.testBit count then add doubled q else doubled)

/-- The `k`-fold sum of a point. -/
@[specialize] def times (k : Nat) (p : Jacobian F) : Jacobian F :=
  if k = 0 then infinity else timesFrom p k k.log2 p

end Jacobian

namespace Point

variable {F : Type}

/-- The point with the second coordinate negated. -/
@[specialize] def neg [Neg F] : Point F → Point F
  | .infinity => .infinity
  | .affine x y => .affine x (-y)

/-- The sum of two points. -/
@[specialize] def add [Coordinate F] (p q : Point F) : Point F :=
  ((Jacobian.ofPoint p).add (Jacobian.ofPoint q)).toPoint

/-- The `k`-fold sum of a point. -/
@[specialize] def times [Coordinate F] (k : Nat) (p : Point F) : Point F :=
  ((Jacobian.ofPoint p).times k).toPoint

/-- Whether the point is in the subgroup of prime order. -/
@[specialize] def inGroup [Coordinate F] (p : Point F) : Bool :=
  Coordinate.isZero ((Jacobian.ofPoint p).times groupOrder).z

/-- Whether this is the point at infinity. -/
def isInfinity : Point F → Bool
  | .infinity => true
  | .affine _ _ => false

end Point

namespace G1

/-- A point of the first curve. -/
abbrev Point := Bls.Point Fp

/-- `x³ + 4`, the square of the other coordinate. -/
def rightSide (x : Fp) : Fp := x * x * x + ⟨4⟩

/-- The generator of the first group. -/
def generator : Point :=
  .affine
    ⟨0x17f1d3a73197d7942695638c4fa9ac0fc3688c4f9774b905a14e3a3f171bac586c55e83ff97a1aeffb3af00adb22c6bb⟩
    ⟨0x08b3f481e3aaa0f1a09e30ed741d8ae4fcf5e095d5d00af600db18cb2c04b3edd03cc744a2888ae40caa232946c5e7e1⟩

/-- Doubles the generator `count` times, collecting the intermediate points. -/
def doublings : Nat → Jacobian Fp → Array (Jacobian Fp) → Array (Jacobian Fp)
  | 0, _, acc => acc
  | count + 1, p, acc => doublings count p.double (acc.push p)

/-- The generator times each power of two below the group order. -/
def generatorDoublings : Array (Jacobian Fp) := doublings 256 (Jacobian.ofPoint generator) #[]

/-- The sum of those doublings of the generator whose binary digit is set in `k`. -/
def generatorTimesFrom (k : Nat) : Nat → Jacobian Fp → Jacobian Fp
  | 0, acc => acc
  | count + 1, acc =>
    generatorTimesFrom k count
      (if k.testBit count then acc.add (generatorDoublings.getD count Jacobian.infinity) else acc)

/-- The `k`-fold sum of the generator, for `k` of at most 256 bits. -/
def generatorTimes (k : Nat) : Point := (generatorTimesFrom k 256 Jacobian.infinity).toPoint

end G1

namespace G2

/-- A point of the second curve. -/
abbrev Point := Bls.Point Fp2

/-- `x³ + 4 · (1 + i)`, the square of the other coordinate. -/
def rightSide (x : Fp2) : Fp2 := x * x * x + ⟨⟨4⟩, ⟨4⟩⟩

end G2

end ForkChoice.Bls
