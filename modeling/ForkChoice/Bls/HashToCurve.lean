import ForkChoice.Bls.Curve
import ForkChoice.Bytes
import ForkChoice.Hash.Sha256

/-!
# ForkChoice — hashing to the second group of BLS12-381

A message is expanded to uniform bytes, which give two field elements; each is mapped to a curve
isogenous to the second one and from there to the second one; the sum of the two points is sent
into the subgroup by a multiple of the cofactor.

* `expandMessage` — uniform bytes from a message and a tag;
* `mapToCurve` — from field elements to points;
* `clearCofactor` — from the curve into the subgroup;
* `hashToGroup` — all of it.
-/

namespace ForkChoice.Bls

/-- The hash of a list of bytes as bytes. -/
def sha256Bytes (bytes : List UInt8) : List UInt8 :=
  Bytes.ofBitVec (Sha256.digest (Bytes.toBitVec bytes))

/-- `count` blocks of 32 uniform bytes, numbered from `index`. -/
def expandBlocks (first tag : List UInt8) : Nat → Nat → List UInt8 → List UInt8
  | 0, _, _ => []
  | count + 1, index, previous =>
    let mixed := List.zipWith (· ^^^ ·) first previous
    let block := sha256Bytes (mixed ++ [UInt8.ofNat index] ++ tag)
    block ++ expandBlocks first tag count (index + 1) block

/-- `32 * count` uniform bytes from a message. -/
def expandMessage (message tag : List UInt8) (count : Nat) : List UInt8 :=
  let tag := tag ++ [UInt8.ofNat tag.length]
  let first := sha256Bytes
    (List.replicate 64 0 ++ message ++ Bytes.ofNat 2 (32 * count) ++ [0] ++ tag)
  expandBlocks first tag count 1 (List.replicate 32 0)

/-- The residue of the number that 64 bytes spell. -/
def fieldElement (bytes : List UInt8) (index : Nat) : Fp :=
  Fp.ofNat (Bytes.toNat ((bytes.drop (64 * index)).take 64))

/-! ## The map to the curve -/

namespace Isogenous

/-- The linear coefficient of the isogenous curve. -/
def a : Fp2 := ⟨0, ⟨240⟩⟩

/-- The constant coefficient of the isogenous curve. -/
def b : Fp2 := ⟨⟨1012⟩, ⟨1012⟩⟩

/-- The nonsquare that the map is built on. -/
def z : Fp2 := -⟨⟨2⟩, ⟨1⟩⟩

/-- `x³ + a · x + b`. -/
def rightSide (x : Fp2) : Fp2 := x * x * x + a * x + b

/-- `-b / a`. -/
def ratio : Fp2 := -(b * a.inverse)

/-- `b / (z · a)`. -/
def exceptional : Fp2 := b * (z * a).inverse

/-- The coordinates of a point of the isogenous curve for a field element. -/
def ofElement (u : Fp2) : Fp2 × Fp2 :=
  let zu := z * (u * u)
  let t := zu * zu + zu
  let x1 := if t = 0 then exceptional else ratio * (1 + t.inverse)
  let (x, y) :=
    match (rightSide x1).sqrt? with
    | some y => (x1, y)
    | none =>
      let x2 := zu * x1
      (x2, ((rightSide x2).sqrt?).getD 0)
  if u.sign = y.sign then (x, y) else (x, -y)

/-- The value at `x` of the polynomial whose coefficients are given from the constant one on. -/
def evaluate (x : Fp2) (coefficients : List Fp2) : Fp2 :=
  coefficients.foldr (fun c acc => c + x * acc) 0

/-- A pair of two numbers. -/
def pair (re im : Nat) : Fp2 := ⟨⟨re⟩, ⟨im⟩⟩

/-- The numerator of the first coordinate of the isogeny. -/
def xNumerator : List Fp2 := [
  pair 0x5c759507e8e333ebb5b7a9a47d7ed8532c52d39fd3a042a88b58423c50ae15d5c2638e343d9c71c6238aaaaaaaa97d6
    0x5c759507e8e333ebb5b7a9a47d7ed8532c52d39fd3a042a88b58423c50ae15d5c2638e343d9c71c6238aaaaaaaa97d6,
  pair 0 0x11560bf17baa99bc32126fced787c88f984f87adf7ae0c7f9a208c6b4f20a4181472aaa9cb8d555526a9ffffffffc71a,
  pair 0x11560bf17baa99bc32126fced787c88f984f87adf7ae0c7f9a208c6b4f20a4181472aaa9cb8d555526a9ffffffffc71e
    0x8ab05f8bdd54cde190937e76bc3e447cc27c3d6fbd7063fcd104635a790520c0a395554e5c6aaaa9354ffffffffe38d,
  pair 0x171d6541fa38ccfaed6dea691f5fb614cb14b4e7f4e810aa22d6108f142b85757098e38d0f671c7188e2aaaaaaaa5ed1 0]

/-- The denominator of the first coordinate of the isogeny. -/
def xDenominator : List Fp2 := [pair 0 (modulus - 72), pair 12 (modulus - 12), 1]

/-- The numerator of the second coordinate of the isogeny. -/
def yNumerator : List Fp2 := [
  pair 0x1530477c7ab4113b59a4c18b076d11930f7da5d4a07f649bf54439d87d27e500fc8c25ebf8c92f6812cfc71c71c6d706
    0x1530477c7ab4113b59a4c18b076d11930f7da5d4a07f649bf54439d87d27e500fc8c25ebf8c92f6812cfc71c71c6d706,
  pair 0 0x5c759507e8e333ebb5b7a9a47d7ed8532c52d39fd3a042a88b58423c50ae15d5c2638e343d9c71c6238aaaaaaaa97be,
  pair 0x11560bf17baa99bc32126fced787c88f984f87adf7ae0c7f9a208c6b4f20a4181472aaa9cb8d555526a9ffffffffc71c
    0x8ab05f8bdd54cde190937e76bc3e447cc27c3d6fbd7063fcd104635a790520c0a395554e5c6aaaa9354ffffffffe38f,
  pair 0x124c9ad43b6cf79bfbf7043de3811ad0761b0f37a1e26286b0e977c69aa274524e79097a56dc4bd9e1b371c71c718b10 0]

/-- The denominator of the second coordinate of the isogeny. -/
def yDenominator : List Fp2 :=
  [pair (modulus - 432) (modulus - 432), pair 0 (modulus - 216), pair 18 (modulus - 18), 1]

/-- The isogeny to the second curve. -/
def toCurve (x y : Fp2) : G2.Point :=
  let xd := evaluate x xDenominator
  let yd := evaluate x yDenominator
  if xd = 0 || yd = 0 then .infinity
  else
    .affine (evaluate x xNumerator * xd.inverse) (y * evaluate x yNumerator * yd.inverse)

end Isogenous

/-- A point of the second curve for a field element. -/
def mapToCurve (u : Fp2) : G2.Point :=
  let (x, y) := Isogenous.ofElement u
  Isogenous.toCurve x y

/-! ## The subgroup -/

/-- The factors by which the endomorphism multiplies conjugated coordinates. -/
def endomorphismFactors : Fp2 × Fp2 :=
  ((power (1 : Fp2) ⟨1, 1⟩ ((modulus - 1) / 3)).inverse,
    (power (1 : Fp2) ⟨1, 1⟩ ((modulus - 1) / 2)).inverse)

/-- The endomorphism of the second curve that comes from the power by the prime. -/
def endomorphism : G2.Point → G2.Point
  | .infinity => .infinity
  | .affine x y =>
    let (fx, fy) := endomorphismFactors
    .affine (fx * x.conjugate) (fy * y.conjugate)

/-- A multiple of the point that lies in the subgroup of prime order: with `t` the curve
parameter, the sum of `t² - t - 1` times the point, `t - 1` times its image and its second image
doubled. -/
def clearCofactor (p : G2.Point) : G2.Point :=
  let tp := (p.times parameter).neg
  let ttp := (tp.times parameter).neg
  let q := endomorphism p
  let tq := (q.times parameter).neg
  let r := endomorphism (endomorphism (p.add p))
  let s := (ttp.add tp.neg).add p.neg
  (s.add (tq.add q.neg)).add r

/-- The tag that keeps these hashes apart from others of the same message. -/
def domainSeparationTag : List UInt8 :=
  "BLS_SIG_BLS12381G2_XMD:SHA-256_SSWU_RO_POP_".toUTF8.toList

/-- The point of the second group that stands for a message. -/
def hashToGroup (message : List UInt8) : G2.Point :=
  let bytes := expandMessage message domainSeparationTag 8
  let u0 : Fp2 := ⟨fieldElement bytes 0, fieldElement bytes 1⟩
  let u1 : Fp2 := ⟨fieldElement bytes 2, fieldElement bytes 3⟩
  clearCofactor ((mapToCurve u0).add (mapToCurve u1))

end ForkChoice.Bls
