import ForkChoice.Bls.Curve
import ForkChoice.Bytes

/-!
# ForkChoice — compressed points of BLS12-381

A point is written as its first coordinate, big-endian, with three marks in the top bits: the
form is compressed; the point is at infinity, and all else is zero; the second coordinate is the
greater of the two that are possible. A pair is written imaginary part first.

* `G1.compress`, `G1.decompress?` — 48 bytes;
* `G2.compress`, `G2.decompress?` — 96 bytes.
-/

namespace ForkChoice.Bls

/-- The three marks of a compressed point. -/
structure Marks where
  compressed : Bool
  infinity : Bool
  greater : Bool

/-- The marks in the top bits of a number of `width` bits. -/
def Marks.read (width n : Nat) : Marks :=
  ⟨n.testBit (width - 1), n.testBit (width - 2), n.testBit (width - 3)⟩

/-- The marks as a number of `width` bits. -/
def Marks.write (m : Marks) (width : Nat) : Nat :=
  (4 * m.compressed.toNat + 2 * m.infinity.toNat + m.greater.toNat) <<< (width - 3)

namespace G1

/-- The 48 bytes of a point. -/
def compress : Point → PublicKeyBytes
  | .infinity => BitVec.ofNat 384 ((Marks.mk true true false).write 384)
  | .affine x y => BitVec.ofNat 384 ((Marks.mk true false y.isGreater).write 384 + x.value)

/-- The point of the curve that 48 bytes stand for. -/
def decompress? (bytes : PublicKeyBytes) : Option Point :=
  let marks := Marks.read 384 bytes.toNat
  let x := (bytes.setWidth 381).toNat
  if !marks.compressed then none
  else if marks.infinity then
    if !marks.greater && x = 0 then some .infinity else none
  else if modulus ≤ x then none
  else (rightSide ⟨x⟩).sqrt?.map fun y => .affine ⟨x⟩ (if y.isGreater = marks.greater then y else -y)

end G1

namespace G2

/-- The 96 bytes of a point. -/
def compress : Point → SignatureBytes
  | .infinity => BitVec.ofNat 768 ((Marks.mk true true false).write 768)
  | .affine x y =>
    BitVec.ofNat 768
      ((Marks.mk true false y.isGreater).write 768 + (x.im.value <<< 384) + x.re.value)

/-- The point of the curve that 96 bytes stand for. -/
def decompress? (bytes : SignatureBytes) : Option Point :=
  let marks := Marks.read 768 bytes.toNat
  let im := (bytes.extractLsb' 384 381).toNat
  let re := (bytes.setWidth 384).toNat
  if !marks.compressed then none
  else if marks.infinity then
    if !marks.greater && im = 0 && re = 0 then some .infinity else none
  else if modulus ≤ im || modulus ≤ re then none
  else
    let x : Fp2 := ⟨⟨re⟩, ⟨im⟩⟩
    (rightSide x).sqrt?.map fun y => .affine x (if y.isGreater = marks.greater then y else -y)

end G2

end ForkChoice.Bls
