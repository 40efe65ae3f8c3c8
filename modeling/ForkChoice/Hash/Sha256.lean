/-!
# ForkChoice — SHA-256

The message is a bit vector of any length, first bit most significant. It is extended by a one
bit, zeros and its length in 64 bits to a multiple of 512 bits, and each block of 512 bits is
compressed into eight words of 32 bits.

* `Sha256.compress` — one block;
* `Sha256.digest` — the hash of a message.
-/

namespace ForkChoice.Sha256

/-- The first 32 bits of the fractional parts of the cube roots of the first 64 primes. -/
def roundConstants : Array UInt32 := #[
  0x428a2f98, 0x71374491, 0xb5c0fbcf, 0xe9b5dba5, 0x3956c25b, 0x59f111f1, 0x923f82a4, 0xab1c5ed5,
  0xd807aa98, 0x12835b01, 0x243185be, 0x550c7dc3, 0x72be5d74, 0x80deb1fe, 0x9bdc06a7, 0xc19bf174,
  0xe49b69c1, 0xefbe4786, 0x0fc19dc6, 0x240ca1cc, 0x2de92c6f, 0x4a7484aa, 0x5cb0a9dc, 0x76f988da,
  0x983e5152, 0xa831c66d, 0xb00327c8, 0xbf597fc7, 0xc6e00bf3, 0xd5a79147, 0x06ca6351, 0x14292967,
  0x27b70a85, 0x2e1b2138, 0x4d2c6dfc, 0x53380d13, 0x650a7354, 0x766a0abb, 0x81c2c92e, 0x92722c85,
  0xa2bfe8a1, 0xa81a664b, 0xc24b8b70, 0xc76c51a3, 0xd192e819, 0xd6990624, 0xf40e3585, 0x106aa070,
  0x19a4c116, 0x1e376c08, 0x2748774c, 0x34b0bcb5, 0x391c0cb3, 0x4ed8aa4a, 0x5b9cca4f, 0x682e6ff3,
  0x748f82ee, 0x78a5636f, 0x84c87814, 0x8cc70208, 0x90befffa, 0xa4506ceb, 0xbef9a3f7, 0xc67178f2]

/-- The eight words that are carried from block to block. -/
structure Chaining where
  a : UInt32
  b : UInt32
  c : UInt32
  d : UInt32
  e : UInt32
  f : UInt32
  g : UInt32
  h : UInt32
  deriving Inhabited

/-- The first 32 bits of the fractional parts of the square roots of the first eight primes. -/
def initial : Chaining :=
  ⟨0x6a09e667, 0xbb67ae85, 0x3c6ef372, 0xa54ff53a, 0x510e527f, 0x9b05688c, 0x1f83d9ab, 0x5be0cd19⟩

/-- Rotates a word to the right by `n` of its 32 bits. -/
@[inline] def rotateRight (x n : UInt32) : UInt32 :=
  (x >>> n) ||| (x <<< (32 - n))

/-- The first of the two mixing functions of the message schedule. -/
@[inline] def spread0 (x : UInt32) : UInt32 :=
  rotateRight x 7 ^^^ rotateRight x 18 ^^^ (x >>> 3)

/-- The second of the two mixing functions of the message schedule. -/
@[inline] def spread1 (x : UInt32) : UInt32 :=
  rotateRight x 17 ^^^ rotateRight x 19 ^^^ (x >>> 10)

/-- The last `count` of the 64 rounds, with the next sixteen words of the message schedule at
hand; each round consumes the first and appends the sixteenth after it. -/
def rounds (count : Nat) (a b c d e f g h : UInt32)
    (w0 w1 w2 w3 w4 w5 w6 w7 w8 w9 w10 w11 w12 w13 w14 w15 : UInt32) : Chaining :=
  match count with
  | 0 => ⟨a, b, c, d, e, f, g, h⟩
  | count + 1 =>
    let s1 := rotateRight e 6 ^^^ rotateRight e 11 ^^^ rotateRight e 25
    let choice := (e &&& f) ^^^ ((~~~ e) &&& g)
    let t1 := h + s1 + choice + roundConstants.getD (63 - count) 0 + w0
    let s0 := rotateRight a 2 ^^^ rotateRight a 13 ^^^ rotateRight a 22
    let majority := (a &&& b) ^^^ (a &&& c) ^^^ (b &&& c)
    rounds count (t1 + s0 + majority) a b c (d + t1) e f g
      w1 w2 w3 w4 w5 w6 w7 w8 w9 w10 w11 w12 w13 w14 w15
      (spread1 w14 + w9 + spread0 w1 + w0)

/-- Mixes a block of 512 bits, given as eight words of 64 bits, into the chaining words. -/
def compress (s : Chaining) (b0 b1 b2 b3 b4 b5 b6 b7 : UInt64) : Chaining :=
  let high (b : UInt64) : UInt32 := (b >>> 32).toUInt32
  let low (b : UInt64) : UInt32 := b.toUInt32
  let t := rounds 64 s.a s.b s.c s.d s.e s.f s.g s.h
    (high b0) (low b0) (high b1) (low b1) (high b2) (low b2) (high b3) (low b3)
    (high b4) (low b4) (high b5) (low b5) (high b6) (low b6) (high b7) (low b7)
  ⟨s.a + t.a, s.b + t.b, s.c + t.c, s.d + t.d, s.e + t.e, s.f + t.f, s.g + t.g, s.h + t.h⟩

/-- Compresses the last `count` blocks of the padded message. -/
def compressAll (padded : Nat) : Nat → Chaining → Chaining
  | 0, s => s
  | count + 1, s =>
    let word (i : Nat) : UInt64 := (padded >>> (512 * count + 64 * i)).toUInt64
    compressAll padded count
      (compress s (word 7) (word 6) (word 5) (word 4) (word 3) (word 2) (word 1) (word 0))

/-- The hash that the chaining words spell. -/
def Chaining.toBitVec (s : Chaining) : BitVec 256 :=
  let join (x y : UInt32) : Nat := ((x.toUInt64 <<< 32) ||| y.toUInt64).toNat
  BitVec.ofNat 256
    (((join s.a s.b <<< 64 ||| join s.c s.d) <<< 64 ||| join s.e s.f) <<< 64 ||| join s.g s.h)

/-- The hash of a message of fewer than `2 ^ 64` bits. -/
def digest {width : Nat} (message : BitVec width) : BitVec 256 :=
  let blocks := (width + 65 + 511) / 512
  let filler := 512 * blocks - width
  let padded := (message.toNat <<< filler) + (1 <<< (filler - 1)) + width
  (compressAll padded blocks initial).toBitVec

end ForkChoice.Sha256
