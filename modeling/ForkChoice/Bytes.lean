/-!
# ForkChoice — byte strings and hexadecimal text

A byte string of fixed length is a bit vector whose first byte is the most significant one, so
that concatenation is `++` and the order of numbers is the order of byte strings. Byte strings of
no fixed length are lists of bytes.

* `Root`, `Version`, `PublicKeyBytes`, `SignatureBytes` — the fixed lengths that the chain uses;
* `Bytes.toNat`, `Bytes.ofNat` — big-endian, `Bytes.littleEndian` — little-endian numbers;
* `Hex.encode`, `Hex.decode` — two digits a byte;
* `Hex.parse?` reads a string of fixed length, in which blanks may take the place of digits.
-/

namespace ForkChoice

/-- 32 bytes: a hash, or the root of a hash tree. -/
abbrev Root := BitVec 256

/-- Four bytes that name a version of the protocol. -/
abbrev Version := BitVec 32

/-- Four bytes that tell apart the uses of a signature. -/
abbrev DomainType := BitVec 32

/-- A compressed public key, which may not be the encoding of any point. -/
abbrev PublicKeyBytes := BitVec 384

/-- A compressed signature, which may not be the encoding of any point. -/
abbrev SignatureBytes := BitVec 768

namespace Bytes

/-- The number whose big-endian digits are `bytes`. -/
def toNat (bytes : List UInt8) : Nat :=
  bytes.foldl (fun n b => n * 256 + b.toNat) 0

/-- The last `count` big-endian bytes of `n`, in front of `rest`. -/
def ofNatOnto : Nat → Nat → List UInt8 → List UInt8
  | 0, _, rest => rest
  | count + 1, n, rest => ofNatOnto count (n / 256) (UInt8.ofNat (n % 256) :: rest)

/-- The last `count` big-endian bytes of `n`. -/
def ofNat (count n : Nat) : List UInt8 :=
  ofNatOnto count n []

/-- The first `count` little-endian bytes of `n`. -/
def littleEndian : Nat → Nat → List UInt8
  | 0, _ => []
  | count + 1, n => UInt8.ofNat (n % 256) :: littleEndian count (n / 256)

/-- The bytes of a bit vector of `8 * count` bits. -/
def ofBitVec {width : Nat} (v : BitVec width) : List UInt8 :=
  ofNat (width / 8) v.toNat

/-- The bit vector of a list of bytes. -/
def toBitVec (bytes : List UInt8) : BitVec (8 * bytes.length) :=
  BitVec.ofNat _ (toNat bytes)

end Bytes

/-- The eight little-endian bytes of a word. -/
def wordBytes (value : UInt64) : BitVec 64 :=
  BitVec.ofNat 64 (Bytes.toNat (Bytes.littleEndian 8 value.toNat))

namespace Hex

/-- The lowercase digit for a number below 16. -/
def digit (n : Nat) : Char :=
  if n < 10 then Char.ofNat (48 + n) else Char.ofNat (87 + n)

/-- The value of a digit of either case. -/
def value? (c : Char) : Option Nat :=
  let n := c.toNat
  if 48 ≤ n ∧ n ≤ 57 then some (n - 48)
  else if 97 ≤ n ∧ n ≤ 102 then some (n - 87)
  else if 65 ≤ n ∧ n ≤ 70 then some (n - 55)
  else none

/-- Two lowercase digits a byte. -/
def encode (bytes : List UInt8) : List Char :=
  bytes.flatMap fun b => [digit (b.toNat / 16), digit (b.toNat % 16)]

/-- Lowercase digits with the mark of hexadecimal text in front. -/
def ofBytes (bytes : List UInt8) : String :=
  String.ofList ('0' :: 'x' :: encode bytes)

/-- The text of a byte string of fixed length. -/
def text {width : Nat} (v : BitVec width) : String :=
  ofBytes (Bytes.ofBitVec v)

/-- Reads pairs of digits of either case. -/
def decode : List Char → Option (List UInt8)
  | [] => some []
  | [_] => none
  | hi :: lo :: rest => do
    let hi ← value? hi
    let lo ← value? lo
    let rest ← decode rest
    return UInt8.ofNat (hi * 16 + lo) :: rest

/-- Removes the mark of hexadecimal text once if it is there. -/
def stripMark : List Char → List Char
  | '0' :: 'x' :: rest => rest
  | digits => digits

/-- Whether a character is passed over in front of, between and after the digits of a byte string
of fixed length. -/
def isBlank (c : Char) : Bool :=
  c = ' ' || c = '\t' || c = '\n' || c = '\r'

/-- The bytes of which the values of the digits are given; a last digit without a partner does not
count. -/
def pairs : List Nat → List UInt8
  | hi :: lo :: rest => UInt8.ofNat (hi * 16 + lo) :: pairs rest
  | _ => []

/-- Reads a text of two characters for each of `width / 8` bytes; the mark in front is optional.
Each character is a digit or a blank. Blanks are passed over, and the bytes that are missing at
the end because of them are zero. -/
def parse? (width : Nat) (s : String) : Option (BitVec width) :=
  let count := width / 8
  let characters := stripMark s.toList
  if characters.length = 2 * count then do
    let digits ← (characters.filter fun c => !isBlank c).mapM value?
    let bytes := pairs digits
    let missing := List.replicate (count - bytes.length) 0
    return BitVec.ofNat width (Bytes.toNat (bytes ++ missing))
  else none

end Hex

end ForkChoice
