import ForkChoice.Merkle

/-!
# ForkChoice — bit lists

A list of bits with a greatest length. In text a bit list is a hexadecimal string: its bits and
one more set bit, the delimiter, are packed from the least significant bit of the first byte on.

* `BitList.ofBits`, `BitList.zeros` — construction, which fails beyond the greatest length;
* `BitList.get`, `BitList.set`, `BitList.union`, `BitList.intersects`, `BitList.ones` — bits;
* `BitList.toHex`, `BitList.ofHex` — the text, and the errors of reading it;
* `BitList.root` — the hash tree root.
-/

namespace ForkChoice

/-- A list of at most `limit` bits. -/
structure BitList (limit : Nat) where
  bits : List Bool
  length_le : bits.length ≤ limit
  deriving DecidableEq

/-- A bit list of the given length would exceed its greatest length. -/
structure TooLong where
  length : Nat
  maximum : Nat
  deriving Repr, DecidableEq

/-- The text of the error. -/
def TooLong.message (e : TooLong) : String :=
  s!"bitlist is longer than its maximum length ({e.length} > {e.maximum})"

/-- Why a text is not a bit list. -/
inductive BitListTextError where
  | oddNumberOfDigits
  | invalidCharacter (character : Char) (position : Nat)
  | missingDelimiter
  | tooLong (reason : TooLong)
  deriving Repr, DecidableEq

/-- A character below 256 between apostrophes: characters that would not show, the apostrophe and
the backslash are escaped. -/
def quoted (c : Char) : String :=
  let n := c.toNat
  let inner :=
    if c = '\'' then "\\'" else if c = '\\' then "\\\\"
    else if n = 0 then "\\0" else if n = 9 then "\\t" else if n = 10 then "\\n" else if n = 13 then "\\r"
    else if n < 32 ∨ 127 ≤ n ∧ n ≤ 160 ∨ n = 173 then
      "\\u\x7b" ++ String.ofList (Nat.toDigits 16 n) ++ "\x7d"
    else String.singleton c
  "'" ++ inner ++ "'"

/-- The text of the error. -/
def BitListTextError.message : BitListTextError → String
  | .oddNumberOfDigits => "Odd number of digits"
  | .invalidCharacter character position =>
    "Invalid character " ++ quoted character ++ " at position " ++ toString position
  | .missingDelimiter => "bitlist has no delimiting bit"
  | .tooLong reason => reason.message

namespace BitList

variable {limit : Nat}

instance : Inhabited (BitList limit) := ⟨⟨[], Nat.zero_le _⟩⟩

/-- The bit list without bits. -/
def empty : BitList limit := ⟨[], Nat.zero_le _⟩

/-- The bit list of the given bits. -/
def ofBits (bits : List Bool) : Except TooLong (BitList limit) :=
  if h : bits.length ≤ limit then .ok ⟨bits, h⟩ else .error ⟨bits.length, limit⟩

/-- The bit list of `length` zeros. -/
def zeros (length : Nat) : Except TooLong (BitList limit) :=
  if h : length ≤ limit then .ok ⟨List.replicate length false, by simpa using h⟩
  else .error ⟨length, limit⟩

/-- The number of bits. -/
def length (b : BitList limit) : Nat := b.bits.length

/-- Whether there are no bits. -/
def isEmpty (b : BitList limit) : Bool := b.bits.isEmpty

/-- The bit at `index`; bits beyond the last one are zero. -/
def get (b : BitList limit) (index : Nat) : Bool := b.bits.getD index false

/-- Replaces the bit at `index`; an index beyond the last bit changes nothing. -/
def set (b : BitList limit) (index : Nat) (value : Bool) : BitList limit :=
  ⟨b.bits.set index value, by simpa using b.length_le⟩

/-- The number of bits that are set. -/
def count (b : BitList limit) : Nat := b.bits.count true

/-- Whether any bit is set. -/
def any (b : BitList limit) : Bool := b.bits.any id

/-- The positions, counted from `start`, of the bits that are set. -/
def onesFrom : Nat → List Bool → List Nat
  | _, [] => []
  | start, true :: rest => start :: onesFrom (start + 1) rest
  | start, false :: rest => onesFrom (start + 1) rest

/-- The positions of the bits that are set, in ascending order. -/
def ones (b : BitList limit) : List Nat := onesFrom 0 b.bits

/-- Bitwise disjunction; the result is as long as the first list. -/
def orBits : List Bool → List Bool → List Bool
  | [], _ => []
  | a :: as, [] => a :: as
  | a :: as, b :: bs => (a || b) :: orBits as bs

theorem length_orBits (as bs : List Bool) : (orBits as bs).length = as.length := by
  induction as generalizing bs with
  | nil => rfl
  | cons a as ih => cases bs with
    | nil => rfl
    | cons b bs => simp [orBits, ih]

/-- Sets every bit that is set in `other`; bits of `other` beyond the last one are dropped. -/
def union (b other : BitList limit) : BitList limit :=
  ⟨orBits b.bits other.bits, by rw [length_orBits]; exact b.length_le⟩

/-- Whether some position is set in both lists. -/
def intersects (b other : BitList limit) : Bool :=
  (b.bits.zip other.bits).any fun (x, y) => x && y

/-- The digits of the bits, first bit first. -/
def digits (b : BitList limit) : String :=
  String.ofList (b.bits.map fun bit => if bit then '1' else '0')

/-! ## Text -/

/-- The number whose binary digits are the bits, least significant first. -/
def packed : List Bool → Nat
  | [] => 0
  | bit :: rest => bit.toNat + 2 * packed rest

/-- The `count` least significant binary digits of a number, least significant first. -/
def unpacked : Nat → Nat → List Bool
  | 0, _ => []
  | count + 1, n => (n % 2 == 1) :: unpacked count (n / 2)

/-- Bytes that hold the bits, least significant bit first. -/
def bytesOf (bits : List Bool) : List UInt8 :=
  Bytes.littleEndian ((bits.length + 7) / 8) (packed bits)

/-- The bits of bytes, least significant bit first. -/
def bitsOf (bytes : List UInt8) : List Bool :=
  bytes.flatMap fun byte => unpacked 8 byte.toNat

/-- The text: the bits and the delimiter in hexadecimal. -/
def toHex (b : BitList limit) : String :=
  Hex.ofBytes (bytesOf (b.bits ++ [true]))

/-- The bits in front of the last bit that is set. -/
def beforeDelimiter (bits : List Bool) : Option (List Bool) :=
  match bits.reverse.dropWhile (! ·) with
  | [] => none
  | _ :: rest => some rest.reverse

/-- The first byte of UTF-8 text, with its position, that is not a hexadecimal digit. -/
def firstInvalid? : Nat → List UInt8 → Option (Char × Nat)
  | _, [] => none
  | position, byte :: rest =>
    let c := Char.ofNat byte.toNat
    if (Hex.value? c).isSome then firstInvalid? (position + 1) rest else some (c, position)

/-- Reads a text whose mark of hexadecimal text, if any, has been removed. -/
def ofDigits (text : List Char) : Except BitListTextError (BitList limit) :=
  let bytes := (String.ofList text).toUTF8.toList
  if bytes.length % 2 = 1 then .error .oddNumberOfDigits
  else
    match firstInvalid? 0 bytes with
    | some (character, position) => .error (.invalidCharacter character position)
    | none =>
      match (Hex.decode text).bind fun bytes => beforeDelimiter (bitsOf bytes) with
      | none => .error .missingDelimiter
      | some bits =>
        match ofBits bits with
        | .ok b => .ok b
        | .error reason => .error (.tooLong reason)

/-- Reads the text of a bit list; the mark of hexadecimal text in front is optional. -/
def ofHex (text : String) : Except BitListTextError (BitList limit) :=
  ofDigits (Hex.stripMark text.toList)

/-! ## Root -/

/-- The hash tree root. -/
def root [HashFunction] (b : BitList limit) : Checked Root := do
  let chunks := Merkle.packBytes (bytesOf b.bits)
  let tree ← Merkle.merkleize chunks (← Merkle.depthFor ((limit + 255) / 256))
  return Merkle.mixInLength tree b.length

end BitList

end ForkChoice
