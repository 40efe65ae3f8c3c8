import ForkChoice.Wire.Value

/-!
# ForkChoice — the tokens of a document

A document is written in JSON: marks, texts in quotes, numbers and three words, with blanks
between them.

* `Token` — the tokens;
* `Numeral` — numbers as they are written, `Numeral.value?` — the numbers that they stand for;
* `Token.quoted?` — the rest of a text in quotes;
* `Token.next?` — the first token, `Token.all?` — all tokens.

An integer is read exactly if it has 64 bits. Any other number has double precision, and those of
its digits that make it longer than a word are taken for zeros.
-/

namespace ForkChoice

/-- What a document is written with. -/
inductive Token where
  | listStart
  | listEnd
  | objectStart
  | objectEnd
  | comma
  | colon
  | text (value : String)
  /-- A number, a truth value or nothing. -/
  | atom (value : Value)

/-! ## Numbers -/

/-- A number as it is written. -/
structure Numeral where
  negative : Bool
  /-- The digits in front of the point. -/
  whole : List Char
  /-- The digits after the point, if there is one. -/
  fraction : Option (List Char)
  /-- The power of ten, if one is written. -/
  exponent : Option Int

namespace Numeral

/-- The value of a digit. -/
def digitValue (c : Char) : Nat := c.toNat - 48

/-- The number that digits stand for. -/
def ofDigits (digits : List Char) : Nat := digits.foldl (fun n c => n * 10 + digitValue c) 0

/-- Appends digits to a number as long as it is a word, and counts the digits that are left. -/
def append : Nat → List Char → Nat × Nat
  | n, [] => (n, 0)
  | n, c :: rest =>
    let longer := n * 10 + digitValue c
    if longer < UInt64.size then append longer rest else (n, rest.length + 1)

/-- The number of double precision that is read. -/
def double? (n : Numeral) : Option Double := do
  let fraction := n.fraction.getD []
  let (digits, left) := append 0 n.whole
  let (digits, ignored) := append digits fraction
  let exponent := (left : Int) - (fraction.length - ignored : Nat) + n.exponent.getD 0
  let d ← Double.ofDecimal? digits exponent
  return if n.negative then d.neg else d

/-- The integer that is read: zero has no sign, and a negative one is not below `-2 ^ 63`. -/
def integer? (n : Numeral) : Option Int :=
  match n.fraction, n.exponent with
  | none, none =>
    let size := ofDigits n.whole
    if n.negative then if 0 < size ∧ size ≤ 9223372036854775808 then some (-size) else none
    else if size < UInt64.size then some size else none
  | _, _ => none

/-- The number that is read, unless it is too great. -/
def value? (n : Numeral) : Option Value :=
  match n.integer? with
  | some i => some (.integer i)
  | none => n.double?.map .float

/-! ### Parts -/

/-- The digits in front of a text, of which there must be one. -/
def digits? (text : List Char) : Option (List Char × List Char) :=
  match text.span Char.isDigit with
  | ([], _) => none
  | found => some found

/-- The digits in front of the point: the first one is zero only if it is the only one. -/
def whole? (text : List Char) : Option (List Char × List Char) := do
  match ← digits? text with
  | ('0' :: _ :: _, _) => none
  | found => some found

/-- The point and the digits after it, if there is one. -/
def fraction? : List Char → Option (Option (List Char) × List Char)
  | '.' :: text => (digits? text).map fun (digits, rest) => (some digits, rest)
  | text => some (none, text)

/-- The sign of an exponent, if there is one. -/
def sign : List Char → Bool × List Char
  | '-' :: rest => (true, rest)
  | '+' :: rest => (false, rest)
  | text => (false, text)

/-- The digits of an exponent and its sign. -/
def power? (text : List Char) : Option (Option Int × List Char) := do
  let (negative, text) := sign text
  let (digits, rest) ← digits? text
  let size : Int := ofDigits digits
  return (some (if negative then -size else size), rest)

/-- The exponent, if there is one. -/
def exponent? : List Char → Option (Option Int × List Char)
  | 'e' :: text => power? text
  | 'E' :: text => power? text
  | text => some (none, text)

/-- The number without its sign. -/
def unsigned? (negative : Bool) (text : List Char) : Option (Numeral × List Char) := do
  let (whole, rest) ← whole? text
  let (fraction, rest) ← fraction? rest
  let (exponent, rest) ← exponent? rest
  return (⟨negative, whole, fraction, exponent⟩, rest)

/-- The number in front of a text, and what follows it. -/
def read? : List Char → Option (Numeral × List Char)
  | '-' :: text => unsigned? true text
  | text => unsigned? false text

end Numeral

namespace Token

/-! ## Texts -/

/-- The character that stands after the mark of an escape for another one. -/
def unescape? (c : Char) : Option Char :=
  match c with
  | '\x22' => some '\x22'
  | '\x5c' => some '\x5c'
  | '/' => some '/'
  | 'b' => some '\x08'
  | 'f' => some '\x0c'
  | 'n' => some '\n'
  | 'r' => some '\r'
  | 't' => some '\t'
  | _ => none

/-- The number that four hexadecimal digits stand for. -/
def unit? (a b c d : Char) : Option Nat :=
  [a, b, c, d].foldlM (fun n c => do return n * 16 + (← Hex.value? c)) 0

/-- The character with a number, which must not be half of a pair. -/
def single? (unit : Nat) : Option Char :=
  if unit < 0xD800 ∨ 0xDFFF < unit then some (Char.ofNat unit) else none

/-- The character that a pair of numbers stands for. -/
def pair? (high low : Nat) : Option Char :=
  if 0xD800 ≤ high ∧ high < 0xDC00 ∧ 0xDC00 ≤ low ∧ low < 0xE000 then
    some (Char.ofNat (0x10000 + (high - 0xD800) * 1024 + (low - 0xDC00)))
  else none

/-- The character at the start of a text in quotes, and what follows it: the character itself, an
escape, or one or two escapes with a number. -/
def character? : List Char → Option (Char × List Char)
  | '\x5c' :: 'u' :: a :: b :: c :: d :: rest => do
    let unit ← unit? a b c d
    match single? unit, rest with
    | some found, rest => return (found, rest)
    | none, '\x5c' :: 'u' :: a :: b :: c :: d :: rest =>
      return (← pair? unit (← unit? a b c d), rest)
    | none, _ => none
  | '\x5c' :: c :: rest => do return (← unescape? c, rest)
  | c :: rest => if 32 ≤ c.toNat then some (c, rest) else none
  | [] => none

/-- The rest of a text in quotes after the characters in `read`, the last of them first, and what
follows the quotes; each step takes one of `fuel`. -/
def quotedAfter? (read : List Char) : Nat → List Char → Option (String × List Char)
  | 0, _ => none
  | fuel + 1, characters =>
    match characters with
    | '\x22' :: rest => some (String.ofList read.reverse, rest)
    | other =>
      match character? other with
      | some (c, rest) => quotedAfter? (c :: read) fuel rest
      | none => none

/-! ## Tokens -/

/-- Whether a character may stand between tokens. -/
def isBlank (c : Char) : Bool := c = ' ' || c = '\t' || c = '\n' || c = '\r'

/-- The first token of a text that does not begin with a blank, and what follows it. A text in
quotes is no longer than `fuel`. -/
def next? (fuel : Nat) : List Char → Option (Token × List Char)
  | '[' :: rest => some (.listStart, rest)
  | ']' :: rest => some (.listEnd, rest)
  | '\x7b' :: rest => some (.objectStart, rest)
  | '\x7d' :: rest => some (.objectEnd, rest)
  | ',' :: rest => some (.comma, rest)
  | ':' :: rest => some (.colon, rest)
  | '\x22' :: rest => (quotedAfter? [] fuel rest).map fun (value, rest) => (.text value, rest)
  | 'n' :: 'u' :: 'l' :: 'l' :: rest => some (.atom .null, rest)
  | 't' :: 'r' :: 'u' :: 'e' :: rest => some (.atom (.bool true), rest)
  | 'f' :: 'a' :: 'l' :: 's' :: 'e' :: rest => some (.atom (.bool false), rest)
  | other => do
    let (numeral, rest) ← Numeral.read? other
    return (.atom (← numeral.value?), rest)

/-- All tokens of a text after those in `read`, the last of them first; each step takes one of
`fuel`. -/
def allAfter? (read : List Token) : Nat → List Char → Option (List Token)
  | 0, _ => none
  | fuel + 1, characters =>
    match characters.dropWhile isBlank with
    | [] => some read.reverse
    | other =>
      match next? (fuel + 1) other with
      | some (token, rest) => allAfter? (token :: read) fuel rest
      | none => none

/-- All tokens of a text. -/
def all? (text : String) : Option (List Token) :=
  let characters := text.toList
  allAfter? [] (characters.length + 1) characters

end Token

end ForkChoice
