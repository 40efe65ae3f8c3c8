import ForkChoice.BitList
import ForkChoice.Chain.Preset
import ForkChoice.Decimal.Shortest

/-!
# ForkChoice — documents

The objects of the chain are exchanged as documents: trees of texts, numbers, lists and named
fields.

* `Value` — documents, `Value.description` — what kind of document one is, in words;
* `Wire` — the types that have a form as documents;
* `Value.fields?` — the fields of an object, in a given order;
* the forms of words, truth values, byte strings, bit lists and lists.
-/

namespace ForkChoice

/-- A document. -/
inductive Value where
  | null
  | bool (value : Bool)
  | integer (value : Int)
  /-- A number that is not written as an integer, or that is too great for a word. -/
  | float (value : Double)
  | text (value : String)
  | list (values : List Value)
  | object (fields : List (String × Value))
  deriving Inhabited

/-- A type whose values have a form as documents. -/
class Wire (α : Type) where
  write : α → Value
  read? : Value → Option α

export Wire (write read?)

namespace Value

/-- Numbers that are no integers are written without an exponent from a hundred thousandth up to
less than ten to the sixteenth. -/
def floatForm : DecimalForm where
  least := -5
  greatest := 15

/-- What kind of document this is, with the value if it is a single one. -/
def description : Value → String
  | null => "null"
  | bool value => "boolean `" ++ toString value ++ "`"
  | integer value => "integer `" ++ toString value ++ "`"
  | float value => "floating point `" ++ floatForm.write value ++ "`"
  | text value => "string " ++ value.quote
  | list _ => "sequence"
  | object _ => "map"

/-- Why a document that is not a text is none. -/
def notTextMessage (v : Value) : String :=
  "invalid type: " ++ v.description ++ ", expected a string"

/-- The value of a field. -/
def find? (key : String) : List (String × Value) → Option Value
  | [] => none
  | (name, value) :: rest => if name = key then some value else find? key rest

/-- The values of fields in the order of `names`: from an object with exactly these fields, or
from a list with as many values. -/
def fields? (names : List String) : Value → Option (List Value)
  | object fields =>
    if fields.all fun (name, _) => names.contains name then names.mapM (find? · fields) else none
  | list values => if values.length = names.length then some values else none
  | _ => none

mutual

/-- How deep lists and objects are nested. -/
def depth : Value → Nat
  | list values => depthOfList values + 1
  | object fields => depthOfFields fields + 1
  | _ => 0

/-- The greatest depth of several documents. -/
def depthOfList : List Value → Nat
  | [] => 0
  | value :: rest => max (depth value) (depthOfList rest)

/-- The greatest depth of the values of fields. -/
def depthOfFields : List (String × Value) → Nat
  | [] => 0
  | (_, value) :: rest => max (depth value) (depthOfFields rest)

end

end Value

/-! ## Simple forms -/

/-- The word that a number stands for. -/
def Value.word? : Value → Option UInt64
  | .integer n => if 0 ≤ n ∧ n < UInt64.size then some (UInt64.ofNat n.toNat) else none
  | _ => none

instance : Wire UInt64 where
  write n := .integer n.toNat
  read? := Value.word?

instance : Wire Bool where
  write := .bool
  read?
    | .bool value => some value
    | _ => none

instance {width : Nat} : Wire (BitVec width) where
  write v := .text (Hex.text v)
  read?
    | .text s => Hex.parse? width s
    | _ => none

instance {limit : Nat} : Wire (BitList limit) where
  write b := .text b.toHex
  read?
    | .text s => (BitList.ofHex s).toOption
    | _ => none

instance {α : Type} [Wire α] : Wire (List α) where
  write xs := .list (xs.map write)
  read?
    | .list values => values.mapM read?
    | _ => none

instance {α : Type} [Wire α] : Wire (Array α) where
  write xs := write xs.toList
  read? v := (read? v : Option (List α)).map List.toArray

instance : Wire Nat where
  write n := .integer n
  read? v := v.word?.map UInt64.toNat

instance {α : Type} [Wire α] : Wire (Option α) where
  write
    | some a => write a
    | none => .null
  read?
    | .null => some none
    | v => (read? v).map some

instance {α β : Type} [Wire α] [Wire β] : Wire (α × β) where
  write p := .list [write p.1, write p.2]
  read?
    | .list [a, b] => do return (← read? a, ← read? b)
    | _ => none

instance : Wire Preset where
  write p := .text p.name
  read?
    | .text s => Preset.ofName? s
    | _ => none

instance : Wire String where
  write := .text
  read?
    | .text s => some s
    | _ => none

end ForkChoice
