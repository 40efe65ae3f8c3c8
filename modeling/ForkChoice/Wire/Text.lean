import ForkChoice.Wire.Token

/-!
# ForkChoice — documents as texts

Documents are read from texts and written to texts.

* `Reading` — how far a document has been read, `Reading.step` — one more token;
* `Value.parse?` — the document that a text is;
* `Value.render` — the text of a document, without blanks.

A field that occurs more than once has its last value.
-/

namespace ForkChoice

/-- A list or an object that waits for one of its values. What has been read of it comes last
first. -/
inductive Frame where
  | list (read : List Value)
  | object (read : List (String × Value)) (key : String)

/-- How far a document has been read: what comes next in which list or object. The innermost list
or object that waits for this one comes first in `outer`. -/
inductive Reading where
  /-- A value comes next. -/
  | value (outer : List Frame)
  /-- The first element or the end of a list comes next. -/
  | element (outer : List Frame)
  /-- A comma or the end of a list comes next. -/
  | afterElement (read : List Value) (outer : List Frame)
  /-- The first name or the end of an object comes next. -/
  | field (outer : List Frame)
  /-- A name comes next. -/
  | name (read : List (String × Value)) (outer : List Frame)
  /-- A colon comes next. -/
  | afterName (read : List (String × Value)) (key : String) (outer : List Frame)
  /-- A comma or the end of an object comes next. -/
  | afterField (read : List (String × Value)) (outer : List Frame)
  /-- Nothing comes next. -/
  | complete (value : Value)

namespace Reading

/-- Adds a field, or replaces the value that it has. -/
def putField (key : String) (v : Value) (read : List (String × Value)) : List (String × Value) :=
  if read.any fun entry => entry.1 == key then
    read.map fun entry => if entry.1 = key then (key, v) else entry
  else (key, v) :: read

/-- A value is complete. -/
def put (v : Value) : List Frame → Reading
  | [] => .complete v
  | .list read :: outer => .afterElement (v :: read) outer
  | .object read key :: outer => .afterField (putField key v read) outer

/-- A value begins. -/
def start (outer : List Frame) : Token → Option Reading
  | .listStart => some (.element outer)
  | .objectStart => some (.field outer)
  | .text s => some (put (.text s) outer)
  | .atom v => some (put v outer)
  | _ => none

/-- One more token, unless it cannot come next. -/
def step : Reading → Token → Option Reading
  | .value outer, token => start outer token
  | .element outer, .listEnd => some (put (.list []) outer)
  | .element outer, token => start (.list [] :: outer) token
  | .afterElement read outer, .comma => some (.value (.list read :: outer))
  | .afterElement read outer, .listEnd => some (put (.list read.reverse) outer)
  | .field outer, .objectEnd => some (put (.object []) outer)
  | .field outer, .text key => some (.afterName [] key outer)
  | .name read outer, .text key => some (.afterName read key outer)
  | .afterName read key outer, .colon => some (.value (.object read key :: outer))
  | .afterField read outer, .comma => some (.name read outer)
  | .afterField read outer, .objectEnd => some (put (.object read.reverse) outer)
  | _, _ => none

end Reading

namespace Value

/-- The document that tokens are. -/
def ofTokens? (tokens : List Token) : Option Value := do
  match ← tokens.foldlM Reading.step (.value []) with
  | .complete value => some value
  | _ => none

/-- The document that a text is. -/
def parse? (text : String) : Option Value := do ofTokens? (← Token.all? text)

/-! ## Writing -/

/-- A character in quotes: quotes, the mark of an escape and control characters are escaped. -/
def escape (c : Char) : List Char :=
  if c = '\x22' ∨ c = '\x5c' then ['\x5c', c]
  else if c.toNat < 32 then
    ['\x5c', 'u', '0', '0', Hex.digit (c.toNat / 16), Hex.digit (c.toNat % 16)]
  else [c]

/-- A text in quotes after `out`. -/
def quoteOnto (out text : String) : String :=
  (text.foldl (fun out c => (escape c).foldl String.push out) (out.push '\x22')).push '\x22'

mutual

/-- The text of a document after `out`. -/
def renderOnto (out : String) : Value → String
  | null => out ++ "null"
  | bool value => out ++ if value then "true" else "false"
  | integer value => out ++ toString value
  | float value => out ++ floatForm.write value
  | text value => quoteOnto out value
  | list [] => out ++ "[]"
  | list (value :: rest) => (renderElements (renderOnto (out.push '[') value) rest).push ']'
  | object [] => (out.push '\x7b').push '\x7d'
  | object ((name, value) :: rest) =>
    let first := renderOnto ((quoteOnto (out.push '\x7b') name).push ':') value
    (renderFields first rest).push '\x7d'

/-- The texts of values, each after a comma. -/
def renderElements (out : String) : List Value → String
  | [] => out
  | value :: rest => renderElements (renderOnto (out.push ',') value) rest

/-- The texts of fields, each after a comma. -/
def renderFields (out : String) : List (String × Value) → String
  | [] => out
  | (name, value) :: rest =>
    renderFields (renderOnto ((quoteOnto (out.push ',') name).push ':') value) rest

end

/-- The text of a document. -/
def render (value : Value) : String := renderOnto "" value

end Value

end ForkChoice
