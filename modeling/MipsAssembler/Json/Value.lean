import MipsAssembler.Json.Token

/-!
# JSON values

`Json.parse?` reads a text that is one JSON value. It works through the tokens with a stack of the
arrays and objects that are open, which may be nested up to `Json.maxDepth`.
-/

namespace MipsAssembler

/-- A JSON value. Objects keep every member in order, also those of one name. -/
inductive Json where
  | null
  | bool (value : Bool)
  | number (literal : Bytes)
  | string (chars : List Char)
  | array (items : List Json)
  | object (members : List (List Char × Json))

namespace Json

/-- The number of arrays and objects that may be open at a time. -/
def maxDepth : Nat := 10000

/-- An array or object that is open; what it holds, newest first. -/
inductive Frame where
  /-- An array. -/
  | array (items : List Json)
  /-- An object, and the name of the member whose value is to come. -/
  | object (members : List (List Char × Json)) (name : List Char)

/-- What may come next. -/
inductive Expected where
  /-- A value. -/
  | value
  /-- The first value of an array, or its end. -/
  | firstValue
  /-- The name of a member. -/
  | name
  /-- The name of the first member of an object, or its end. -/
  | firstName
  /-- The colon behind a name. -/
  | colon
  /-- A comma, or the end of what is open. -/
  | separator
  deriving DecidableEq, Repr

/-- A text, read so far. -/
structure Parsing where
  /-- What is open, innermost first. -/
  frames : List Frame := []
  /-- What may come next, while something is open or nothing was read. -/
  expected : Expected := .value
  /-- The value, once it is complete. -/
  result : Option Json := none

namespace Parsing

/-- Puts a complete value where it belongs. -/
def complete (p : Parsing) (v : Json) : Parsing :=
  match p.frames with
  | [] => { result := some v }
  | .array items :: frames => ⟨.array (v :: items) :: frames, .separator, none⟩
  | .object members name :: frames => ⟨.object ((name, v) :: members) [] :: frames, .separator, none⟩

/-- Opens an array or object. -/
def push (p : Parsing) (frame : Frame) (expected : Expected) : Option Parsing :=
  if p.frames.length < maxDepth then some ⟨frame :: p.frames, expected, none⟩ else none

/-- Closes the array that is open. -/
def closeArray (p : Parsing) : Option Parsing :=
  match p.frames with
  | .array items :: frames => some ({ p with frames }.complete (.array items.reverse))
  | _ => none

/-- Closes the object that is open. -/
def closeObject (p : Parsing) : Option Parsing :=
  match p.frames with
  | .object members _ :: frames => some ({ p with frames }.complete (.object members.reverse))
  | _ => none

/-- Reads a token where a value may stand. -/
def value (p : Parsing) : Token → Option Parsing
  | .null => some (p.complete .null)
  | .true => some (p.complete (.bool .true))
  | .false => some (p.complete (.bool .false))
  | .number literal => some (p.complete (.number literal))
  | .string chars => some (p.complete (.string chars))
  | .openArray => p.push (.array []) .firstValue
  | .openObject => p.push (.object [] []) .firstName
  | _ => none

/-- Reads a token where the name of a member may stand. -/
def name (p : Parsing) : Token → Option Parsing
  | .string chars =>
    match p.frames with
    | .object members _ :: frames => some ⟨.object members chars :: frames, .colon, none⟩
    | _ => none
  | _ => none

/-- Reads the token behind a complete item. -/
def separator (p : Parsing) : Token → Option Parsing
  | .closeArray => p.closeArray
  | .closeObject => p.closeObject
  | .comma =>
    match p.frames with
    | .array _ :: _ => some { p with expected := .value }
    | .object .. :: _ => some { p with expected := .name }
    | [] => none
  | _ => none

/-- Reads a token; nothing may stand behind a complete value. -/
def step (p : Parsing) (token : Token) : Option Parsing :=
  if p.result.isSome then none
  else
    match p.expected with
    | .value => p.value token
    | .firstValue => if token = .closeArray then p.closeArray else p.value token
    | .name => p.name token
    | .firstName => if token = .closeObject then p.closeObject else p.name token
    | .colon => if token = .colon then some { p with expected := .value } else none
    | .separator => p.separator token

end Parsing

/-- The value that a text is. -/
def parse? (text : Bytes) : Option Json := do
  let tokens ← lex? text
  let parsing ← tokens.foldlM Parsing.step {}
  parsing.result

end Json

end MipsAssembler
