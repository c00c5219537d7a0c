import MipsAssembler.Json.Value
import MipsAssembler.Settings
import MipsAssembler.Text.Numeral

/-!
# Settings files

Settings are kept in a file as a JSON object with one member per setting.

* `Settings.parse?` reads a file on top of the defaults. Names match in any case, unknown members
  are passed over, `null` leaves a setting as it is, and of several members of one name the last
  counts. Anything else that is wrong makes the whole file unusable.
* `Settings.render` writes all settings, indented by two spaces.
-/

namespace MipsAssembler

/-- The settings a file can hold. -/
inductive Setting where
  | textBase | maxArgs | imageSize | byteOrder
  deriving DecidableEq, Repr

namespace Setting

/-- The settings, in the order they are written. -/
def all : List Setting := [.textBase, .maxArgs, .imageSize, .byteOrder]

/-- The name of a setting in a file. -/
def name : Setting → String
  | .textBase => "text_base"
  | .maxArgs => "max_args"
  | .imageSize => "image_size"
  | .byteOrder => "byte_order"

/-- A character without its case. The long s and the Kelvin sign are cases of s and k. -/
def foldCase (c : Char) : Char :=
  if c = Char.ofNat 0x17f then 's' else if c = Char.ofNat 0x212a then 'k' else c.toLower

/-- The setting that a member of this name gives. -/
def ofName? (chars : List Char) : Option Setting :=
  all.find? fun s => s.name.toList == chars.map foldCase

end Setting

namespace Settings

/-! ## Reading -/

/-- The value of an unsigned number up to a limit: digits only. -/
def unsigned? (limit : Nat) : Json → Option Nat
  | .number literal => (Numeral.parse 10 limit literal).toOption
  | _ => none

/-- The value of a signed 64-bit number: digits, perhaps behind a minus sign. -/
def signed? : Json → Option Int64
  | .number (0x2d :: digits) =>
    (Numeral.parse 10 0x8000000000000000 digits).toOption.map fun n => Int64.ofInt (-n)
  | .number digits =>
    (Numeral.parse 10 0x7fffffffffffffff digits).toOption.map fun n => Int64.ofInt n
  | _ => none

/-- The bytes of a string. -/
def string? : Json → Option Bytes
  | .string chars => some (Utf8.encodeAll chars)
  | _ => none

/-- Gives a setting a value. -/
def assign? (s : Settings) (setting : Setting) (value : Json) : Option Settings :=
  match setting with
  | .textBase =>
    (unsigned? 0xffffffff value).map fun n => { s with textBase := BitVec.ofNat 32 n }
  | .maxArgs => (signed? value).map fun n => { s with maxArgs := n }
  | .imageSize =>
    (unsigned? 0xffffffffffffffff value).map fun n => { s with imageSize := UInt64.ofNat n }
  | .byteOrder => (string? value).map fun bytes => { s with byteOrder := bytes }

/-- Reads one member of a file. -/
def member? (s : Settings) (m : List Char × Json) : Option Settings :=
  match Setting.ofName? m.1, m.2 with
  | none, _ => some s
  | some _, .null => some s
  | some setting, value => s.assign? setting value

/-- The settings in a JSON value, on top of others. -/
def ofJson? (s : Settings) : Json → Option Settings
  | .null => some s
  | .object members => members.foldlM member? s
  | _ => none

/-- The settings in a file, on top of the defaults. -/
def parse? (text : Bytes) : Option Settings :=
  Json.parse? text >>= ofJson? {}

/-! ## Writing -/

/-- The escape of a character that has one: quotes, backslashes, controls, and what could be taken
for markup or for the end of a line. -/
def stringEscape? (c : Char) : Option Bytes :=
  match [('"', "\\\""), ('\\', "\\\\"), (Char.ofNat 0x08, "\\b"), (Char.ofNat 0x0c, "\\f"),
      ('\n', "\\n"), ('\r', "\\r"), ('\t', "\\t")].lookup c with
  | some escape => some (ascii escape)
  | none =>
    if c.toNat < 0x20 ∨ c.toNat ∈ [0x3c, 0x3e, 0x26, 0x2028, 0x2029] then
      some (ascii "\\u" ++ hex 4 c.toNat)
    else none

/-- A glyph inside a string. -/
def renderGlyph : Utf8.Glyph → Bytes
  | .stray _ => ascii "\\ufffd"
  | .char c => (stringEscape? c).getD (Utf8.encode c)

/-- A text as a JSON string. -/
def renderString (text : Bytes) : Bytes :=
  Ascii.quote :: (Utf8.glyphs text).flatMap renderGlyph ++ [Ascii.quote]

/-- The value of a setting as JSON. -/
def renderValue (s : Settings) : Setting → Bytes
  | .textBase => decimal s.textBase.toNat
  | .maxArgs => decimalInt s.maxArgs.toInt
  | .imageSize => decimal s.imageSize.toNat
  | .byteOrder => renderString s.byteOrder

/-- A member of the file. -/
def renderMember (s : Settings) (setting : Setting) : Bytes :=
  ascii "  \"" ++ ascii setting.name ++ ascii "\": " ++ s.renderValue setting

/-- The file that holds all settings. -/
def render (s : Settings) : Bytes :=
  ascii "\x7b\n" ++ (ascii ",\n").intercalate (Setting.all.map s.renderMember) ++ ascii "\n\x7d"

end Settings

end MipsAssembler
