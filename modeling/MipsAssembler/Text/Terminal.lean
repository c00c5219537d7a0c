import MipsAssembler.Text.Utf8

/-!
# Text on a terminal

A terminal does not show every character of a text: control characters take no room, and neither
does a control sequence, which starts with an escape character and runs to its own end. A carriage
return moves back to the start of the line, and what follows overwrites what stands there.

* `Sequence` says where in a control sequence a reader is; `Sequence.next` reads one character on.
* `columns` is the room that a text takes.
* `settled` is the line that is left once tabs and carriage returns are carried out.
-/

namespace MipsAssembler.Terminal

/-! ## Control sequences -/

/-- The character that starts a control sequence. -/
def escape : Char := Char.ofNat 0x1b

/-- The bell, which may end a link. -/
def bell : Char := Char.ofNat 0x07

/-- Where a reader is: outside of control sequences, or how far inside of one. -/
inductive Sequence where
  /-- Outside. -/
  | outside
  /-- Right behind the escape character. -/
  | escaped
  /-- Further behind it, with no bracket so far. -/
  | unknown
  /-- In a style: a square bracket has opened, and the letter m ends it. -/
  | style
  /-- Right behind the closing square bracket that starts a command. -/
  | commandStart
  /-- Behind the 8 that a command starts with. -/
  | commandEight
  /-- In a command, which a backslash ends. -/
  | command
  /-- In a command that starts with 8 and a semicolon: a link, which a bell ends, or a backslash
  behind an escape character. -/
  | link
  /-- In a link, right behind an escape character. -/
  | linkEscaped
  deriving DecidableEq, Repr

/-- Where a reader is after one more character. -/
def Sequence.next : Sequence → Char → Sequence
  | outside, c => if c = escape then escaped else outside
  | escaped, c => if c = '[' then style else if c = ']' then commandStart else unknown
  | unknown, c => if c = '[' then style else if c = ']' then command else unknown
  | style, c => if c = 'm' then outside else style
  | commandStart, c => if c = '8' then commandEight else if c = '\\' then outside else command
  | commandEight, c => if c = ';' then link else if c = '\\' then outside else command
  | command, c => if c = '\\' then outside else command
  | link, c => if c = escape then linkEscaped else if c = bell then outside else link
  | linkEscaped, c =>
    if c = escape then linkEscaped else if c = '\\' ∨ c = bell then outside else link

/-! ## Room -/

/-- The room of a character outside of control sequences. -/
def room (c : Char) : Nat :=
  if c.toNat < 0x20 ∨ (0x7f ≤ c.toNat ∧ c.toNat ≤ 0x9f) ∨ c.toNat = 0xad then 0 else 1

/-- One more character of a text of which `n` columns are taken. -/
def advance (at_ : Sequence × Nat) (c : Char) : Sequence × Nat :=
  match at_ with
  | (.outside, n) => (Sequence.next .outside c, n + room c)
  | (s, n) => (s.next c, n)

/-- The columns that a text takes. -/
def columns (text : Bytes) : Nat :=
  (((Utf8.glyphs text).map Utf8.Glyph.toChar).foldl advance (.outside, 0)).2

/-! ## Tabs and carriage returns -/

/-- A text with four spaces in place of each tab. -/
def withoutTabs (text : Bytes) : Bytes :=
  text.flatMap fun b => if b = Ascii.tab then List.replicate 4 Ascii.space else [b]

/-- A line with a place to write at. -/
structure Carriage where
  /-- What stands before the place, nearest first. -/
  before : List Char := []
  /-- What stands from the place on. -/
  after : List Char := []
  deriving DecidableEq, Repr

/-- Writes a character over the one at the place, or goes back to the start of the line. -/
def Carriage.write (line : Carriage) (c : Char) : Carriage :=
  if c = '\r' then ⟨[], line.before.reverse ++ line.after⟩
  else ⟨c :: line.before, line.after.tail⟩

/-- The whole line. -/
def Carriage.line (line : Carriage) : List Char :=
  line.before.reverse ++ line.after

/-- The line that is left of a text. A text with no carriage return keeps its bytes. -/
def settled (text : Bytes) : Bytes :=
  let spread := withoutTabs text
  if spread.contains Ascii.carriageReturn then
    let chars := (Utf8.glyphs spread).map Utf8.Glyph.toChar
    Utf8.encodeAll (chars.foldl Carriage.write {}).line
  else spread

end MipsAssembler.Terminal
