import MipsAssembler.Text.Printable
import MipsAssembler.Text.Utf8

/-!
# Quoted text

Messages show a text in double quotes so that every byte of it can be told: printable characters
stand for themselves, all else is written as an escape. `quoted` is the quoted form of a text,
`escape` the form of one glyph.
-/

namespace MipsAssembler

open Utf8 (Glyph)

/-- The letter behind the backslash for the controls that have an escape of their own. -/
def controlLetter? (code : Nat) : Option UInt8 :=
  [(0x07, 0x61), (0x08, 0x62), (0x0c, 0x66), (0x0a, 0x6e), (0x0d, 0x72), (0x09, 0x74),
    (0x0b, 0x76)].lookup code

/-- A glyph inside quotes: the quote and the backslash get a backslash, printable characters stand
for themselves, and the rest is written by its code. A stray byte shows its value. -/
def escape : Glyph → Bytes
  | .stray b => ascii "\\x" ++ hex 2 b.toNat
  | .char c =>
    if c = '"' ∨ c = '\\' then Ascii.backslash :: Utf8.encode c
    else if isPrintable c then Utf8.encode c
    else match controlLetter? c.toNat with
      | some letter => [Ascii.backslash, letter]
      | none =>
        if c.toNat < 0x20 ∨ c.toNat = 0x7f then ascii "\\x" ++ hex 2 c.toNat
        else if c.toNat < 0x10000 then ascii "\\u" ++ hex 4 c.toNat
        else ascii "\\U" ++ hex 8 c.toNat

/-- A text in double quotes, every byte of it shown. -/
def quoted (text : Bytes) : Bytes :=
  Ascii.quote :: (Utf8.glyphs text).flatMap escape ++ [Ascii.quote]

end MipsAssembler
