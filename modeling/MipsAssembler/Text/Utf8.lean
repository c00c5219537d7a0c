import MipsAssembler.Text.Bytes

/-!
# Reading UTF-8

A byte text is read as a sequence of glyphs: the characters it encodes, and the stray bytes that
are part of no valid encoding. `leading?` reads one character; `glyphs` reads a whole text and
never fails.
-/

namespace MipsAssembler.Utf8

/-- What a reader of UTF-8 meets: a character, or a byte that belongs to none. -/
inductive Glyph where
  /-- A character in its one valid encoding. -/
  | char (c : Char)
  /-- A byte that starts no valid encoding. -/
  | stray (b : UInt8)
  deriving DecidableEq, Repr

/-- The six payload bits of a continuation byte. -/
def continuation? (b : UInt8) : Option Nat :=
  if 0x80 ≤ b && b ≤ 0xbf then some (b.toNat - 0x80) else none

/-- The character with this code point, if it needs an encoding as long as one for `least`:
shorter forms, surrogates and codes past the last plane are refused. -/
def charFrom? (least code : Nat) : Option Char :=
  if least ≤ code ∧ code.isValidChar then some (Char.ofNat code) else none

/-- The character whose encoding a text starts with. -/
def leading? : Bytes → Option Char
  | [] => none
  | a :: s =>
    if a < 0x80 then some (Char.ofNat a.toNat)
    else if a < 0xc0 then none
    else if a < 0xe0 then do
      let b ← s[0]? >>= continuation?
      charFrom? 0x80 ((a.toNat - 0xc0) * 0x40 + b)
    else if a < 0xf0 then do
      let b ← s[0]? >>= continuation?
      let c ← s[1]? >>= continuation?
      charFrom? 0x800 ((a.toNat - 0xe0) * 0x1000 + b * 0x40 + c)
    else if a < 0xf8 then do
      let b ← s[0]? >>= continuation?
      let c ← s[1]? >>= continuation?
      let d ← s[2]? >>= continuation?
      charFrom? 0x10000 ((a.toNat - 0xf0) * 0x40000 + b * 0x1000 + c * 0x40 + d)
    else none

/-- The glyphs of `text` on top of those already read, newest first. -/
def glyphsOnto (read : List Glyph) (text : Bytes) : List Glyph :=
  match text with
  | [] => read
  | b :: rest =>
    match leading? (b :: rest) with
    | some c => glyphsOnto (.char c :: read) (rest.drop (c.utf8Size - 1))
    | none => glyphsOnto (.stray b :: read) rest
termination_by text.length
decreasing_by
  · simp only [List.length_cons, List.length_drop]; omega
  · simp

/-- The glyphs of a text, in order. -/
def glyphs (text : Bytes) : List Glyph :=
  (glyphsOnto [] text).reverse

/-- The bytes of a character. -/
def encode (c : Char) : Bytes :=
  String.utf8EncodeChar c

/-- The bytes of a sequence of characters. -/
def encodeAll (cs : List Char) : Bytes :=
  cs.flatMap encode

/-- U+FFFD, which stands for what could not be read. -/
def replacement : Char := Char.ofNat 0xfffd

/-- The character a glyph is read as when stray bytes are not told apart. -/
def Glyph.toChar : Glyph → Char
  | .char c => c
  | .stray _ => replacement

end MipsAssembler.Utf8
