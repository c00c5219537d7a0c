import MipsAssembler.Text.Utf8

/-!
# Tokens of JSON

JSON text is cut into punctuation, strings, numbers and the three words, with white space between
them. `lex?` reads a whole text byte by byte: inside quotes it collects a string, outside of them it
collects runs of bytes that are neither punctuation nor white space, and it judges each string and
run when it is complete.
-/

namespace MipsAssembler.Json

/-- A token. -/
inductive Token where
  | openObject | closeObject | openArray | closeArray | colon | comma
  | null | true | false
  /-- A number, as it is written. -/
  | number (literal : Bytes)
  /-- A string, its escapes replaced. -/
  | string (chars : List Char)
  deriving DecidableEq, Repr

/-! ## Strings -/

/-- The character that a letter behind a backslash means. -/
def simpleEscape? (c : Char) : Option Char :=
  [('"', '"'), ('\\', '\\'), ('/', '/'), ('b', Char.ofNat 0x08), ('f', Char.ofNat 0x0c),
    ('n', '\n'), ('r', '\r'), ('t', '\t')].lookup c

/-- The value of a hexadecimal digit. -/
def hexValue? (c : Char) : Option Nat :=
  if '0' ≤ c ∧ c ≤ '9' then some (c.toNat - '0'.toNat)
  else if 'a' ≤ c ∧ c ≤ 'f' then some (c.toNat - 'a'.toNat + 10)
  else if 'A' ≤ c ∧ c ≤ 'F' then some (c.toNat - 'A'.toNat + 10)
  else none

/-- The value of four hexadecimal digits. -/
def unit? (a b c d : Char) : Option Nat := do
  let a ← hexValue? a
  let b ← hexValue? b
  let c ← hexValue? c
  let d ← hexValue? d
  some (((a * 16 + b) * 16 + c) * 16 + d)

/-- The character that two UTF-16 units stand for, if they are a surrogate pair. -/
def surrogatePair? (high low : Nat) : Option Char :=
  if 0xd800 ≤ high ∧ high < 0xdc00 ∧ 0xdc00 ≤ low ∧ low < 0xe000 then
    some (Char.ofNat (0x10000 + (high - 0xd800) * 0x400 + (low - 0xdc00)))
  else none

/-- The character that one UTF-16 unit stands for; a surrogate stands for none and is replaced. -/
def unitChar (unit : Nat) : Char :=
  if 0xd800 ≤ unit ∧ unit < 0xe000 then Utf8.replacement else Char.ofNat unit

/-- The characters of a string behind those already read, newest first, escapes replaced. -/
def unescapeOnto (read : List Char) : List Char → Option (List Char)
  | [] => some read
  | '\\' :: 'u' :: a :: b :: c :: d :: '\\' :: 'u' :: e :: f :: g :: h :: rest => do
    let unit ← unit? a b c d
    match unit? e f g h >>= surrogatePair? unit with
    | some pair => unescapeOnto (pair :: read) rest
    | none => unescapeOnto (unitChar unit :: read) ('\\' :: 'u' :: e :: f :: g :: h :: rest)
  | '\\' :: 'u' :: a :: b :: c :: d :: rest => do
    let unit ← unit? a b c d
    unescapeOnto (unitChar unit :: read) rest
  | '\\' :: c :: rest => do
    let c ← simpleEscape? c
    unescapeOnto (c :: read) rest
  | c :: rest => if c = '\\' ∨ c.toNat < 0x20 then none else unescapeOnto (c :: read) rest

/-- The characters between the quotes of a string, escapes replaced; what is no valid UTF-8 is
replaced too. -/
def unescape? (raw : Bytes) : Option (List Char) :=
  (unescapeOnto [] ((Utf8.glyphs raw).map (·.toChar))).map List.reverse

/-! ## Numbers -/

/-- A run of digits that is not empty. -/
def isDigits (s : Bytes) : Bool :=
  !s.isEmpty && s.all Ascii.isDigit

/-- The digits of a number before its fraction: no leading zero but a single one. -/
def isWhole (s : Bytes) : Bool :=
  isDigits s && (s.length == 1 || s.head? != some 0x30)

/-- What may stand behind the mark of an exponent. -/
def isExponent : Bytes → Bool
  | 0x2b :: digits => isDigits digits
  | 0x2d :: digits => isDigits digits
  | digits => isDigits digits

/-- A number without its exponent: whole digits and perhaps a fraction. -/
def isMantissa (s : Bytes) : Bool :=
  match s.span (· != 0x2e) with
  | (whole, []) => isWhole whole
  | (whole, _ :: fraction) => isWhole whole && isDigits fraction

/-- A number without its sign. -/
def isMagnitude (s : Bytes) : Bool :=
  match s.span fun b => b != 0x65 && b != 0x45 with
  | (mantissa, []) => isMantissa mantissa
  | (mantissa, _ :: exponent) => isMantissa mantissa && isExponent exponent

/-- Whether a run of bytes is a number. -/
def isNumber : Bytes → Bool
  | 0x2d :: magnitude => isMagnitude magnitude
  | magnitude => isMagnitude magnitude

/-! ## The lexer -/

/-- The token of a complete run of bytes. -/
def bare? (run : Bytes) : Option Token :=
  if run = ascii "null" then some .null
  else if run = ascii "true" then some .true
  else if run = ascii "false" then some .false
  else if isNumber run then some (.number run)
  else none

/-- White space between tokens. -/
def isWhite (b : UInt8) : Bool :=
  b == 0x20 || b == 0x09 || b == 0x0a || b == 0x0d

/-- The token of a punctuation byte. -/
def punctuation? (b : UInt8) : Option Token :=
  if b = 0x7b then some .openObject
  else if b = 0x7d then some .closeObject
  else if b = 0x5b then some .openArray
  else if b = 0x5d then some .closeArray
  else if b = 0x3a then some .colon
  else if b = 0x2c then some .comma
  else none

/-- What the lexer is collecting, newest byte first. -/
inductive Mode where
  /-- Nothing. -/
  | between
  /-- A number or a word. -/
  | bare (collected : Bytes)
  /-- A string; the flag says that the last byte was a backslash that escapes the next. -/
  | string (collected : Bytes) (escaping : Bool)
  deriving DecidableEq, Repr

/-- A text, read so far. -/
structure Lexing where
  /-- What is being collected. -/
  mode : Mode := .between
  /-- The complete tokens, newest first. -/
  tokens : List Token := []
  deriving DecidableEq, Repr

namespace Lexing

/-- Completes a run of bytes, if one is being collected. -/
def finish (l : Lexing) : Option Lexing :=
  match l.mode with
  | .between => some l
  | .bare collected => do
    let token ← bare? collected.reverse
    some ⟨.between, token :: l.tokens⟩
  | .string .. => none

/-- Reads a byte outside of quotes. -/
def outside (l : Lexing) (b : UInt8) : Option Lexing :=
  if isWhite b then l.finish
  else if b = Ascii.quote then do
    let l ← l.finish
    some { l with mode := .string [] .false }
  else
    match punctuation? b with
    | some token => do
      let l ← l.finish
      some { l with tokens := token :: l.tokens }
    | none =>
      match l.mode with
      | .bare collected => some { l with mode := .bare (b :: collected) }
      | _ => some { l with mode := .bare [b] }

/-- Reads a byte. -/
def step (l : Lexing) (b : UInt8) : Option Lexing :=
  match l.mode with
  | .string collected .true => some { l with mode := .string (b :: collected) .false }
  | .string collected .false =>
    if b = Ascii.quote then do
      let chars ← unescape? collected.reverse
      some ⟨.between, .string chars :: l.tokens⟩
    else some { l with mode := .string (b :: collected) (b == Ascii.backslash) }
  | _ => l.outside b

end Lexing

/-- The tokens of a text. -/
def lex? (text : Bytes) : Option (List Token) := do
  let lexing ← text.foldlM Lexing.step {}
  let lexing ← lexing.finish
  some lexing.tokens.reverse

end MipsAssembler.Json
