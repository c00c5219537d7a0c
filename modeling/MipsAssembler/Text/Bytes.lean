/-!
# Byte text

Source files, object files and messages are sequences of bytes: a source line may hold bytes
that are no valid UTF-8, and they must come through unchanged.

* `ascii` gives the bytes of a literal.
* `decimal`, `decimalInt` and `hex` are the number formats of the messages and of the object file.
* `pieces` cuts a text at every separator; `spaced` joins pieces by single spaces.
-/

namespace MipsAssembler

/-- Text is a list of bytes, in no particular encoding. -/
abbrev Bytes := List UInt8

/-- The bytes of a text of ASCII characters. -/
def ascii (s : String) : Bytes :=
  s.toList.map Char.toUInt8

/-! ## Named bytes -/

namespace Ascii

/-- Horizontal tab. -/
def tab : UInt8 := 0x09

/-- Line feed, the end of a line. -/
def newline : UInt8 := 0x0a

/-- Carriage return. -/
def carriageReturn : UInt8 := 0x0d

/-- The space. -/
def space : UInt8 := 0x20

/-- The double quote. -/
def quote : UInt8 := 0x22

/-- The number sign, which starts a comment. -/
def hash : UInt8 := 0x23

/-- The minus sign. -/
def minus : UInt8 := 0x2d

/-- The colon, which ends a label. -/
def colon : UInt8 := 0x3a

/-- The equals sign. -/
def equals : UInt8 := 0x3d

/-- The backslash. -/
def backslash : UInt8 := 0x5c

/-- A decimal digit. -/
def isDigit (b : UInt8) : Bool := 0x30 ≤ b && b ≤ 0x39

/-- An upper-case letter. -/
def isUpper (b : UInt8) : Bool := 0x41 ≤ b && b ≤ 0x5a

/-- A lower-case letter. -/
def isLower (b : UInt8) : Bool := 0x61 ≤ b && b ≤ 0x7a

/-- A letter of either case. -/
def isLetter (b : UInt8) : Bool := isUpper b || isLower b

/-- The upper-case form of a letter; other bytes stay. -/
def toUpper (b : UInt8) : UInt8 := if isLower b then b - 0x20 else b

/-- The lower-case form of a letter; other bytes stay. -/
def toLower (b : UInt8) : UInt8 := if isUpper b then b + 0x20 else b

end Ascii

/-! ## Numbers as text -/

/-- A natural number in decimal, without leading zeros. -/
def decimal (n : Nat) : Bytes :=
  (Nat.toDigits 10 n).map Char.toUInt8

/-- An integer in decimal, with a minus sign when it is negative. -/
def decimalInt (i : Int) : Bytes :=
  if i < 0 then Ascii.minus :: decimal i.natAbs else decimal i.natAbs

/-- The lower-case hexadecimal digit of a value below sixteen. -/
def hexDigit (d : Nat) : UInt8 :=
  d.digitChar.toUInt8

/-- The last `width` hexadecimal digits of `n`, in lower case, leading zeros included. -/
def hex : (width : Nat) → (n : Nat) → Bytes
  | 0, _ => []
  | width + 1, n => hex width (n / 16) ++ [hexDigit (n % 16)]

/-- The last `width` hexadecimal digits of `n`, in upper case, leading zeros included. -/
def hexUpper (width n : Nat) : Bytes :=
  (hex width n).map Ascii.toUpper

/-- A 32-bit value as eight hexadecimal digits behind `0x`. -/
def hexAddress (n : Nat) : Bytes :=
  ascii "0x" ++ hex 8 n

theorem decimal_of_lt_ten {n : Nat} (h : n < 10) : decimal n = [n.digitChar.toUInt8] := by
  simp [decimal, Nat.toDigits_of_lt_base h]

theorem decimal_of_ten_le {n : Nat} (h : 10 ≤ n) :
    decimal n = decimal (n / 10) ++ [(n % 10).digitChar.toUInt8] := by
  simp [decimal, Nat.toDigits_of_base_le (by omega : 1 < 10) h]

theorem decimal_ne_nil (n : Nat) : decimal n ≠ [] := by
  simp [decimal, Nat.toDigits_ne_nil]

@[simp] theorem length_hex (width n : Nat) : (hex width n).length = width := by
  induction width generalizing n with
  | zero => rfl
  | succ width ih => simp [hex, ih]

/-! ## Cutting and joining -/

/-- One byte in front of a text already cut into its first piece and the later ones. -/
def Pieces.cons (isSeparator : UInt8 → Bool) (b : UInt8) (cut : Bytes × List Bytes) :
    Bytes × List Bytes :=
  if isSeparator b then ([], cut.1 :: cut.2) else (b :: cut.1, cut.2)

/-- The text between the separators, in order: one piece more than there are separators, so the
empty text is one empty piece. -/
def pieces (isSeparator : UInt8 → Bool) (text : Bytes) : List Bytes :=
  let cut := text.foldr (Pieces.cons isSeparator) ([], [])
  cut.1 :: cut.2

/-- Pieces joined by single spaces. -/
def spaced (parts : List Bytes) : Bytes :=
  [Ascii.space].intercalate parts

@[simp] theorem pieces_nil (p : UInt8 → Bool) : pieces p [] = [[]] := rfl

theorem pieces_cons_of_separator {p : UInt8 → Bool} {b : UInt8} (h : p b) (text : Bytes) :
    pieces p (b :: text) = [] :: pieces p text := by
  simp [pieces, Pieces.cons, h]

theorem pieces_cons_of_not_separator {p : UInt8 → Bool} {b : UInt8} (h : p b = false)
    (text : Bytes) :
    pieces p (b :: text) =
      (b :: (pieces p text).head (by simp [pieces])) :: (pieces p text).tail := by
  simp [pieces, Pieces.cons, h]

/-- Without a separator the text is its only piece. -/
theorem pieces_eq_singleton {p : UInt8 → Bool} {text : Bytes} (h : ∀ b ∈ text, p b = false) :
    pieces p text = [text] := by
  induction text with
  | nil => rfl
  | cons b text ih =>
    rw [pieces_cons_of_not_separator (h b (by simp))]
    simp [ih fun c hc => h c (by simp [hc])]

end MipsAssembler
