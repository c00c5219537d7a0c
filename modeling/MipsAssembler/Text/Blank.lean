import MipsAssembler.Text.Bytes

/-!
# Blanks

The blank characters are those of the Unicode property White_Space. `trim` removes them from both
ends of a text. A blank counts only in its whole UTF-8 encoding, so a lone byte 0x85 or 0xa0 stays.
-/

namespace MipsAssembler

/-- The encodings of the blank characters. -/
def blanks : List Bytes :=
  [[0x20], [0x09], [0x0a], [0x0b], [0x0c], [0x0d],
    [0xc2, 0x85], [0xc2, 0xa0], [0xe1, 0x9a, 0x80],
    [0xe2, 0x80, 0x80], [0xe2, 0x80, 0x81], [0xe2, 0x80, 0x82], [0xe2, 0x80, 0x83],
    [0xe2, 0x80, 0x84], [0xe2, 0x80, 0x85], [0xe2, 0x80, 0x86], [0xe2, 0x80, 0x87],
    [0xe2, 0x80, 0x88], [0xe2, 0x80, 0x89], [0xe2, 0x80, 0x8a], [0xe2, 0x80, 0xa8],
    [0xe2, 0x80, 0xa9], [0xe2, 0x80, 0xaf], [0xe2, 0x81, 0x9f], [0xe3, 0x80, 0x80]]

/-- The length of the first of `marks` that `text` starts with, and zero if it starts with none. -/
def leadingLength (marks : List Bytes) (text : Bytes) : Nat :=
  ((marks.find? (·.isPrefixOf text)).map List.length).getD 0

/-- The text behind every one of `marks` in front of it. -/
def dropLeading (marks : List Bytes) (text : Bytes) : Bytes :=
  match text, leadingLength marks text with
  | _ :: rest, n + 1 => dropLeading marks (rest.drop n)
  | text, _ => text
termination_by text.length
decreasing_by simp only [List.length_cons, List.length_drop]; omega

/-- The text without the blanks in front of it. -/
def trimLeft (text : Bytes) : Bytes :=
  dropLeading blanks text

/-- The text without the blanks behind it. -/
def trimRight (text : Bytes) : Bytes :=
  (dropLeading (blanks.map List.reverse) text.reverse).reverse

/-- The text without the blanks around it. -/
def trim (text : Bytes) : Bytes :=
  trimRight (trimLeft text)

end MipsAssembler
