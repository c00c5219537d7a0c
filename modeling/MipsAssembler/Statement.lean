import MipsAssembler.Label
import MipsAssembler.Rejection

/-!
# Statements

A line of source text is an optional label and an optional instruction, with an optional comment
behind a number sign.

* `tokens` gives the tokens of a line: the runs of bytes between blanks, commas and parentheses.
* `RawInstruction` is an instruction whose operands are still tokens; `RawInstruction.render` puts
  it back into the one canonical form.
* `Statement.parse` reads a line. The only thing that can be wrong with it is its label.
-/

namespace MipsAssembler

/-- A byte that separates tokens. -/
def isDelimiter (b : UInt8) : Bool :=
  b == Ascii.space || (0x09 ≤ b && b ≤ 0x0d) || b == 0x2c || b == 0x28 || b == 0x29

/-- A line without its comment. -/
def stripComment (line : Bytes) : Bytes :=
  line.takeWhile (· != Ascii.hash)

/-- The tokens of a line. -/
def tokens (line : Bytes) : List Bytes :=
  (pieces isDelimiter (stripComment line)).filter (!·.isEmpty)

/-- A mnemonic and its operands, as tokens. -/
structure RawInstruction where
  /-- The mnemonic. -/
  name : Bytes
  /-- The operands. -/
  args : List Bytes
  deriving DecidableEq, Repr

namespace RawInstruction

/-- The mnemonic and the operands with single spaces between them. -/
def render (i : RawInstruction) : Bytes :=
  spaced (i.name :: i.args)

/-- The instruction on a list of tokens, if there are any. -/
def ofTokens? : List Bytes → Option RawInstruction
  | [] => none
  | name :: args => some ⟨name, args⟩

end RawInstruction

/-- A line of source text, read. -/
structure Statement where
  /-- The label the line defines. -/
  label : Option Bytes := none
  /-- The instruction on the line. -/
  instruction : Option RawInstruction := none
  deriving DecidableEq, Repr

namespace Statement

/-- The statement on a list of tokens. A first token with a colon defines what stands before the
colon as a label, and what stands behind it is the first token of the instruction. -/
def ofTokens : List Bytes → Except Rejection Statement
  | [] => .ok {}
  | head :: tail =>
    match head.span (· != Ascii.colon) with
    | (_, []) => .ok { instruction := some ⟨head, tail⟩ }
    | (label, _ :: rest) =>
      if isLabel label then
        let remaining := if rest.isEmpty then tail else rest :: tail
        .ok { label := some label, instruction := RawInstruction.ofTokens? remaining }
      else .error (.invalidLabel label)

/-- The statement on a line of source text. -/
def parse (line : Bytes) : Except Rejection Statement :=
  ofTokens (tokens line)

end Statement

end MipsAssembler
