import MipsAssembler.Text.Bytes

/-!
# Lines

A reader delivers a text and then either ends or fails (`Source`). It is cut into lines
(`Source.scan`): a line ends at a line feed, a carriage return right before it is dropped, and what
is left at the end is a line unless it is empty. A line has to fit the scanner's buffer with its
line feed; the first that does not ends the scan, and the lines before it stand.
-/

namespace MipsAssembler

/-- Why lines stopped coming before the end of the text. -/
inductive ReadFailure where
  /-- A line did not fit the buffer. -/
  | tooLong
  /-- The reader failed, with this message. -/
  | device (message : Bytes)
  deriving DecidableEq, Repr

/-- The wording of a read failure. -/
def ReadFailure.message : ReadFailure → Bytes
  | .tooLong => ascii "bufio.Scanner: token too long"
  | .device message => message

/-- What a reader delivers: its text, and the failure it ends in, if any. -/
structure Source where
  /-- All that was read. -/
  text : Bytes
  /-- The message of the failure behind the text. -/
  failure : Option Bytes := none
  deriving DecidableEq, Repr

/-- A text cut into lines. -/
structure Scan where
  /-- The lines, in order, without their ends. -/
  lines : List Bytes
  /-- What stopped the scan. -/
  failure : Option ReadFailure
  deriving DecidableEq, Repr

/-- The bytes a line may have, a carriage return included and the line feed not. -/
def maxLineLength : Nat := 65535

/-- A line without the carriage return at its end. -/
def dropCarriageReturn (line : Bytes) : Bytes :=
  if line.getLast? = some Ascii.carriageReturn then line.dropLast else line

/-- The pieces of a text between its line feeds, up to the first that is too long for a line. -/
def fittingPieces (text : Bytes) : List Bytes × List Bytes :=
  (pieces (· == Ascii.newline) text).span (·.length ≤ maxLineLength)

/-- The lines of what a reader delivers. -/
def Source.scan (source : Source) : Scan :=
  match fittingPieces source.text with
  | (fitting, _ :: _) => ⟨fitting.map dropCarriageReturn, some .tooLong⟩
  | (fitting, []) =>
    let complete := if fitting.getLast? = some [] then fitting.dropLast else fitting
    ⟨complete.map dropCarriageReturn, source.failure.map .device⟩

end MipsAssembler
