import MipsAssembler.Rejection
import MipsAssembler.Text.Line

/-!
# Events and faults

What the two passes over a program report. A pass goes on after a rejected line, so one run reports
every bad line; what happened is kept as a list of events, in order.

* `LineFault` is a rejected line, `ReadFault` the end of the input before its time.
* `Event` is one thing a pass did: it rejected a line, defined a label or emitted a word.
-/

namespace MipsAssembler

/-- The two passes: the first defines labels and expands pseudo-instructions, the second encodes. -/
inductive Pass where
  | one | two
  deriving DecidableEq, Repr

/-- The number of a pass. -/
def Pass.number : Pass → Nat
  | .one => 1
  | .two => 2

/-- A rejected line. -/
structure LineFault where
  /-- The pass that rejected it. -/
  pass : Pass
  /-- Its line number in the source, counted from one. -/
  line : Int
  /-- The line as that pass read it. -/
  text : Bytes
  /-- Why it was rejected. -/
  cause : Rejection
  deriving DecidableEq, Repr

/-- The wording of a line fault. -/
def LineFault.message (f : LineFault) : Bytes :=
  ascii "pass " ++ decimal f.pass.number ++ ascii ", line " ++ decimalInt f.line ++ ascii " (" ++
    f.text ++ ascii "): " ++ f.cause.message

/-- The input of a pass ended before its time. -/
structure ReadFault where
  /-- The pass that was reading. -/
  pass : Pass
  /-- Why it could not go on. -/
  cause : ReadFailure
  deriving DecidableEq, Repr

/-- The wording of a read fault. -/
def ReadFault.message (f : ReadFault) : Bytes :=
  (match f.pass with
    | .one => ascii "failed to read source: "
    | .two => ascii "failed to read pass one output: ") ++ f.cause.message

/-- A word of the program and where it came from. -/
structure PlacedWord where
  /-- The address of the word. -/
  address : Address
  /-- The word. -/
  value : Word
  /-- The instruction, as the second pass read it. -/
  source : Bytes
  /-- The number of the source line it came from. -/
  line : Int
  deriving DecidableEq, Repr

/-- One thing a pass did. -/
inductive Event where
  /-- A line was rejected. -/
  | rejected (fault : LineFault)
  /-- A label was defined. -/
  | labelled (name : Bytes) (address : Address)
  /-- A word was emitted. -/
  | emitted (word : PlacedWord)
  deriving DecidableEq, Repr

namespace Event

/-- The fault of an event that is one. -/
def fault? : Event → Option LineFault
  | .rejected fault => some fault
  | _ => none

/-- The word of an event that emitted one. -/
def word? : Event → Option PlacedWord
  | .emitted word => some word
  | _ => none

end Event

end MipsAssembler
