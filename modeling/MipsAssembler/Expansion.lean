import MipsAssembler.Event
import MipsAssembler.Pseudo
import MipsAssembler.Settings
import MipsAssembler.Sink

/-!
# The first pass

The first pass reads source lines, enters each label in the symbol table at the address of the next
instruction, and writes the real instructions that each source instruction stands for, one a line.
`Expansion` is what it has done so far; a line is one `Expansion.step`, and every part of the result
only grows.
-/

namespace MipsAssembler

/-- What the first pass has done so far. -/
structure Expansion where
  /-- The address of the next instruction. -/
  next : Address
  /-- The labels. -/
  symbols : SymbolTable
  /-- Where the instructions are written. -/
  sink : Sink
  /-- The number of lines read. -/
  lines : Nat := 0
  /-- The source line of each instruction written. -/
  origins : Array Int := #[]
  /-- What happened, in order. -/
  events : Array Event := #[]
  /-- What kept the pass from reading on. -/
  failure : Option ReadFailure := none

/-- The lines of an expansion as they are written. -/
def renderExpansion (instructions : List RawInstruction) : Bytes :=
  instructions.flatMap fun i => i.render ++ [Ascii.newline]

/-- Writes the instructions that an instruction stands for, all in one write, and counts them. -/
def RawInstruction.writeExpansion (i : RawInstruction) (sink : Sink) :
    Sink × Except Rejection Nat :=
  match i.expand with
  | .error cause => (sink, .error cause)
  | .ok instructions =>
    let (sink, fits) := sink.write (renderExpansion instructions)
    (sink, if fits then .ok instructions.length else .error (.expansionNotWritten i.name))

namespace Expansion

/-- Notes something that happened. -/
def note (e : Expansion) (event : Event) : Expansion :=
  { e with events := e.events.push event }

/-- Rejects the line just read. -/
def reject (e : Expansion) (text : Bytes) (cause : Rejection) : Expansion :=
  let line := e.lines
  e.note (.rejected ⟨.one, line, text, cause⟩)

/-- Defines the label of a line at the address of the next instruction. -/
def define (e : Expansion) (text label : Bytes) : Expansion :=
  match e.symbols.refusal? label e.next with
  | some cause => e.reject text (.definition cause)
  | none =>
    let address := e.next
    { e with symbols := e.symbols.push label address }.note (.labelled label address)

/-- Counts the instructions just written. -/
def advance (e : Expansion) (count : Nat) : Expansion :=
  let line := e.lines
  { e with
    origins := e.origins ++ List.replicate count (line : Int)
    next := e.next + BitVec.ofNat 32 (4 * count) }

/-- Expands the instruction of a line. -/
def expand (maxArgs : Int64) (e : Expansion) (text : Bytes) (i : RawInstruction) : Expansion :=
  if maxArgs.toInt < i.args.length then
    e.reject text (.tooManyArguments maxArgs.toInt i.args.length)
  else
    let (sink, written) := i.writeExpansion e.sink
    let e := { e with sink }
    match written with
    | .error cause => e.reject text cause
    | .ok count => e.advance count

/-- Reads one line. A label that is refused does not keep its line from being expanded. -/
def step (maxArgs : Int64) (e : Expansion) (text : Bytes) : Expansion :=
  let e := { e with lines := e.lines + 1 }
  match Statement.parse text with
  | .error cause => e.reject text cause
  | .ok statement =>
    let e := match statement.label with
      | some label => e.define text label
      | none => e
    match statement.instruction with
    | some i => e.expand maxArgs text i
    | none => e

/-- The first pass over a source text. -/
def run (settings : Settings) (source : Source) (symbols : SymbolTable := .symbols)
    (sink : Sink := {}) : Expansion :=
  let scan := source.scan
  let start : Expansion := { next := settings.textBase, symbols, sink }
  { scan.lines.foldl (step settings.maxArgs) start with failure := scan.failure }

/-- The rejected lines, in order. -/
def faults (e : Expansion) : List LineFault :=
  e.events.toList.filterMap Event.fault?

/-- The failure to read the source to its end. -/
def readFault? (e : Expansion) : Option ReadFault :=
  e.failure.map (ReadFault.mk .one)

/-- The text the second pass reads. -/
def text (e : Expansion) : Bytes :=
  e.sink.contents.toList

end Expansion

end MipsAssembler
