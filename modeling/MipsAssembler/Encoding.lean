import MipsAssembler.Event
import MipsAssembler.Resolution
import MipsAssembler.Settings
import MipsAssembler.Sink

/-!
# The second pass

The second pass reads the instructions that the first one wrote and encodes each. Addresses advance
by one word per instruction whether or not it encodes, so they stay in step with the labels of the
first pass. `Encoding` is what it has done so far; a line is one `Encoding.step`, and has exactly one
outcome, a word or a fault.
-/

namespace MipsAssembler

/-- What the second pass has done so far. -/
structure Encoding where
  /-- The address of the next instruction. -/
  next : Address
  /-- The jump labels left to the linker. -/
  relocations : SymbolTable
  /-- Where words are written in hexadecimal, if anywhere. -/
  sink : Option Sink
  /-- The number of instructions read. -/
  count : Nat := 0
  /-- What happened to each instruction, in order. -/
  events : Array Event := #[]
  /-- What kept the pass from reading on. -/
  failure : Option ReadFailure := none

/-- A word as a line: eight hexadecimal digits. -/
def renderWord (w : Word) : Bytes :=
  hex 8 w.toNat ++ [Ascii.newline]

/-- Writes a word. -/
def writeWord (sink : Sink) (w : Word) : Sink × Except Rejection Unit :=
  let (sink, fits) := sink.write (renderWord w)
  (sink, if fits then .ok () else .error .wordNotWritten)

/-- Writes a word where there is a place for it. -/
def writeWordTo (sink : Option Sink) (w : Word) : Option Sink × Except Rejection Unit :=
  match sink with
  | none => (none, .ok ())
  | some sink =>
    let (sink, written) := writeWord sink w
    (some sink, written)

/-- What emitting one instruction leaves behind. -/
structure Emission where
  /-- Whether it was emitted. -/
  result : Except Rejection Unit
  /-- The relocation table. -/
  relocations : Option SymbolTable
  /-- The output. -/
  sink : Sink

/-- Encodes one instruction and writes its word. Nothing is recorded or written when it does not
encode; a reference stays recorded when its word cannot be written. -/
def RawInstruction.emit (i : RawInstruction) (site : Site) (relocations : Option SymbolTable)
    (sink : Sink) : Emission :=
  match i.encode site relocations with
  | .error cause => ⟨.error cause, relocations, sink⟩
  | .ok (w, relocations) =>
    let (sink, written) := writeWord sink w
    ⟨written, relocations, sink⟩

namespace Encoding

/-- Notes what happened to an instruction, and goes on to the next address. -/
def note (e : Encoding) (event : Event) : Encoding :=
  { e with
    events := e.events.push event
    count := e.count + 1
    next := e.next + 4 }

/-- The source line of the instruction read next: what `origins` says, or its own number. -/
def line (origins : Array Int) (e : Encoding) : Int :=
  origins[e.count]?.getD (e.count + 1)

/-- Rejects the instruction just read. -/
def reject (origins : Array Int) (e : Encoding) (text : Bytes) (cause : Rejection) : Encoding :=
  let line := e.line origins
  e.note (.rejected ⟨.two, line, text, cause⟩)

/-- Emits the word of the instruction just read, unless it cannot be written. -/
def emit (origins : Array Int) (e : Encoding) (text : Bytes) (w : Word) : Encoding :=
  let (sink, written) := writeWordTo e.sink w
  let e := { e with sink }
  match written with
  | .error cause => e.reject origins text cause
  | .ok _ =>
    let line := e.line origins
    let address := e.next
    e.note (.emitted ⟨address, w, text, line⟩)

/-- Encodes one instruction. A reference is recorded before its word is written. -/
def encode (symbols : SymbolTable) (origins : Array Int) (e : Encoding) (text : Bytes)
    (i : RawInstruction) : Encoding :=
  match i.resolve ⟨e.next, some symbols⟩ with
  | .error cause => e.reject origins text cause
  | .ok resolved =>
    match i.reference? resolved with
    | none => e.emit origins text resolved.encode
    | some label =>
      match e.relocations.refusal? label e.next with
      | some cause => e.reject origins text (.relocation label cause)
      | none =>
        let address := e.next
        { e with relocations := e.relocations.push label address }.emit origins text
          resolved.encode

/-- Reads one line; one without tokens is passed over. -/
def step (symbols : SymbolTable) (origins : Array Int) (e : Encoding) (text : Bytes) : Encoding :=
  match RawInstruction.ofTokens? (tokens text) with
  | none => e
  | some i => e.encode symbols origins text i

/-- The second pass over the text of the first. -/
def run (settings : Settings) (source : Source) (symbols : SymbolTable) (origins : Array Int)
    (relocations : SymbolTable := .relocations) (sink : Option Sink := none) : Encoding :=
  let scan := source.scan
  let start : Encoding := { next := settings.textBase, relocations, sink }
  { scan.lines.foldl (step symbols origins) start with failure := scan.failure }

/-- The rejected instructions, in order. -/
def faults (e : Encoding) : List LineFault :=
  e.events.toList.filterMap Event.fault?

/-- The words, in order. -/
def words (e : Encoding) : List PlacedWord :=
  e.events.toList.filterMap Event.word?

/-- The failure to read the input to its end. -/
def readFault? (e : Encoding) : Option ReadFault :=
  e.failure.map (ReadFault.mk .two)

end Encoding

end MipsAssembler
