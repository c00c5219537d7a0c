import MipsAssembler.Encoding

/-!
# Object files

An object file is text in three sections: the words of the program in hexadecimal, one a line, then
the symbol table, then the relocation table. A blank line separates sections.
-/

namespace MipsAssembler

/-- The sections of an object file. -/
inductive Section where
  | text | symbol | relocation
  deriving DecidableEq, Repr

/-- The line that starts a section. -/
def Section.header : Section → Bytes
  | .text => ascii ".text"
  | .symbol => ascii ".symbol"
  | .relocation => ascii ".relocation"

/-- An object file from its words and its tables; a missing table is an empty one. -/
def renderObject (text : List Word) (symbols relocations : Option SymbolTable) : Bytes :=
  Section.text.header ++ Ascii.newline :: text.flatMap renderWord ++
  Ascii.newline :: Section.symbol.header ++ Ascii.newline :: (symbols.map (·.render)).getD [] ++
  Ascii.newline :: Section.relocation.header ++
    Ascii.newline :: (relocations.map (·.render)).getD []

/-- What could not be written. -/
inductive WriteError where
  /-- The entry of a table with this name. -/
  | entry (name : Bytes)
  /-- The object file. -/
  | object
  deriving DecidableEq, Repr

/-- The wording of a write error. -/
def WriteError.message : WriteError → Bytes
  | .entry name => ascii "failed to write table entry " ++ name ++ ascii ": " ++ diskFull
  | .object => ascii "failed to write object: " ++ diskFull

/-- Writes entries one by one, up to the first that does not fit. -/
def writeEntries (sink : Sink) : List Entry → Sink × Except WriteError Unit
  | [] => (sink, .ok ())
  | entry :: rest =>
    match sink.write entry.render with
    | (sink, true) => writeEntries sink rest
    | (sink, false) => (sink, .error (.entry entry.name))

/-- Writes an object file, all in one write. -/
def writeObject (sink : Sink) (object : Bytes) : Sink × Except WriteError Unit :=
  let (sink, fits) := sink.write object
  (sink, if fits then .ok () else .error .object)

end MipsAssembler
