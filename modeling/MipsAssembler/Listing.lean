import MipsAssembler.Assembly
import MipsAssembler.Grid
import MipsAssembler.Program

/-!
# Listings

The tables shown to a reader: the labels and references of a program, its words next to the source
they came from, and the disassembly of a loaded program. The rows of each listing are a definition
of their own, apart from how they are drawn.
-/

namespace MipsAssembler

/-- An address as listings show it. -/
def listedAddress (address : Address) : Bytes :=
  ascii "0x" ++ hexUpper 8 address.toNat

/-- The entries of a table as a listing. -/
def entryGrid (title : String) (t : SymbolTable) : Grid where
  title := ascii title
  columns := [⟨ascii "ADDRESS", .left⟩, ⟨ascii "NAME", .left⟩]
  rows := t.entries.toList.map fun e => [listedAddress e.address, e.name]

/-- The labels of a program. -/
def symbolGrid (t : SymbolTable) : Grid := entryGrid "Symbols" t

/-- The references of a program. -/
def relocationGrid (t : SymbolTable) : Grid := entryGrid "Relocations" t

/-- The words of a program next to their source. -/
def wordGrid (words : List PlacedWord) : Grid where
  title := ascii "Listing"
  columns := [⟨ascii "LINE", .right⟩, ⟨ascii "ADDRESS", .left⟩, ⟨ascii "WORD", .left⟩,
    ⟨ascii "INSTRUCTION", .left⟩]
  rows := words.map fun w =>
    [decimalInt w.line, listedAddress w.address, hex 8 w.value.toNat, w.source]

/-- A row of a disassembly. -/
structure DisassemblyRow where
  /-- The names of the labels at the address. -/
  labels : List Bytes
  /-- The address of the word. -/
  address : Address
  /-- The word. -/
  word : Word
  /-- The names that the word refers to. -/
  references : List Bytes
  deriving DecidableEq, Repr

namespace DisassemblyRow

/-- The instruction of the word. -/
def instruction (r : DisassemblyRow) : Bytes := disassemble r.word

/-- The cells of a row. -/
def cells (r : DisassemblyRow) : List Bytes :=
  [spaced r.labels, listedAddress r.address, hex 8 r.word.toNat, r.instruction, spaced r.references]

end DisassemblyRow

/-- The names in a table by address, each list in table order. -/
def namesByAddress (t : SymbolTable) : Std.HashMap Address (List Bytes) :=
  t.entries.toList.foldr (fun e names => names.insert e.address (e.name :: names.getD e.address []))
    ∅

/-- The rows of the disassembly of a program whose text starts at `base`. -/
def disassemblyRows (p : Program) (base : Address) : List DisassemblyRow :=
  let labels := namesByAddress p.symbols
  let references := namesByAddress p.relocations
  p.text.toList.mapIdx fun i word =>
    let address := base + BitVec.ofNat 32 (4 * i)
    ⟨labels.getD address [], address, word, references.getD address []⟩

/-- The disassembly of a program. -/
def disassemblyGrid (p : Program) (base : Address) : Grid where
  title := ascii "Disassembly"
  columns := [⟨ascii "LABEL", .left⟩, ⟨ascii "ADDRESS", .left⟩, ⟨ascii "WORD", .left⟩,
    ⟨ascii "INSTRUCTION", .left⟩, ⟨ascii "RELOCATION", .left⟩]
  rows := (disassemblyRows p base).map DisassemblyRow.cells

end MipsAssembler
