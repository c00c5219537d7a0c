import MipsAssembler.ObjectFile
import MipsAssembler.Text.Blank
import MipsAssembler.Text.Numeral

/-!
# Loaded programs

`Program.read` reads an object file back. Sections may come in any order, each at most once, and
end at a blank line or at the next header; blanks around a line do not count. The first line that
is wrong ends the reading.

* `LoadError` is what can be wrong.
* `Program.wordAt?` finds a word by its address.
-/

namespace MipsAssembler

/-- The contents of an object file. -/
structure Program where
  /-- The words, in address order. -/
  text : Array Word := #[]
  /-- The labels. -/
  symbols : SymbolTable := .symbols
  /-- The references left to the linker. -/
  relocations : SymbolTable := .relocations

/-- What can be wrong with a line of an object file. -/
inductive ContentError where
  /-- A word has another number of digits. -/
  | wordLength (line : Bytes)
  /-- A word is no numeral. -/
  | word (line : Bytes) (error : NumeralError)
  /-- An entry has no tab, or no name behind it. -/
  | entry (line : Bytes)
  /-- The address of an entry is no numeral. -/
  | address (text : Bytes) (error : NumeralError)
  /-- The line belongs to no section. -/
  | outside (line : Bytes)
  /-- A table refuses an entry. -/
  | table (error : SymbolTable.Error)
  deriving DecidableEq, Repr

/-- Why an object file cannot be loaded. -/
inductive LoadError where
  /-- A section starts twice. -/
  | repeatedSection (line : Nat) (sec : Section)
  /-- A line is wrong. -/
  | content (line : Nat) (error : ContentError)
  /-- The file could not be read to its end. -/
  | unreadable (failure : ReadFailure)
  /-- There is no text section. -/
  | noText
  deriving DecidableEq, Repr

/-- The wording of a numeral that could not be read. -/
def numeralMessage (text : Bytes) (error : NumeralError) : Bytes :=
  quoted text ++ ascii ": strconv.ParseUint: parsing " ++ quoted text ++ ascii ": " ++
    error.message

/-- The wording of a wrong line. -/
def ContentError.message : ContentError → Bytes
  | .wordLength line =>
    ascii "malformed object file: word " ++ quoted line ++ ascii " is not eight hex digits"
  | .word line error => ascii "malformed object file: word " ++ numeralMessage line error
  | .entry line =>
    ascii "malformed object file: entry " ++ quoted line ++ ascii " is not addr<TAB>name"
  | .address text error => ascii "malformed object file: address " ++ numeralMessage text error
  | .outside line => ascii "malformed object file: " ++ quoted line ++ ascii " outside any section"
  | .table error => error.message

/-- The wording of a load error. -/
def LoadError.message : LoadError → Bytes
  | .repeatedSection line sec =>
    ascii "malformed object file: line " ++ decimal line ++ ascii ": repeated section " ++
      sec.header
  | .content line error => ascii "line " ++ decimal line ++ ascii ": " ++ error.message
  | .unreadable failure => ascii "failed to read object file: " ++ failure.message
  | .noText => ascii "malformed object file: no .text section"

/-- The section a line starts. -/
def Section.ofHeader? (line : Bytes) : Option Section :=
  [Section.text, .symbol, .relocation].find? (·.header == line)

/-- The word on a line. -/
def readWord (line : Bytes) : Except ContentError Word :=
  if line.length ≠ 8 then .error (.wordLength line)
  else
    match Numeral.parse 16 0xffffffff line with
    | .ok value => .ok (BitVec.ofNat 32 value)
    | .error e => .error (.word line e)

/-- The entry on a line: a decimal address, a tab and a name. -/
def readEntry (line : Bytes) : Except ContentError Entry :=
  match line.span (· != Ascii.tab) with
  | (address, _ :: name) =>
    if name.isEmpty then .error (.entry line)
    else
      match Numeral.parse 10 0xffffffff address with
      | .ok value => .ok ⟨name, BitVec.ofNat 32 value⟩
      | .error e => .error (.address address e)
  | (_, []) => .error (.entry line)

/-- An object file, read so far. -/
structure Loading where
  /-- What was read. -/
  program : Program := {}
  /-- The section being read. -/
  current : Option Section := none
  /-- The sections met. -/
  seen : List Section := []
  /-- The number of lines read. -/
  lines : Nat := 0

namespace Loading

/-- Adds a line to the section being read. -/
def content (l : Loading) (line : Bytes) : Except ContentError Loading :=
  match l.current with
  | none => .error (.outside line)
  | some .text =>
    match readWord line with
    | .error e => .error e
    | .ok w => .ok { l with program := { l.program with text := l.program.text.push w } }
  | some .symbol =>
    match readEntry line with
    | .error e => .error e
    | .ok entry =>
      match l.program.symbols.add entry.name entry.address with
      | .error e => .error (.table e)
      | .ok symbols => .ok { l with program := { l.program with symbols } }
  | some .relocation =>
    match readEntry line with
    | .error e => .error e
    | .ok entry =>
      match l.program.relocations.add entry.name entry.address with
      | .error e => .error (.table e)
      | .ok relocations => .ok { l with program := { l.program with relocations } }

/-- Reads one line. -/
def step (l : Loading) (text : Bytes) : Except LoadError Loading :=
  let line := trim text
  let l := { l with lines := l.lines + 1 }
  if line.isEmpty then .ok { l with current := none }
  else
    match Section.ofHeader? line with
    | some sec =>
      if sec ∈ l.seen then .error (.repeatedSection l.lines sec)
      else .ok { l with current := some sec, seen := sec :: l.seen }
    | none =>
      let number := l.lines
      match l.content line with
      | .ok l => .ok l
      | .error e => .error (.content number e)

end Loading

namespace Program

/-- Reads an object file. -/
def read (source : Source) : Except LoadError Program := do
  let scan := source.scan
  let loading ← scan.lines.foldlM Loading.step {}
  match scan.failure with
  | some failure => throw (.unreadable failure)
  | none => if .text ∈ loading.seen then return loading.program else throw .noText

/-- The word at an address of a program whose text starts at `base`. -/
def wordAt? (p : Program) (base address : Address) : Option Word :=
  if address < base ∨ (address.toNat - base.toNat) % 4 ≠ 0 then none
  else p.text[(address.toNat - base.toNat) / 4]?

end Program

end MipsAssembler
