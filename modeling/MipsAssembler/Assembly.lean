import MipsAssembler.Encoding
import MipsAssembler.Expansion
import MipsAssembler.Image
import MipsAssembler.ObjectFile

/-!
# Assembling a program

`assemble` checks the settings and runs both passes over a source text; the second runs even when
the first reports faults, so the result covers every bad line. Then the words are stored in the
image, up to the first that does not fit. The result holds whatever could be assembled.
-/

namespace MipsAssembler

/-- What went wrong in an assembly. -/
inductive Fault where
  /-- A line was rejected. -/
  | line (fault : LineFault)
  /-- An input ended before its time. -/
  | read (fault : ReadFault)
  /-- A word could not be stored in the image. -/
  | image (error : Image.Error)
  deriving DecidableEq, Repr

/-- The wording of a fault. -/
def Fault.message : Fault → Bytes
  | .line fault => fault.message
  | .read fault => fault.message
  | .image error => error.message

/-- The faults of the first pass. -/
def Expansion.allFaults (e : Expansion) : List Fault :=
  e.faults.map .line ++ (e.readFault?.map Fault.read).toList

/-- The faults of the second pass. -/
def Encoding.allFaults (e : Encoding) : List Fault :=
  e.faults.map .line ++ (e.readFault?.map Fault.read).toList

/-- An assembled program. -/
structure Assembly where
  /-- The first pass. -/
  expansion : Expansion
  /-- The second pass. -/
  encoding : Encoding
  /-- The memory image of the words. -/
  image : Image
  /-- Why not all words are in the image. -/
  imageError : Option Image.Error

namespace Assembly

/-- The text between the passes. -/
def intermediate (a : Assembly) : Bytes := a.expansion.text

/-- The labels. -/
def symbols (a : Assembly) : SymbolTable := a.expansion.symbols

/-- The references left to the linker. -/
def relocations (a : Assembly) : SymbolTable := a.encoding.relocations

/-- The words with their addresses and sources. -/
def words (a : Assembly) : List PlacedWord := a.encoding.words

/-- The words alone. -/
def text (a : Assembly) : List Word := a.words.map (·.value)

/-- What happened, in order. -/
def events (a : Assembly) : List Event :=
  a.expansion.events.toList ++ a.encoding.events.toList

/-- Everything that went wrong: the faults of each pass, then that of the image. -/
def faults (a : Assembly) : List Fault :=
  a.expansion.allFaults ++ a.encoding.allFaults ++ (a.imageError.map Fault.image).toList

/-- The object file. -/
def object (a : Assembly) : Bytes :=
  renderObject a.text (some a.symbols) (some a.relocations)

end Assembly

/-- Assembles a source text. -/
def assemble (settings : Settings) (source : Source) : Except Settings.Error Assembly := do
  settings.check
  let expansion := Expansion.run settings source
  let encoding :=
    Encoding.run settings ⟨expansion.text, none⟩ expansion.symbols expansion.origins
  let (image, imageError) := (Image.ofSettings settings).storeAll encoding.words
  return { expansion, encoding, image, imageError }

end MipsAssembler
