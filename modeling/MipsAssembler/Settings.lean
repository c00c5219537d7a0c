import MipsAssembler.Isa.Word
import MipsAssembler.Text.Quoted

/-!
# Settings

What can be chosen about a run of the assembler, and which choices are usable. `Settings.check`
reports the first thing wrong. The end of the image is computed in 64 bits, where it may wrap.
-/

namespace MipsAssembler

/-- The order of the bytes of a word in memory. -/
inductive ByteOrder where
  /-- The most significant byte first. -/
  | big
  /-- The least significant byte first. -/
  | little
  deriving DecidableEq, Repr

/-- The name of a byte order. -/
def ByteOrder.name : ByteOrder → Bytes
  | .big => ascii "big"
  | .little => ascii "little"

/-- The settings of a run. -/
structure Settings where
  /-- The address of the first instruction. -/
  textBase : Address := 0
  /-- The most operands a source line may have. -/
  maxArgs : Int64 := 3
  /-- The size of the program image in bytes. -/
  imageSize : UInt64 := 0x100000
  /-- The name of the byte order of the image. -/
  byteOrder : Bytes := ByteOrder.big.name
  deriving DecidableEq, Repr

namespace Settings

/-- The byte order the settings name; any unknown name stands for big. -/
def order (s : Settings) : ByteOrder :=
  if s.byteOrder = ByteOrder.little.name then .little else .big

/-- Why settings cannot be used. -/
inductive Error where
  /-- The first address is no multiple of four. -/
  | textBaseUnaligned
  /-- No line could have an operand. -/
  | maxArgsNotPositive
  /-- The image is empty, or holds no whole number of words. -/
  | imageSizeNotWords
  /-- The image does not end inside the address space. -/
  | imageTooLarge
  /-- The byte order is none. -/
  | unknownByteOrder
  deriving DecidableEq, Repr

/-- The wording of an error. -/
def Error.message : Error → Bytes
  | .textBaseUnaligned => ascii "text_base must be word aligned"
  | .maxArgsNotPositive => ascii "max_args must be > 0"
  | .imageSizeNotWords => ascii "image_size must be a nonzero multiple of 4"
  | .imageTooLarge => ascii "text_base + image_size must fit in 32 bits"
  | .unknownByteOrder =>
    ascii "byte_order must be " ++ quoted ByteOrder.big.name ++ ascii " or " ++
      quoted ByteOrder.little.name

/-- The end of the image, in 64 bits. -/
def imageEnd (s : Settings) : UInt64 :=
  UInt64.ofNat s.textBase.toNat + s.imageSize

/-- Checks that settings can be used. -/
def check (s : Settings) : Except Error Unit := do
  if s.textBase.toNat % 4 ≠ 0 then throw .textBaseUnaligned
  if s.maxArgs ≤ 0 then throw .maxArgsNotPositive
  if s.imageSize = 0 ∨ s.imageSize % 4 ≠ 0 then throw .imageSizeNotWords
  if 0x100000000 < s.imageEnd then throw .imageTooLarge
  if s.byteOrder ≠ ByteOrder.big.name ∧ s.byteOrder ≠ ByteOrder.little.name then
    throw .unknownByteOrder

end Settings

end MipsAssembler
