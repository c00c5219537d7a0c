import MipsAssembler.Event
import MipsAssembler.Settings
import Std.Data.HashMap

/-!
# Program images

An image is a stretch of memory that starts at a base address. Words are stored and loaded at
word-aligned addresses inside it; what was never stored reads as zero. Its length is the distance
from the base to the end of the highest word stored.
-/

namespace MipsAssembler

/-- A stretch of memory. -/
structure Image where
  /-- The address of the first byte. -/
  base : Address
  /-- The number of bytes that fit. -/
  capacity : UInt64
  /-- The order of the bytes of a word. -/
  order : ByteOrder
  /-- The words stored, by address. -/
  words : Std.HashMap Address Word := ∅
  /-- One past the highest byte stored, counted from the base. -/
  length : Nat := 0

namespace Image

/-- Why an address cannot be used. -/
inductive Error where
  /-- It is no multiple of four. -/
  | unaligned (address : Address)
  /-- It lies before the image. -/
  | below (address base : Address)
  /-- The word there would not lie inside the image. -/
  | past (address : Address) (capacity : UInt64)
  deriving DecidableEq, Repr

/-- The wording of an error. -/
def Error.message : Error → Bytes
  | .unaligned address =>
    ascii "address " ++ hexAddress address.toNat ++ ascii " is not word aligned"
  | .below address base =>
    ascii "address " ++ hexAddress address.toNat ++ ascii " is below image base " ++
      hexAddress base.toNat
  | .past address capacity =>
    ascii "address " ++ hexAddress address.toNat ++ ascii " is past the " ++
      decimal capacity.toNat ++ ascii "-byte image"

/-- The empty image that settings describe. -/
def ofSettings (s : Settings) : Image where
  base := s.textBase
  capacity := s.imageSize
  order := s.order

/-- The distance of an address from the base, if a word can be stored there. -/
def offset (im : Image) (address : Address) : Except Error Nat :=
  if address.toNat % 4 ≠ 0 then .error (.unaligned address)
  else if address < im.base then .error (.below address im.base)
  else if im.capacity.toNat < address.toNat - im.base.toNat + 4 then
    .error (.past address im.capacity)
  else .ok (address.toNat - im.base.toNat)

/-- Stores a word. -/
@[inline] def store (im : Image) (address : Address) (w : Word) : Except Error Image :=
  match im.offset address with
  | .error e => .error e
  | .ok offset =>
    .ok { im with
      words := im.words.insert address w
      length := max im.length (offset + 4) }

/-- Loads the word at an address. -/
def load (im : Image) (address : Address) : Except Error Word :=
  (im.offset address).map fun _ => im.words.getD address 0

/-- The bytes of a word in an order. -/
def wordBytes (order : ByteOrder) (w : Word) : Bytes :=
  let bytes := [24, 16, 8, 0].map fun shift => UInt8.ofBitVec (w.extractLsb' shift 8)
  match order with
  | .big => bytes
  | .little => bytes.reverse

/-- The byte at a distance from the base. -/
def byteAt (im : Image) (i : Nat) : UInt8 :=
  let position := im.base.toNat + i
  let w := im.words.getD (BitVec.ofNat 32 (position / 4 * 4)) 0
  (wordBytes im.order w).getD (position % 4) 0

/-- The bytes from the base to the end of the highest word stored. -/
def bytes (im : Image) : Bytes :=
  (List.range im.length).map im.byteAt

/-- Stores words until one is refused, and gives the reason for that. -/
def storeAll (im : Image) : List PlacedWord → Image × Option Error
  | [] => (im, none)
  | w :: rest =>
    match im.store w.address w.value with
    | .ok im => im.storeAll rest
    | .error e => (im, some e)

end Image

end MipsAssembler
