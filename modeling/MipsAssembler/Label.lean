import MipsAssembler.Text.Bytes

/-!
# Labels

A label is a letter or underscore, followed by letters, digits and underscores, all of them ASCII.
-/

namespace MipsAssembler

/-- A byte a label may start with. -/
def isLabelStart (b : UInt8) : Bool :=
  b == 0x5f || Ascii.isLetter b

/-- A byte a label may hold behind its start. -/
def isLabelByte (b : UInt8) : Bool :=
  isLabelStart b || Ascii.isDigit b

/-- Whether a name can be used as a label. -/
def isLabel : Bytes → Bool
  | [] => false
  | b :: rest => isLabelStart b && rest.all isLabelByte

end MipsAssembler
