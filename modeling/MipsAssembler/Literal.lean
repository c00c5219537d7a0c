import MipsAssembler.Rejection
import MipsAssembler.Text.Numeral

/-!
# Integer literals

A literal is an optional sign and then digits: decimal ones, or hexadecimal ones behind `0x` or
`0X`. `Literal.parse` gives its value if that lies in a range. The value must fit a signed 64-bit
number before the range is looked at.
-/

namespace MipsAssembler.Literal

/-- Whether a token has a minus sign, and what stands behind its sign. -/
def sign : Bytes → Bool × Bytes
  | 0x2d :: rest => (true, rest)
  | 0x2b :: rest => (false, rest)
  | token => (false, token)

/-- The base of unsigned digits, and the digits behind its mark. -/
def radix : Bytes → Nat × Bytes
  | 0x30 :: 0x78 :: digits => (16, digits)
  | 0x30 :: 0x58 :: digits => (16, digits)
  | digits => (10, digits)

/-- The value of a literal between `least` and `greatest`. -/
def parse (token : Bytes) (least greatest : Int) : Except OperandError Int :=
  let (negative, rest) := sign token
  let (base, digits) := radix rest
  match Numeral.parse base 0xffffffffffffffff digits with
  | .error .malformed => .error (.notInteger token)
  | .error .tooLarge => .error (.tooWide token)
  | .ok magnitude =>
    let value : Int := if negative then -magnitude else magnitude
    if value < -0x8000000000000000 ∨ 0x7fffffffffffffff < value then .error (.tooWide token)
    else if value < least ∨ greatest < value then .error (.outside value least greatest)
    else .ok value

end MipsAssembler.Literal
