import MipsAssembler.Isa.Operation
import MipsAssembler.Isa.Register
import MipsAssembler.Literal
import MipsAssembler.Statement

/-!
# Pseudo-instructions

Instructions of the source language that the machine does not have, and the real ones they stand
for. `RawInstruction.expand` leaves every other instruction alone.

* `li rd, imm` is one `addiu` if the constant fits its immediate, and else a `lui` and an `ori`.
* `neg rd, rs` is a `subu` from zero.
* `mfhilo rhi, rlo` is an `mfhi` and an `mflo`.
-/

namespace MipsAssembler

/-- The pseudo-instructions. -/
inductive Pseudo where
  | li | neg | mfhilo
  deriving DecidableEq, Repr

namespace Pseudo

/-- The mnemonic. -/
def name : Pseudo → Bytes
  | .li => ascii "li"
  | .neg => ascii "neg"
  | .mfhilo => ascii "mfhilo"

/-- The pseudo-instruction with this mnemonic. -/
def ofName? (mnemonic : Bytes) : Option Pseudo :=
  [Pseudo.li, .neg, .mfhilo].find? (·.name == mnemonic)

/-- The number of operands each takes. -/
def arity : Pseudo → Nat
  | .li | .neg | .mfhilo => 2

/-- A real instruction with these operands. -/
def real (op : Operation) (args : List Bytes) : RawInstruction :=
  ⟨op.name, args⟩

/-- The instructions that load a constant: its low half is written over a zero one if the constant
does not fit a signed 16-bit immediate. -/
def loadConstant (rd : Bytes) (value : Int) : List RawInstruction :=
  if -0x8000 ≤ value ∧ value ≤ 0x7fff then
    [real .addiu [rd, Register.zero.name, decimalInt value]]
  else
    let pattern := BitVec.ofInt 32 value
    [real .lui [rd, decimal (pattern.extractLsb' 16 16).toNat],
      real .ori [rd, rd, decimal (pattern.extractLsb' 0 16).toNat]]

/-- The real instructions that two operands of a pseudo-instruction stand for. -/
def expansion (a b : Bytes) : Pseudo → Except OperandError (List RawInstruction)
  | .li => (Literal.parse b (-0x80000000) 0x7fffffff).map (loadConstant a)
  | .neg => .ok [real .subu [a, Register.zero.name, b]]
  | .mfhilo => .ok [real .mfhi [a], real .mflo [b]]

end Pseudo

namespace RawInstruction

/-- The real instructions that an instruction stands for; one that is no pseudo-instruction stands
for itself, known or not. -/
def expand (i : RawInstruction) : Except Rejection (List RawInstruction) :=
  match Pseudo.ofName? i.name with
  | none => .ok [i]
  | some pseudo =>
    match i.args with
    | [a, b] => (pseudo.expansion a b).mapError .operand
    | args => .error (.arity i.name pseudo.arity args.length)

end RawInstruction

end MipsAssembler
