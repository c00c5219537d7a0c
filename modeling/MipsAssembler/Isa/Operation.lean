import MipsAssembler.Isa.Word
import MipsAssembler.Text.Bytes

/-!
# Operations

The operations of the instruction set. Operations that share operands and their checks form a
family; a family has one encoding format and one number of operands. `Operation.spec` is the table
of the instruction set, and `Operation.ofName?` and `Operation.ofWord?` look operations up in it by
mnemonic and by the fixed fields of a word.
-/

namespace MipsAssembler

/-- The three ways a word is divided into fields. -/
inductive Format where
  /-- Register fields and a function code. -/
  | register
  /-- Two registers and a 16-bit immediate. -/
  | immediate
  /-- A 26-bit target. -/
  | jump
  deriving DecidableEq, Repr

/-- The formats, in the order of their numbers. -/
def Format.all : List Format := [.register, .immediate, .jump]

/-- Operations with the same operands. -/
inductive Family where
  /-- `rd, rs, rt` -/
  | threeRegister
  /-- `rd, rt, shamt` -/
  | shift
  /-- `rs` -/
  | jumpRegister
  /-- `rs, rt` -/
  | multiplyDivide
  /-- `rd` -/
  | moveFrom
  /-- `rt, rs, imm`, the immediate signed -/
  | signedImmediate
  /-- `rt, rs, imm`, the immediate unsigned -/
  | unsignedImmediate
  /-- `rt, imm` -/
  | loadUpper
  /-- `rt, offset, base` -/
  | memory
  /-- `rs, rt, label` -/
  | branch
  /-- `label` -/
  | jump
  deriving DecidableEq, Repr

namespace Family

/-- The families, in the order of their numbers. -/
def all : List Family :=
  [.threeRegister, .shift, .jumpRegister, .multiplyDivide, .moveFrom, .signedImmediate,
    .unsignedImmediate, .loadUpper, .memory, .branch, .jump]

/-- The encoding format of every operation of the family. -/
def format : Family → Format
  | .threeRegister | .shift | .jumpRegister | .multiplyDivide | .moveFrom => .register
  | .signedImmediate | .unsignedImmediate | .loadUpper | .memory | .branch => .immediate
  | .jump => .jump

/-- The number of operands in source text; the offset and the base of a memory operand count
separately. -/
def arity : Family → Nat
  | .threeRegister | .shift | .signedImmediate | .unsignedImmediate | .memory | .branch => 3
  | .multiplyDivide | .loadUpper => 2
  | .jumpRegister | .moveFrom | .jump => 1

end Family

/-- The operations of the instruction set. -/
inductive Operation where
  | addu | subu | or | xor | slt | sltu | sll | jr | mult | div | mfhi | mflo
  | addiu | ori | xori | lui | lb | lbu | lw | sb | sw | beq | bne
  | j | jal
  deriving DecidableEq, Repr

/-- What is fixed about an operation. -/
structure Spec where
  /-- The name in source text. -/
  mnemonic : String
  /-- What operands it takes. -/
  family : Family
  /-- The opcode field; zero throughout the register format. -/
  opcode : BitVec 6 := 0
  /-- The function code of the register format. -/
  funct : BitVec 6 := 0
  deriving DecidableEq, Repr

namespace Operation

/-- The operations, in the order of their numbers. -/
def all : List Operation :=
  [.addu, .subu, .or, .xor, .slt, .sltu, .sll, .jr, .mult, .div, .mfhi, .mflo,
    .addiu, .ori, .xori, .lui, .lb, .lbu, .lw, .sb, .sw, .beq, .bne, .j, .jal]

/-- The table of the instruction set. -/
def spec : Operation → Spec
  | .addu => { mnemonic := "addu", family := .threeRegister, funct := 0x21 }
  | .subu => { mnemonic := "subu", family := .threeRegister, funct := 0x23 }
  | .or => { mnemonic := "or", family := .threeRegister, funct := 0x25 }
  | .xor => { mnemonic := "xor", family := .threeRegister, funct := 0x26 }
  | .slt => { mnemonic := "slt", family := .threeRegister, funct := 0x2a }
  | .sltu => { mnemonic := "sltu", family := .threeRegister, funct := 0x2b }
  | .sll => { mnemonic := "sll", family := .shift, funct := 0x00 }
  | .jr => { mnemonic := "jr", family := .jumpRegister, funct := 0x08 }
  | .mult => { mnemonic := "mult", family := .multiplyDivide, funct := 0x18 }
  | .div => { mnemonic := "div", family := .multiplyDivide, funct := 0x1a }
  | .mfhi => { mnemonic := "mfhi", family := .moveFrom, funct := 0x10 }
  | .mflo => { mnemonic := "mflo", family := .moveFrom, funct := 0x12 }
  | .addiu => { mnemonic := "addiu", family := .signedImmediate, opcode := 0x09 }
  | .ori => { mnemonic := "ori", family := .unsignedImmediate, opcode := 0x0d }
  | .xori => { mnemonic := "xori", family := .unsignedImmediate, opcode := 0x0e }
  | .lui => { mnemonic := "lui", family := .loadUpper, opcode := 0x0f }
  | .lb => { mnemonic := "lb", family := .memory, opcode := 0x20 }
  | .lbu => { mnemonic := "lbu", family := .memory, opcode := 0x24 }
  | .lw => { mnemonic := "lw", family := .memory, opcode := 0x23 }
  | .sb => { mnemonic := "sb", family := .memory, opcode := 0x28 }
  | .sw => { mnemonic := "sw", family := .memory, opcode := 0x2b }
  | .beq => { mnemonic := "beq", family := .branch, opcode := 0x04 }
  | .bne => { mnemonic := "bne", family := .branch, opcode := 0x05 }
  | .j => { mnemonic := "j", family := .jump, opcode := 0x02 }
  | .jal => { mnemonic := "jal", family := .jump, opcode := 0x03 }

/-- The mnemonic of an operation. -/
def name (op : Operation) : Bytes := ascii op.spec.mnemonic

/-- The family of an operation. -/
def family (op : Operation) : Family := op.spec.family

/-- The encoding format of an operation. -/
def format (op : Operation) : Format := op.family.format

/-- The mnemonics with their operations. -/
def nameTable : List (Bytes × Operation) :=
  all.map fun op => (op.name, op)

/-- The operation with this mnemonic. -/
def ofName? (mnemonic : Bytes) : Option Operation :=
  nameTable.lookup mnemonic

/-- Whether the fixed fields of a word are those of the operation. -/
def selectedBy (op : Operation) (w : Word) : Bool :=
  w.opcode == op.spec.opcode && (op.format != .register || w.funct == op.spec.funct)

/-- The operation that the fixed fields of a word select. -/
def ofWord? (w : Word) : Option Operation :=
  all.find? (·.selectedBy w)

/-- The operation with this number, counted from one. -/
def ofNumber? : Nat → Option Operation
  | 0 => none
  | n + 1 => all[n]?

/-- The mnemonic of an operation that may be missing. -/
def nameOf : Option Operation → Bytes
  | some op => op.name
  | none => ascii "unknown"

theorem mem_all (op : Operation) : op ∈ all := by
  cases op <;> decide

end Operation

end MipsAssembler
