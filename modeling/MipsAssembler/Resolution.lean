import MipsAssembler.Isa.Instruction
import MipsAssembler.Literal
import MipsAssembler.Statement

/-!
# Resolving operands

From tokens to an encoded instruction: the mnemonic is looked up, the number of operands is
checked, then registers, then immediates, then labels, and the first thing wrong is reported.

* `displacement` measures a branch in words.
* `RawInstruction.resolve` gives the instruction; branch labels are looked up, and a jump keeps a
  zero target.
* `RawInstruction.encode` gives its word and records the label of a jump for the linker.
-/

namespace MipsAssembler

/-- The number of words from the instruction after the one at `source` to `target`. It must be
whole and fit a signed 16-bit immediate. -/
def displacement (source target : Address) : Except Rejection Int :=
  let distance : Int := target.toNat - (source.toNat + 4)
  if distance % 4 ≠ 0 then .error (.branchUnaligned source target)
  else if distance / 4 < -0x8000 ∨ 0x7fff < distance / 4 then
    .error (.branchTooFar source target distance)
  else .ok (distance / 4)

/-- The register a token names. -/
def registerOperand (token : Bytes) : Except Rejection Register :=
  match Register.ofName? token with
  | some r => .ok r
  | none => .error (.operand (.notRegister token))

namespace Family

/-- The least and the greatest immediate of a family. -/
def immediateRange : Family → Int × Int
  | .shift => (0, 31)
  | .unsignedImmediate | .loadUpper => (0, 0xffff)
  | _ => (-0x8000, 0x7fff)

/-- The immediate a token denotes. -/
def immediateOperand (f : Family) (token : Bytes) : Except Rejection Int :=
  (Literal.parse token f.immediateRange.1 f.immediateRange.2).mapError .operand

end Family

/-- Where an instruction stands, and the labels it may refer to. -/
structure Site where
  /-- The address of the instruction. -/
  address : Address
  /-- The labels of the program, if they are known. -/
  symbols : Option SymbolTable := none

namespace Site

/-- The displacement of a branch to a label. -/
def branchOperand (site : Site) (label : Bytes) : Except Rejection Int :=
  match site.symbols.bind (·.lookup? label) with
  | some target => displacement site.address target
  | none => .error (.undefinedSymbol label)

/-- The operands that the tokens behind a mnemonic denote. -/
def operands (site : Site) (name : Bytes) : (f : Family) → List Bytes →
    Except Rejection (Operands f)
  | .threeRegister, [rd, rs, rt] => do
    let rd ← registerOperand rd
    let rs ← registerOperand rs
    let rt ← registerOperand rt
    return .threeRegister rd rs rt
  | .shift, [rd, rt, amount] => do
    let rd ← registerOperand rd
    let rt ← registerOperand rt
    let amount ← Family.shift.immediateOperand amount
    return .shift rd rt (.ofInt 5 amount)
  | .jumpRegister, [rs] => do
    let rs ← registerOperand rs
    return .jumpRegister rs
  | .multiplyDivide, [rs, rt] => do
    let rs ← registerOperand rs
    let rt ← registerOperand rt
    return .multiplyDivide rs rt
  | .moveFrom, [rd] => do
    let rd ← registerOperand rd
    return .moveFrom rd
  | .signedImmediate, [rt, rs, imm] => do
    let rt ← registerOperand rt
    let rs ← registerOperand rs
    let imm ← Family.signedImmediate.immediateOperand imm
    return .signedImmediate rt rs (.ofInt 16 imm)
  | .unsignedImmediate, [rt, rs, imm] => do
    let rt ← registerOperand rt
    let rs ← registerOperand rs
    let imm ← Family.unsignedImmediate.immediateOperand imm
    return .unsignedImmediate rt rs (.ofInt 16 imm)
  | .loadUpper, [rt, imm] => do
    let rt ← registerOperand rt
    let imm ← Family.loadUpper.immediateOperand imm
    return .loadUpper rt (.ofInt 16 imm)
  | .memory, [rt, offset, base] => do
    let rt ← registerOperand rt
    let base ← registerOperand base
    let offset ← Family.memory.immediateOperand offset
    return .memory rt (.ofInt 16 offset) base
  | .branch, [rs, rt, label] => do
    let rs ← registerOperand rs
    let rt ← registerOperand rt
    let words ← site.branchOperand label
    return .branch rs rt (.ofInt 16 words)
  | .jump, [label] =>
    if isLabel label then .ok (.jump 0) else .error (.invalidLabel label)
  | f, args => .error (.arity name f.arity args.length)

end Site

namespace RawInstruction

/-- The instruction that tokens denote at a site. -/
def resolve (i : RawInstruction) (site : Site) : Except Rejection Instruction :=
  match Operation.ofName? i.name with
  | none => .error (.unknownMnemonic i.name)
  | some op => (site.operands op.name op.family i.args).map (Instruction.mk op)

/-- The label that the word of an instruction leaves to the linker: the operand of a jump. -/
def reference? (i : RawInstruction) (resolved : Instruction) : Option Bytes :=
  if resolved.operation.family = .jump then i.args.head? else none

/-- Records the label that an instruction leaves to the linker. -/
def record (i : RawInstruction) (resolved : Instruction) (address : Address)
    (relocations : Option SymbolTable) : Except Rejection (Option SymbolTable) :=
  match i.reference? resolved, relocations with
  | none, table => .ok table
  | some label, none => .error (.noRelocationTable label)
  | some label, some table =>
    match table.add label address with
    | .ok table => .ok (some table)
    | .error e => .error (.relocation label e)

/-- The word of an instruction at a site, and the relocation table behind it. -/
def encode (i : RawInstruction) (site : Site) (relocations : Option SymbolTable) :
    Except Rejection (Word × Option SymbolTable) := do
  let resolved ← i.resolve site
  let relocations ← i.record resolved site.address relocations
  return (resolved.encode, relocations)

end RawInstruction

end MipsAssembler
