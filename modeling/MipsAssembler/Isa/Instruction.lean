import MipsAssembler.Isa.Operation
import MipsAssembler.Isa.Register

/-!
# Instructions

An instruction is an operation with the operands of its family.

* `Instruction.encode` gives its word; fields that the family does not use are zero.
* `Instruction.decode?` reads a word back, and refuses one whose unused fields are not zero;
  `Instruction.decode?_encode` says that it undoes `encode`.
* `Instruction.render` is the instruction as the assembler reads it, except that branches show
  their displacement and jumps their byte target; `disassemble` shows any word.
-/

namespace MipsAssembler

/-- The operands of a family, as the fields of the word hold them. -/
inductive Operands : Family → Type where
  | threeRegister (rd rs rt : Register) : Operands .threeRegister
  | shift (rd rt : Register) (amount : BitVec 5) : Operands .shift
  | jumpRegister (rs : Register) : Operands .jumpRegister
  | multiplyDivide (rs rt : Register) : Operands .multiplyDivide
  | moveFrom (rd : Register) : Operands .moveFrom
  | signedImmediate (rt rs : Register) (imm : BitVec 16) : Operands .signedImmediate
  | unsignedImmediate (rt rs : Register) (imm : BitVec 16) : Operands .unsignedImmediate
  | loadUpper (rt : Register) (imm : BitVec 16) : Operands .loadUpper
  | memory (rt : Register) (offset : BitVec 16) (base : Register) : Operands .memory
  | branch (rs rt : Register) (displacement : BitVec 16) : Operands .branch
  | jump (target : BitVec 26) : Operands .jump
  deriving DecidableEq, Repr

namespace Operands

/-- The word with these operands and the given fixed fields. -/
def word (opcode funct : BitVec 6) : {f : Family} → Operands f → Word
  | _, .threeRegister rd rs rt => .register rs rt rd 0 funct
  | _, .shift rd rt amount => .register 0 rt rd amount funct
  | _, .jumpRegister rs => .register rs 0 0 0 funct
  | _, .multiplyDivide rs rt => .register rs rt 0 0 funct
  | _, .moveFrom rd => .register 0 0 rd 0 funct
  | _, .signedImmediate rt rs imm => .immediate opcode rs rt imm
  | _, .unsignedImmediate rt rs imm => .immediate opcode rs rt imm
  | _, .loadUpper rt imm => .immediate opcode 0 rt imm
  | _, .memory rt offset base => .immediate opcode base rt offset
  | _, .branch rs rt displacement => .immediate opcode rs rt displacement
  | _, .jump target => .jump opcode target

/-- The operands of a family in a word whose unused fields are zero. -/
def ofWord? (w : Word) : (f : Family) → Option (Operands f)
  | .threeRegister => if w.shamt = 0 then some (.threeRegister w.rd w.rs w.rt) else none
  | .shift => if w.rs = 0 then some (.shift w.rd w.rt w.shamt) else none
  | .jumpRegister =>
    if w.rt = 0 ∧ w.rd = 0 ∧ w.shamt = 0 then some (.jumpRegister w.rs) else none
  | .multiplyDivide => if w.rd = 0 ∧ w.shamt = 0 then some (.multiplyDivide w.rs w.rt) else none
  | .moveFrom => if w.rs = 0 ∧ w.rt = 0 ∧ w.shamt = 0 then some (.moveFrom w.rd) else none
  | .signedImmediate => some (.signedImmediate w.rt w.rs w.imm)
  | .unsignedImmediate => some (.unsignedImmediate w.rt w.rs w.imm)
  | .loadUpper => if w.rs = 0 then some (.loadUpper w.rt w.imm) else none
  | .memory => some (.memory w.rt w.imm w.rs)
  | .branch => some (.branch w.rs w.rt w.imm)
  | .jump => some (.jump w.target)

/-- The operands as text, in source order. -/
def render : {f : Family} → Operands f → Bytes
  | _, .threeRegister rd rs rt => spaced [rd.name, rs.name, rt.name]
  | _, .shift rd rt amount => spaced [rd.name, rt.name, decimal amount.toNat]
  | _, .jumpRegister rs => rs.name
  | _, .multiplyDivide rs rt => spaced [rs.name, rt.name]
  | _, .moveFrom rd => rd.name
  | _, .signedImmediate rt rs imm => spaced [rt.name, rs.name, decimalInt imm.toInt]
  | _, .unsignedImmediate rt rs imm => spaced [rt.name, rs.name, decimal imm.toNat]
  | _, .loadUpper rt imm => spaced [rt.name, decimal imm.toNat]
  | _, .memory rt offset base =>
    spaced [rt.name, decimalInt offset.toInt ++ ascii "(" ++ base.name ++ ascii ")"]
  | _, .branch rs rt displacement => spaced [rs.name, rt.name, decimalInt displacement.toInt]
  | _, .jump target => ascii "0x" ++ hex 7 (target.toNat * 4)

/-- The operands of a word put together from them read back. -/
theorem ofWord?_word (opcode funct : BitVec 6) {f : Family} (o : Operands f) :
    ofWord? (o.word opcode funct) f = some o := by
  cases o <;> simp [word, ofWord?]

end Operands

/-- An operation with its operands. -/
structure Instruction where
  /-- What is done. -/
  operation : Operation
  /-- What it is done to. -/
  operands : Operands operation.family
  deriving DecidableEq, Repr

namespace Instruction

/-- The word of an instruction. -/
def encode (i : Instruction) : Word :=
  i.operands.word i.operation.spec.opcode i.operation.spec.funct

/-- The instruction of a word. -/
def decode? (w : Word) : Option Instruction := do
  let operation ← Operation.ofWord? w
  let operands ← Operands.ofWord? w operation.family
  some ⟨operation, operands⟩

/-- An instruction as text. -/
def render (i : Instruction) : Bytes :=
  spaced [i.operation.name, i.operands.render]

/-- The fixed fields of an encoded instruction select its operation. -/
theorem ofWord?_encode (i : Instruction) : Operation.ofWord? i.encode = some i.operation := by
  obtain ⟨op, operands⟩ := i
  cases op <;> cases operands <;>
    simp [encode, Operands.word, Operation.ofWord?, Operation.all, Operation.selectedBy,
      Operation.format, Operation.family, Operation.spec, Family.format]

/-- Decoding undoes encoding. -/
theorem decode?_encode (i : Instruction) : decode? i.encode = some i := by
  have h : Operands.ofWord? i.encode i.operation.family = some i.operands :=
    Operands.ofWord?_word ..
  simp [decode?, ofWord?_encode, h]

end Instruction

/-- A word as text: its instruction, or its bits when it is none. -/
def disassemble (w : Word) : Bytes :=
  match Instruction.decode? w with
  | some i => i.render
  | none => ascii ".word " ++ hexAddress w.toNat

end MipsAssembler
