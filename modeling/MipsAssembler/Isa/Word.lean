/-!
# Machine words

A machine word is 32 bits. Its bit groups are read by the field views `opcode`, `rs`, `rt`, `rd`,
`shamt`, `funct`, `imm` and `target`; the three encoding formats put a word together from fields:

* `Word.register`: `000000 | rs | rt | rd | shamt | funct`
* `Word.immediate`: `opcode | rs | rt | imm`
* `Word.jump`: `opcode | target`

Each field of a word put together reads back as it was given.
-/

namespace MipsAssembler

/-- A machine word. -/
abbrev Word := BitVec 32

/-- The address of a byte; arithmetic on addresses wraps around. -/
abbrev Address := BitVec 32

namespace Word

/-! ## Field views -/

/-- Bits 31 to 26. -/
def opcode (w : Word) : BitVec 6 := w.extractLsb' 26 6

/-- Bits 25 to 21. -/
def rs (w : Word) : BitVec 5 := w.extractLsb' 21 5

/-- Bits 20 to 16. -/
def rt (w : Word) : BitVec 5 := w.extractLsb' 16 5

/-- Bits 15 to 11. -/
def rd (w : Word) : BitVec 5 := w.extractLsb' 11 5

/-- Bits 10 to 6. -/
def shamt (w : Word) : BitVec 5 := w.extractLsb' 6 5

/-- Bits 5 to 0. -/
def funct (w : Word) : BitVec 6 := w.extractLsb' 0 6

/-- Bits 15 to 0. -/
def imm (w : Word) : BitVec 16 := w.extractLsb' 0 16

/-- Bits 25 to 0. -/
def target (w : Word) : BitVec 26 := w.extractLsb' 0 26

/-- The immediate as a signed number. -/
def signedImm (w : Word) : Int := w.imm.toInt

/-- The distance in bytes from the instruction after a branch to its target. -/
def branchOffset (w : Word) : Int := w.signedImm * 4

/-! ## Formats -/

/-- A word in the register format. -/
def register (rs rt rd shamt : BitVec 5) (funct : BitVec 6) : Word :=
  0#6 ++ rs ++ rt ++ rd ++ shamt ++ funct

/-- A word in the immediate format. -/
def immediate (opcode : BitVec 6) (rs rt : BitVec 5) (imm : BitVec 16) : Word :=
  opcode ++ rs ++ rt ++ imm

/-- A word in the jump format. -/
def jump (opcode : BitVec 6) (target : BitVec 26) : Word :=
  opcode ++ target

/-! ## Fields of a word put together -/

section Fields

variable (op fn : BitVec 6) (s t d h : BitVec 5) (i : BitVec 16) (j : BitVec 26)

@[simp] theorem opcode_register : (register s t d h fn).opcode = 0#6 := by
  simp only [register, opcode, BitVec.extractLsb'_append_eq_of_le, BitVec.extractLsb'_eq_self,
    Nat.reduceLeDiff, Nat.reduceSub, Nat.le_refl, Nat.sub_self]

@[simp] theorem rs_register : (register s t d h fn).rs = s := by
  simp only [register, rs, BitVec.extractLsb'_append_eq_of_le,
    BitVec.extractLsb'_append_eq_of_add_le, BitVec.extractLsb'_eq_self, Nat.reduceLeDiff,
    Nat.reduceSub, Nat.le_refl, Nat.zero_add, Nat.sub_self]

@[simp] theorem rt_register : (register s t d h fn).rt = t := by
  simp only [register, rt, BitVec.extractLsb'_append_eq_of_le,
    BitVec.extractLsb'_append_eq_of_add_le, BitVec.extractLsb'_eq_self, Nat.reduceLeDiff,
    Nat.reduceSub, Nat.le_refl, Nat.zero_add, Nat.sub_self]

@[simp] theorem rd_register : (register s t d h fn).rd = d := by
  simp only [register, rd, BitVec.extractLsb'_append_eq_of_le,
    BitVec.extractLsb'_append_eq_of_add_le, BitVec.extractLsb'_eq_self, Nat.reduceLeDiff,
    Nat.reduceSub, Nat.le_refl, Nat.zero_add, Nat.sub_self]

@[simp] theorem shamt_register : (register s t d h fn).shamt = h := by
  simp only [register, shamt, BitVec.extractLsb'_append_eq_of_le,
    BitVec.extractLsb'_append_eq_of_add_le, BitVec.extractLsb'_eq_self, Nat.le_refl, Nat.zero_add,
    Nat.sub_self]

@[simp] theorem funct_register : (register s t d h fn).funct = fn := by
  simp only [register, funct, BitVec.extractLsb'_append_eq_of_add_le, BitVec.extractLsb'_eq_self,
    Nat.le_refl, Nat.zero_add]

@[simp] theorem opcode_immediate : (immediate op s t i).opcode = op := by
  simp only [immediate, opcode, BitVec.extractLsb'_append_eq_of_le, BitVec.extractLsb'_eq_self,
    Nat.reduceLeDiff, Nat.reduceSub, Nat.le_refl, Nat.sub_self]

@[simp] theorem rs_immediate : (immediate op s t i).rs = s := by
  simp only [immediate, rs, BitVec.extractLsb'_append_eq_of_le,
    BitVec.extractLsb'_append_eq_of_add_le, BitVec.extractLsb'_eq_self, Nat.reduceLeDiff,
    Nat.reduceSub, Nat.le_refl, Nat.zero_add, Nat.sub_self]

@[simp] theorem rt_immediate : (immediate op s t i).rt = t := by
  simp only [immediate, rt, BitVec.extractLsb'_append_eq_of_le,
    BitVec.extractLsb'_append_eq_of_add_le, BitVec.extractLsb'_eq_self, Nat.le_refl, Nat.zero_add,
    Nat.sub_self]

@[simp] theorem imm_immediate : (immediate op s t i).imm = i := by
  simp only [immediate, imm, BitVec.extractLsb'_append_eq_of_add_le, BitVec.extractLsb'_eq_self,
    Nat.le_refl, Nat.zero_add]

@[simp] theorem opcode_jump : (jump op j).opcode = op := by
  simp only [jump, opcode, BitVec.extractLsb'_append_eq_of_le, BitVec.extractLsb'_eq_self,
    Nat.le_refl, Nat.sub_self]

@[simp] theorem target_jump : (jump op j).target = j := by
  simp only [jump, target, BitVec.extractLsb'_append_eq_of_add_le, BitVec.extractLsb'_eq_self,
    Nat.le_refl, Nat.zero_add]

end Fields

end Word

end MipsAssembler
