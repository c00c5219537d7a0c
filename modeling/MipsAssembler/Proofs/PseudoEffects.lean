import Mathlib.Logic.Function.Basic
import MipsAssembler.Proofs.Disassembly

/-!
# What pseudo-instructions do

A pseudo-instruction stands for real ones, which have to do what it promises.

- `Machine`: the registers of the processor, and `Machine.execute` what the operations that occur in
  expansions do to them. `Machine.run` decodes words and executes them in order.
- `Pseudo.Means`: what a pseudo-instruction with its operands is to do, and in how many
  instructions, without asking for its expansion.
- `Computes`: instructions are encoded, as lines and wherever they stand, and their words have an
  effect. One instruction more has its effect first (`Computes.cons`).
- `expansion_computes_meaning`: the expansion of a pseudo-instruction does what it is to do.
-/

namespace MipsAssembler

/-! ## The machine -/

/-- The registers of the processor; `$zero` holds zero. -/
structure Machine where
  /-- The general-purpose registers. -/
  registers : Register → Word
  /-- The upper half of a product. -/
  hi : Word
  /-- The lower half of a product. -/
  lo : Word
  registers_zero : registers Register.zero = 0#32

namespace Machine

/-- Writes a register; `$zero` ignores it. -/
def write (m : Machine) (r : Register) (v : Word) : Machine :=
  if h : r = Register.zero then m
  else
    { m with
      registers := Function.update m.registers r v
      registers_zero := by rw [Function.update_of_ne (Ne.symm h), m.registers_zero] }

/-- What an operation of an expansion does. -/
def execute (m : Machine) : Instruction → Option Machine
  | ⟨.addiu, .signedImmediate rt rs imm⟩ => some (m.write rt (m.registers rs + imm.signExtend 32))
  | ⟨.ori, .unsignedImmediate rt rs imm⟩ => some (m.write rt (m.registers rs ||| imm.setWidth 32))
  | ⟨.lui, .loadUpper rt imm⟩ => some (m.write rt (imm ++ 0#16))
  | ⟨.subu, .threeRegister rd rs rt⟩ => some (m.write rd (m.registers rs - m.registers rt))
  | ⟨.mfhi, .moveFrom rd⟩ => some (m.write rd m.hi)
  | ⟨.mflo, .moveFrom rd⟩ => some (m.write rd m.lo)
  | _ => none

/-- Decodes words and executes them in order. -/
def run (m : Machine) (words : List Word) : Option Machine :=
  words.foldlM (fun m w => (Instruction.decode? w).bind m.execute) m

theorem write_zero (m : Machine) (v : Word) : m.write Register.zero v = m :=
  dif_pos rfl

theorem registers_write {r : Register} (h : r ≠ Register.zero) (m : Machine) (v : Word) :
    (m.write r v).registers r = v := by
  rw [write, dif_neg h]
  exact Function.update_self r v m.registers

/-- Of two writes to a register the second counts. -/
theorem write_write (m : Machine) (r : Register) (u v : Word) :
    (m.write r u).write r v = m.write r v := by
  by_cases h : r = Register.zero
  · subst h
    rw [write_zero, write_zero, write_zero]
  · rw [write, dif_neg h, write, dif_neg h]
    simp [write, h]

theorem lo_write (m : Machine) (r : Register) (v : Word) : (m.write r v).lo = m.lo := by
  by_cases h : r = Register.zero
  · subst h
    rw [write_zero]
  · rw [write, dif_neg h]

/-- The word of an instruction is executed before the words behind it. -/
theorem run_encode (m : Machine) (i : Instruction) (words : List Word) :
    m.run (i.encode :: words) = (m.execute i).bind (·.run words) := by
  rw [run, List.foldlM_cons, Instruction.decode?_encode]
  rfl

end Machine

/-! ## What instructions compute -/

/-- Instructions are encoded, as lines and wherever they stand, without touching a table, and their
words executed in order have an effect on every machine. -/
def Computes (instructions : List RawInstruction) (effect : Machine → Machine) : Prop :=
  ∃ words, List.Forall₂ (fun i w => EncodesTo i.render w) instructions words ∧
    ∀ m : Machine, m.run words = some (effect m)

theorem Computes.nil : Computes [] id :=
  ⟨[], .nil, fun _ => rfl⟩

/-- One instruction in front has its effect before the others. -/
theorem Computes.cons {i : RawInstruction} {instructions : List RawInstruction} {j : Instruction}
    {effect later : Machine → Machine} (hi : EncodesTo i.render j.encode)
    (h : Computes instructions later)
    (hj : ∀ m : Machine, (m.execute j).map later = some (effect m)) :
    Computes (i :: instructions) effect := by
  obtain ⟨words, hwords, hrun⟩ := h
  refine ⟨j.encode :: words, .cons hi hwords, fun m => ?_⟩
  obtain ⟨m', hm', hlater⟩ := Option.map_eq_some_iff.mp (hj m)
  rw [Machine.run_encode, hm', ← hlater]
  exact hrun m'

/-- A real instruction without a label is encoded to the word of the operands it is read with. -/
theorem Pseudo.encodesTo_real {op : Operation} {args : List Bytes} {operands : Operands op.family}
    (hargs : ∀ t ∈ args, IsToken t) (hjump : op.family ≠ .jump)
    (h : ∀ site : Site, site.operands op.name op.family args = .ok operands) :
    EncodesTo (real op args).render (Instruction.encode ⟨op, operands⟩) := by
  refine encodesTo_of_operands ?_ hjump h
  rw [(wellFormed_real hargs).tokens_render]
  rfl

/-! ## What pseudo-instructions mean -/

namespace Pseudo

/-- What a pseudo-instruction with operands is to do, and in how many instructions. -/
inductive Means : Pseudo → List Bytes → Nat → (Machine → Machine) → Prop where
  /-- A constant is loaded, in one instruction if it is a signed 16-bit number. -/
  | li {rd imm : Bytes} {d : Register} {v : Int} (hrd : rd ∈ d.spellings)
      (himm : Literal.Denotes imm v) :
      Means .li [rd, imm] (if -32768 ≤ v ∧ v ≤ 32767 then 1 else 2)
        fun m => m.write d (.ofInt 32 v)
  /-- A register is negated. -/
  | neg {rd rs : Bytes} {d s : Register} (hrd : rd ∈ d.spellings) (hrs : rs ∈ s.spellings) :
      Means .neg [rd, rs] 1 fun m => m.write d (-m.registers s)
  /-- Both halves of a product are fetched, the upper one first. -/
  | mfhilo {rhi rlo : Bytes} {h l : Register} (hrhi : rhi ∈ h.spellings)
      (hrlo : rlo ∈ l.spellings) :
      Means .mfhilo [rhi, rlo] 2 fun m => (m.write h m.hi).write l m.lo

/-- The operands of a pseudo-instruction that are to be registers. -/
def registerOperands : Pseudo → List Bytes → List Bytes
  | .li, args => args.take 1
  | .neg, args | .mfhilo, args => args

/-- Both halves of a word, the lower one written over zeros. -/
theorem upper_or_lower (w : Word) :
    (w.extractLsb' 16 16 ++ 0#16) ||| (w.extractLsb' 0 16).setWidth 32 = w := by
  have hhalves : w.extractLsb' 16 16 ++ w.extractLsb' 0 16 = w := by
    rw [BitVec.extractLsb'_append_extractLsb'_eq_extractLsb' (by rfl)]
    exact BitVec.extractLsb'_eq_self
  refine Eq.trans ?_ hhalves
  ext i hi
  simp only [BitVec.getElem_or, BitVec.getElem_append, BitVec.getElem_setWidth]
  by_cases hlow : i < 16
  · simp [hlow]
  · simp [hlow]

/-- A small constant is extended with its sign. -/
theorem signExtend_ofInt {v : Int} (hlow : -0x8000 ≤ v) (hhigh : v ≤ 0x7fff) :
    (BitVec.ofInt 16 v).signExtend 32 = BitVec.ofInt 32 v := by
  show BitVec.ofInt 32 (BitVec.ofInt 16 v).toInt = _
  rw [BitVec.toInt_ofInt_eq_self (by omega) (by omega) (by omega)]

/-- A signed 16-bit constant is added to zero. -/
theorem computes_small {rd : Bytes} {d : Register} (hrd : rd ∈ d.spellings) {v : Int}
    (hlow : -0x8000 ≤ v) (hhigh : v ≤ 0x7fff) :
    Computes [real .addiu [rd, Register.zero.name, decimalInt v]]
      fun m => m.write d (.ofInt 32 v) := by
  have hv : Family.signedImmediate.immediateOperand (decimalInt v) = .ok v :=
    Family.immediateOperand_of_denotes (Literal.denotes_decimalInt v) hlow hhigh
  refine Computes.cons (j := ⟨.addiu, .signedImmediate d Register.zero (.ofInt 16 v)⟩)
    (encodesTo_real ?_ (by decide) fun site => ?_) Computes.nil fun m => ?_
  · simp [isToken_of_mem_spellings hrd, isToken_zeroName, isToken_decimalInt]
  · show site.operands _ .signedImmediate _ = _
    simp only [Site.operands, registerOperand_of_mem_spellings hrd, registerOperand_name, hv]
    rfl
  · show some (m.write d (m.registers Register.zero + _)) = _
    rw [m.registers_zero, signExtend_ofInt hlow hhigh, BitVec.zero_add]

/-- A constant is put together from its halves. -/
theorem computes_halves {rd : Bytes} {d : Register} (hrd : rd ∈ d.spellings) (w : Word) :
    Computes [real .lui [rd, decimal (w.extractLsb' 16 16).toNat],
        real .ori [rd, rd, decimal (w.extractLsb' 0 16).toNat]]
      fun m => m.write d w := by
  have hd := registerOperand_of_mem_spellings hrd
  have htoken := isToken_of_mem_spellings hrd
  have hupper :=
    Family.immediateOperand_toNat (f := .loadUpper) rfl (w.extractLsb' 16 16) (by omega)
  have hlower :=
    Family.immediateOperand_toNat (f := .unsignedImmediate) rfl (w.extractLsb' 0 16) (by omega)
  refine Computes.cons (j := ⟨.lui, .loadUpper d (w.extractLsb' 16 16)⟩)
    (encodesTo_real ?_ (by decide) fun site => ?_)
    (Computes.cons (j := ⟨.ori, .unsignedImmediate d d (w.extractLsb' 0 16)⟩)
      (encodesTo_real ?_ (by decide) fun site => ?_) Computes.nil fun m => rfl) fun m => ?_
  · simp [htoken, isToken_decimal]
  · show site.operands _ .loadUpper _ = _
    simp only [Site.operands, hd, hupper]
    show Except.ok (Operands.loadUpper d (.ofInt 16 _)) = .ok (Operands.loadUpper d _)
    rw [ofInt_toNat]
  · simp [htoken, isToken_decimal]
  · show site.operands _ .unsignedImmediate _ = _
    simp only [Site.operands, hd, hlower]
    show Except.ok (Operands.unsignedImmediate d d (.ofInt 16 _)) =
      .ok (Operands.unsignedImmediate d d _)
    rw [ofInt_toNat]
  · show some ((m.write d (w.extractLsb' 16 16 ++ 0#16)).write d
      ((m.write d (w.extractLsb' 16 16 ++ 0#16)).registers d ||| _)) = some (m.write d w)
    rw [Machine.write_write]
    by_cases hzero : d = Register.zero
    · subst hzero
      rw [Machine.write_zero, Machine.write_zero]
    · rw [Machine.registers_write hzero, upper_or_lower]

/-- A constant is loaded by one instruction or by two. -/
theorem computes_loadConstant {rd : Bytes} {d : Register} (hrd : rd ∈ d.spellings) (v : Int) :
    (loadConstant rd v).length = (if -32768 ≤ v ∧ v ≤ 32767 then 1 else 2) ∧
      Computes (loadConstant rd v) fun m => m.write d (.ofInt 32 v) := by
  rw [loadConstant]
  by_cases hsmall : -0x8000 ≤ v ∧ v ≤ 0x7fff
  · rw [if_pos hsmall, if_pos hsmall]
    exact ⟨rfl, computes_small hrd hsmall.1 hsmall.2⟩
  · rw [if_neg hsmall, if_neg hsmall]
    exact ⟨rfl, computes_halves hrd _⟩

/-- A register is negated by taking it from zero. -/
theorem computes_neg {rd rs : Bytes} {d s : Register} (hrd : rd ∈ d.spellings)
    (hrs : rs ∈ s.spellings) :
    Computes [real .subu [rd, Register.zero.name, rs]] fun m => m.write d (-m.registers s) := by
  refine Computes.cons (j := ⟨.subu, .threeRegister d Register.zero s⟩)
    (encodesTo_real ?_ (by decide) fun site => ?_) Computes.nil fun m => ?_
  · simp [isToken_of_mem_spellings hrd, isToken_of_mem_spellings hrs, isToken_zeroName]
  · show site.operands _ .threeRegister _ = _
    simp only [Site.operands, registerOperand_of_mem_spellings hrd,
      registerOperand_of_mem_spellings hrs, registerOperand_name]
    rfl
  · show some (m.write d (m.registers Register.zero - m.registers s)) = _
    rw [m.registers_zero, BitVec.zero_sub]

/-- Both halves of a product are fetched; the first one fetched leaves the other alone. -/
theorem computes_mfhilo {rhi rlo : Bytes} {h l : Register} (hrhi : rhi ∈ h.spellings)
    (hrlo : rlo ∈ l.spellings) :
    Computes [real .mfhi [rhi], real .mflo [rlo]] fun m => (m.write h m.hi).write l m.lo := by
  refine Computes.cons (j := ⟨.mfhi, .moveFrom h⟩)
    (encodesTo_real ?_ (by decide) fun site => ?_)
    (Computes.cons (j := ⟨.mflo, .moveFrom l⟩)
      (encodesTo_real ?_ (by decide) fun site => ?_) Computes.nil fun m => rfl) fun m => ?_
  · simp [isToken_of_mem_spellings hrhi]
  · show site.operands _ .moveFrom _ = _
    simp only [Site.operands, registerOperand_of_mem_spellings hrhi]
    rfl
  · simp [isToken_of_mem_spellings hrlo]
  · show site.operands _ .moveFrom _ = _
    simp only [Site.operands, registerOperand_of_mem_spellings hrlo]
    rfl
  · show some ((m.write h m.hi).write l (m.write h m.hi).lo) = _
    rw [Machine.lo_write]

/-- Operands that are expanded mean something, if those that are to be registers are. -/
theorem exists_means {pseudo : Pseudo} {a b : Bytes} {instructions : List RawInstruction}
    (hregisters : ∀ token ∈ pseudo.registerOperands [a, b], IsRegister token)
    (h : pseudo.expansion a b = .ok instructions) :
    ∃ count effect, pseudo.Means [a, b] count effect := by
  cases pseudo with
  | li =>
    obtain ⟨v, hv, -⟩ := expansion_li_eq_ok_iff.mp h
    obtain ⟨d, hd⟩ := hregisters a (by simp [registerOperands])
    exact ⟨_, _, .li hd ((Literal.parse_eq_ok_iff (by decide) (by decide)).mp hv).1⟩
  | neg =>
    obtain ⟨d, hd⟩ := hregisters a (by simp [registerOperands])
    obtain ⟨s, hs⟩ := hregisters b (by simp [registerOperands])
    exact ⟨_, _, .neg hd hs⟩
  | mfhilo =>
    obtain ⟨hi, hhi⟩ := hregisters a (by simp [registerOperands])
    obtain ⟨lo, hlo⟩ := hregisters b (by simp [registerOperands])
    exact ⟨_, _, .mfhilo hhi hlo⟩

/-- An expansion does what the pseudo-instruction means. -/
theorem Means.computes {pseudo : Pseudo} {a b : Bytes} {instructions : List RawInstruction}
    {count : Nat} {effect : Machine → Machine} (hmeans : pseudo.Means [a, b] count effect)
    (h : pseudo.expansion a b = .ok instructions) :
    instructions.length = count ∧ Computes instructions effect := by
  cases hmeans with
  | li hrd himm =>
    obtain ⟨v, hv, rfl⟩ := expansion_li_eq_ok_iff.mp h
    obtain ⟨hdenotes, -⟩ := (Literal.parse_eq_ok_iff (by decide) (by decide)).mp hv
    rw [himm.unique hdenotes]
    exact computes_loadConstant hrd v
  | neg hrd hrs =>
    obtain rfl := Except.ok.inj h
    exact ⟨rfl, computes_neg hrd hrs⟩
  | mfhilo hrhi hrlo =>
    obtain rfl := Except.ok.inj h
    exact ⟨rfl, computes_mfhilo hrhi hrlo⟩

end Pseudo

/-- A pseudo-instruction that is expanded means something, if its operands that are to be registers
are, and its expansion does that, whatever it means: in as many instructions, each of which is
encoded wherever it stands and touches no table. -/
theorem expansion_computes_meaning {i : RawInstruction} {pseudo : Pseudo}
    {instructions : List RawInstruction} (hname : i.name = pseudo.name)
    (hregisters : ∀ token ∈ pseudo.registerOperands i.args, IsRegister token)
    (h : i.expand = .ok instructions) :
    (∃ count effect, pseudo.Means i.args count effect) ∧
      ∀ count effect, pseudo.Means i.args count effect →
        instructions.length = count ∧ Computes instructions effect := by
  rcases RawInstruction.expand_eq_ok_iff.mp h with ⟨hnone, -⟩ | ⟨other, a, b, rfl, hexpansion⟩
  · rw [Pseudo.ofName?_eq_some_iff.mpr hname] at hnone
    cases hnone
  · have hsame := Pseudo.ofName?_eq_some_iff.mpr hname
    rw [Pseudo.ofName?_eq_some_iff.mpr rfl] at hsame
    obtain rfl := Option.some.inj hsame
    exact ⟨Pseudo.exists_means hregisters hexpansion,
      fun count effect hmeans => hmeans.computes hexpansion⟩

/-- The greatest negative constant that takes two instructions, in hexadecimal. -/
theorem expansion_computes_meaning_li :
    ∃ instructions, RawInstruction.expand ⟨ascii "li", [ascii "$8", ascii "-0x8001"]⟩ =
        .ok instructions ∧
      instructions.length = 2 ∧ Computes instructions fun m => m.write 8 0xffff7fff := by
  have hli : RawInstruction.expand ⟨ascii "li", [ascii "$8", ascii "-0x8001"]⟩ =
      .ok (Pseudo.loadConstant (ascii "$8") (-32769)) :=
    rfl
  have hrd : ascii "$8" ∈ Register.spellings 8 := by decide
  have hparse : Literal.parse (ascii "-0x8001") (-32769) 0 = .ok (-32769) := rfl
  have himm : Literal.Denotes (ascii "-0x8001") (-32769) :=
    ((Literal.parse_eq_ok_iff (by decide) (by decide)).mp hparse).1
  have hregisters : ∀ token ∈ Pseudo.registerOperands .li [ascii "$8", ascii "-0x8001"],
      IsRegister token :=
    List.forall_mem_singleton.mpr ⟨8, hrd⟩
  have hcomputes := (expansion_computes_meaning rfl hregisters hli).2 _ _ (.li hrd himm)
  exact ⟨_, hli, hcomputes⟩

end MipsAssembler
