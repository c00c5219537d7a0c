import MipsAssembler.Proofs.Operands
import MipsAssembler.Pseudo

/-!
# What instructions stand for

An instruction is no pseudo-instruction and stands for itself, or it is one with two operands and
stands for its expansion (`RawInstruction.expand_eq_ok_iff`). Expansions consist of real
instructions that refer to no label (`Pseudo.exists_real_of_mem_expansion`).

`Pseudo.Takes` lists the operands of the pseudo-instructions. An instruction has the operands it
takes exactly if everything it stands for does (`RawInstruction.valid_iff`).
-/

namespace MipsAssembler

theorem Pseudo.ofName?_eq_some_iff {name : Bytes} {pseudo : Pseudo} :
    ofName? name = some pseudo ↔ name = pseudo.name := by
  constructor
  · intro h
    have hfound : (pseudo.name == name) = true :=
      List.find?_some (p := fun other : Pseudo => other.name == name) h
    exact (eq_of_beq hfound).symm
  · rintro rfl
    cases pseudo <;> decide

/-- The real instructions that an instruction stands for. -/
theorem RawInstruction.expand_eq_ok_iff {i : RawInstruction} {instructions : List RawInstruction} :
    i.expand = .ok instructions ↔
      Pseudo.ofName? i.name = none ∧ instructions = [i] ∨
        ∃ pseudo a b, i = ⟨Pseudo.name pseudo, [a, b]⟩ ∧
          pseudo.expansion a b = .ok instructions := by
  obtain ⟨name, args⟩ := i
  rw [expand]
  cases hname : Pseudo.ofName? name with
  | none =>
    constructor
    · intro h
      exact .inl ⟨rfl, (Except.ok.inj h).symm⟩
    · rintro (⟨-, rfl⟩ | ⟨pseudo, a, b, hi, -⟩)
      · rfl
      · -- the name of a pseudo-instruction would have been found
        obtain ⟨rfl, -⟩ := RawInstruction.mk.inj hi
        rw [Pseudo.ofName?_eq_some_iff.mpr rfl] at hname
        cases hname
  | some pseudo =>
    obtain rfl := Pseudo.ofName?_eq_some_iff.mp hname
    constructor
    · intro h
      dsimp only at h
      split at h
      · next a b => exact .inr ⟨pseudo, a, b, rfl, mapError_eq_ok_iff.mp h⟩
      · cases h
    · rintro (⟨hnone, -⟩ | ⟨other, a, b, hi, hexpansion⟩)
      · cases hnone
      · obtain ⟨hsame, rfl⟩ := RawInstruction.mk.inj hi
        rw [hsame, Pseudo.ofName?_eq_some_iff.mpr rfl] at hname
        obtain rfl := Option.some.inj hname
        exact mapError_eq_ok_iff.mpr hexpansion

theorem Pseudo.expansion_li_eq_ok_iff {a b : Bytes} {instructions : List RawInstruction} :
    li.expansion a b = .ok instructions ↔
      ∃ v, Literal.parse b (-0x80000000) 0x7fffffff = .ok v ∧ instructions = loadConstant a v := by
  rw [expansion]
  cases Literal.parse b (-0x80000000) 0x7fffffff with
  | error e => simp [Except.map]
  | ok v => simp [Except.map, eq_comm]

/-- No instruction of an expansion refers to a label. -/
theorem Pseudo.exists_real_of_mem_expansion {pseudo : Pseudo} {a b : Bytes}
    {instructions : List RawInstruction} (h : pseudo.expansion a b = .ok instructions)
    {i : RawInstruction} (hi : i ∈ instructions) :
    ∃ op args, i = real op args ∧ op.family ≠ .jump ∧ op.family ≠ .branch := by
  cases pseudo with
  | li =>
    obtain ⟨value, -, rfl⟩ := expansion_li_eq_ok_iff.mp h
    rw [loadConstant] at hi
    split at hi
    · obtain rfl := List.mem_singleton.mp hi
      exact ⟨_, _, rfl, by decide, by decide⟩
    · simp only [List.mem_cons, List.not_mem_nil, or_false] at hi
      rcases hi with rfl | rfl
      · exact ⟨_, _, rfl, by decide, by decide⟩
      · exact ⟨_, _, rfl, by decide, by decide⟩
  | neg =>
    obtain rfl := Except.ok.inj h
    obtain rfl := List.mem_singleton.mp hi
    exact ⟨_, _, rfl, by decide, by decide⟩
  | mfhilo =>
    obtain rfl := Except.ok.inj h
    simp only [List.mem_cons, List.not_mem_nil, or_false] at hi
    rcases hi with rfl | rfl
    · exact ⟨_, _, rfl, by decide, by decide⟩
    · exact ⟨_, _, rfl, by decide, by decide⟩

/-- An instruction that refers to a label stands for itself. -/
theorem RawInstruction.expand_eq_singleton {i j : RawInstruction} {op : Operation}
    {instructions : List RawInstruction} (h : i.expand = .ok instructions) (hj : j ∈ instructions)
    (hname : j.name = op.name) (hop : op.family = .jump ∨ op.family = .branch) :
    i = j ∧ instructions = [j] := by
  rcases expand_eq_ok_iff.mp h with ⟨-, rfl⟩ | ⟨pseudo, a, b, -, hexpansion⟩
  · obtain rfl := List.mem_singleton.mp hj
    exact ⟨rfl, rfl⟩
  · exfalso
    obtain ⟨other, args, rfl, hjump, hbranch⟩ := Pseudo.exists_real_of_mem_expansion hexpansion hj
    obtain rfl : other = op := Operation.eq_of_name_eq hname
    exact hop.elim hjump hbranch

/-! ## Valid pseudo-instructions -/

/-- The operands of a pseudo-instruction. -/
inductive Pseudo.Takes : Pseudo → List Bytes → Prop where
  | li {rd imm : Bytes} (hrd : IsRegister rd) (himm : IsImmediate (-2147483648) 2147483647 imm) :
      Takes .li [rd, imm]
  | neg {rd rs : Bytes} (hrd : IsRegister rd) (hrs : IsRegister rs) : Takes .neg [rd, rs]
  | mfhilo {rhi rlo : Bytes} (hrhi : IsRegister rhi) (hrlo : IsRegister rlo) :
      Takes .mfhilo [rhi, rlo]

/-- A real instruction or a pseudo-instruction, with operands that it takes. -/
def RawInstruction.Valid (i : RawInstruction) : Prop :=
  i.IsReal ∨ ∃ pseudo : Pseudo, i.name = pseudo.name ∧ pseudo.Takes i.args

theorem isRegister_zero : IsRegister Register.zero.name :=
  ⟨Register.zero, List.mem_cons_self⟩

theorem isImmediate_decimal {n : Nat} {greatest : Int} (h : (n : Int) ≤ greatest) :
    IsImmediate 0 greatest (decimal n) :=
  ⟨n, Literal.denotes_decimal n, by omega, h⟩

namespace Pseudo

theorem isReal_real_iff {op : Operation} {args : List Bytes} :
    (real op args).IsReal ↔ op.family.Takes args := by
  constructor
  · rintro ⟨other, hname, htakes⟩
    rwa [Operation.eq_of_name_eq hname]
  · intro htakes
    exact ⟨op, rfl, htakes⟩

/-- A constant is loaded by real instructions exactly if it is loaded into a register. -/
theorem isReal_loadConstant_iff {rd : Bytes} {value : Int} :
    (∀ i ∈ loadConstant rd value, i.IsReal) ↔ IsRegister rd := by
  rw [loadConstant]
  by_cases hsmall : -0x8000 ≤ value ∧ value ≤ 0x7fff
  · rw [if_pos hsmall, List.forall_mem_singleton, isReal_real_iff]
    constructor
    · intro h
      cases h with
      | signedImmediate hrd _ _ => exact hrd
    · intro hrd
      exact .signedImmediate hrd isRegister_zero ⟨value, Literal.denotes_decimalInt value, hsmall⟩
  · rw [if_neg hsmall, List.forall_mem_cons, List.forall_mem_singleton, isReal_real_iff,
      isReal_real_iff]
    constructor
    · rintro ⟨h, -⟩
      cases h with
      | loadUpper hrd _ => exact hrd
    · -- both halves of the constant have sixteen bits
      intro hrd
      have hhalf (half : BitVec 16) : IsImmediate 0 65535 (decimal half.toNat) :=
        isImmediate_decimal (by omega)
      exact ⟨.loadUpper hrd (hhalf _), .unsignedImmediate hrd hrd (hhalf _)⟩

/-- Two operands are those of a pseudo-instruction exactly if it expands to real instructions. -/
theorem takes_iff_expansion {pseudo : Pseudo} {a b : Bytes} :
    pseudo.Takes [a, b] ↔
      ∃ instructions, pseudo.expansion a b = .ok instructions ∧ ∀ i ∈ instructions, i.IsReal := by
  cases pseudo with
  | li =>
    have hparse : ∀ v, Literal.parse b (-0x80000000) 0x7fffffff = .ok v ↔ _ :=
      fun v => Literal.parse_eq_ok_iff (by decide) (by decide)
    constructor
    · intro h
      cases h with
      | li hrd himm =>
        obtain ⟨v, hv⟩ := himm
        exact ⟨_, expansion_li_eq_ok_iff.mpr ⟨v, (hparse v).mpr hv, rfl⟩,
          isReal_loadConstant_iff.mpr hrd⟩
    · rintro ⟨instructions, h, hreal⟩
      obtain ⟨v, hv, rfl⟩ := expansion_li_eq_ok_iff.mp h
      exact .li (isReal_loadConstant_iff.mp hreal) ⟨v, (hparse v).mp hv⟩
  | neg =>
    constructor
    · intro h
      cases h with
      | neg hrd hrs =>
        refine ⟨_, rfl, ?_⟩
        rw [List.forall_mem_singleton, isReal_real_iff]
        exact .threeRegister hrd isRegister_zero hrs
    · rintro ⟨instructions, h, hreal⟩
      obtain rfl := Except.ok.inj h
      rw [List.forall_mem_singleton, isReal_real_iff] at hreal
      cases hreal with
      | threeRegister hrd _ hrs => exact .neg hrd hrs
  | mfhilo =>
    constructor
    · intro h
      cases h with
      | mfhilo hrhi hrlo =>
        refine ⟨_, rfl, ?_⟩
        rw [List.forall_mem_cons, List.forall_mem_singleton, isReal_real_iff, isReal_real_iff]
        exact ⟨.moveFrom hrhi, .moveFrom hrlo⟩
    · rintro ⟨instructions, h, hreal⟩
      obtain rfl := Except.ok.inj h
      rw [List.forall_mem_cons, List.forall_mem_singleton, isReal_real_iff,
        isReal_real_iff] at hreal
      obtain ⟨hhi, hlo⟩ := hreal
      cases hhi with
      | moveFrom hrhi =>
        cases hlo with
        | moveFrom hrlo => exact .mfhilo hrhi hrlo

theorem ofName?_operation (op : Operation) : ofName? op.name = none := by
  cases op <;> decide

end Pseudo

/-- Expanding an instruction leaves no pseudo-instruction. -/
theorem RawInstruction.ofName?_of_mem_expand {i j : RawInstruction}
    {instructions : List RawInstruction} (h : i.expand = .ok instructions) (hj : j ∈ instructions) :
    Pseudo.ofName? j.name = none := by
  rcases expand_eq_ok_iff.mp h with ⟨hnone, rfl⟩ | ⟨pseudo, a, b, -, hexpansion⟩
  · obtain rfl := List.mem_singleton.mp hj
    exact hnone
  · obtain ⟨op, args, rfl, -⟩ := Pseudo.exists_real_of_mem_expansion hexpansion hj
    exact Pseudo.ofName?_operation op

/-- An instruction is valid exactly if it expands to real instructions. -/
theorem RawInstruction.valid_iff {i : RawInstruction} :
    i.Valid ↔ ∃ instructions, i.expand = .ok instructions ∧ ∀ j ∈ instructions, j.IsReal := by
  constructor
  · rintro (hreal | ⟨pseudo, hname, htakes⟩)
    · obtain ⟨op, hname, -⟩ := id hreal
      refine ⟨[i], expand_eq_ok_iff.mpr (.inl ⟨?_, rfl⟩), List.forall_mem_singleton.mpr hreal⟩
      rw [hname]
      exact Pseudo.ofName?_operation op
    · have hargs : ∃ a b, i.args = [a, b] := by
        generalize i.args = args at htakes
        cases htakes <;> exact ⟨_, _, rfl⟩
      obtain ⟨a, b, hargs⟩ := hargs
      rw [hargs, Pseudo.takes_iff_expansion] at htakes
      obtain ⟨instructions, hexpansion, hreal⟩ := htakes
      refine ⟨instructions, expand_eq_ok_iff.mpr (.inr ⟨pseudo, a, b, ?_, hexpansion⟩), hreal⟩
      rw [← hname, ← hargs]
  · rintro ⟨instructions, hexpand, hreal⟩
    rcases expand_eq_ok_iff.mp hexpand with ⟨-, rfl⟩ | ⟨pseudo, a, b, rfl, hexpansion⟩
    · exact .inl (hreal i List.mem_cons_self)
    · exact .inr ⟨pseudo, rfl, Pseudo.takes_iff_expansion.mpr ⟨instructions, hexpansion, hreal⟩⟩

end MipsAssembler
