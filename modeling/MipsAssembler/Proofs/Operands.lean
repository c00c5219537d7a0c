import Mathlib.Data.List.Basic
import MipsAssembler.Proofs.Literals
import MipsAssembler.Proofs.Resolution

/-!
# Which operands a family takes

`Family.Takes` lists the operands of each family: how many there are, which of them are registers,
in what range an immediate lies. It says nothing about what the label of a branch stands for; apart
from that, an instruction resolves exactly if its operands are those of its operation
(`RawInstruction.exists_resolve_iff`). Where the instruction stands matters to a branch only,
through the displacement to its label (`RawInstruction.resolve_cases`).
-/

namespace MipsAssembler

/-- A token is one of the spellings of a register. -/
def IsRegister (token : Bytes) : Prop :=
  ∃ r : Register, token ∈ r.spellings

/-- A token is a literal whose value lies in a range. -/
def IsImmediate (least greatest : Int) (token : Bytes) : Prop :=
  ∃ v, Literal.Denotes token v ∧ least ≤ v ∧ v ≤ greatest

/-- The operands of a family. -/
inductive Family.Takes : Family → List Bytes → Prop where
  | threeRegister {rd rs rt : Bytes} (hrd : IsRegister rd) (hrs : IsRegister rs)
      (hrt : IsRegister rt) : Takes .threeRegister [rd, rs, rt]
  | shift {rd rt amount : Bytes} (hrd : IsRegister rd) (hrt : IsRegister rt)
      (hamount : IsImmediate 0 31 amount) : Takes .shift [rd, rt, amount]
  | jumpRegister {rs : Bytes} (hrs : IsRegister rs) : Takes .jumpRegister [rs]
  | multiplyDivide {rs rt : Bytes} (hrs : IsRegister rs) (hrt : IsRegister rt) :
      Takes .multiplyDivide [rs, rt]
  | moveFrom {rd : Bytes} (hrd : IsRegister rd) : Takes .moveFrom [rd]
  | signedImmediate {rt rs imm : Bytes} (hrt : IsRegister rt) (hrs : IsRegister rs)
      (himm : IsImmediate (-32768) 32767 imm) : Takes .signedImmediate [rt, rs, imm]
  | unsignedImmediate {rt rs imm : Bytes} (hrt : IsRegister rt) (hrs : IsRegister rs)
      (himm : IsImmediate 0 65535 imm) : Takes .unsignedImmediate [rt, rs, imm]
  | loadUpper {rt imm : Bytes} (hrt : IsRegister rt) (himm : IsImmediate 0 65535 imm) :
      Takes .loadUpper [rt, imm]
  | memory {rt offset base : Bytes} (hrt : IsRegister rt) (hbase : IsRegister base)
      (hoffset : IsImmediate (-32768) 32767 offset) : Takes .memory [rt, offset, base]
  | branch {rs rt label : Bytes} (hrs : IsRegister rs) (hrt : IsRegister rt) :
      Takes .branch [rs, rt, label]
  | jump {label : Bytes} (hlabel : isLabel label) : Takes .jump [label]

namespace RawInstruction

/-- A real instruction, with operands that its operation takes. -/
def IsReal (i : RawInstruction) : Prop :=
  ∃ op : Operation, i.name = op.name ∧ op.family.Takes i.args

/-- An instruction is a branch to a label. -/
def BranchesTo (i : RawInstruction) (label : Bytes) : Prop :=
  ∃ op : Operation, (op = .beq ∨ op = .bne) ∧ i.name = op.name ∧ ∃ rs rt, i.args = [rs, rt, label]

end RawInstruction

theorem Operation.colon_notMem_name (op : Operation) : Ascii.colon ∉ op.name := by
  cases op <;> decide

theorem Family.Takes.length_eq {f : Family} {args : List Bytes} (h : f.Takes args) :
    args.length = f.arity := by
  cases h <;> rfl

theorem Family.arity_le (f : Family) : f.arity ≤ 3 := by
  cases f <;> decide

/-- The mnemonic of a real instruction is not taken for a label. -/
theorem RawInstruction.IsReal.colon_notMem {i : RawInstruction} (h : i.IsReal) :
    Ascii.colon ∉ i.name := by
  obtain ⟨op, hname, -⟩ := h
  rw [hname]
  exact op.colon_notMem_name

/-- A real instruction has at most three operands. -/
theorem RawInstruction.IsReal.length_args_le {i : RawInstruction} (h : i.IsReal) :
    i.args.length ≤ 3 := by
  obtain ⟨op, -, htakes⟩ := h
  rw [htakes.length_eq]
  exact op.family.arity_le

/-! ## Single operands -/

theorem Register.mem_all (r : Register) : r ∈ all :=
  List.mem_map.mpr ⟨r.toFin, List.mem_finRange _, rfl⟩

theorem Register.isSome_ofName?_iff {token : Bytes} :
    (ofName? token).isSome ↔ IsRegister token := by
  rw [ofName?, List.lookup_isSome_iff]
  constructor
  · rintro ⟨entry, hentry, hsame⟩
    obtain ⟨r, -, hr⟩ := List.mem_flatMap.mp hentry
    obtain ⟨spelling, hspelling, rfl⟩ := List.mem_map.mp hr
    rw [eq_of_beq hsame]
    exact ⟨r, hspelling⟩
  · rintro ⟨r, hr⟩
    have hentry : (token, r) ∈ spellingTable :=
      List.mem_flatMap.mpr ⟨r, mem_all r, List.mem_map.mpr ⟨token, hr, rfl⟩⟩
    exact ⟨(token, r), hentry, beq_self_eq_true token⟩

theorem exists_registerOperand_iff {token : Bytes} :
    (∃ r, registerOperand token = .ok r) ↔ IsRegister token := by
  rw [registerOperand, ← Register.isSome_ofName?_iff]
  cases Register.ofName? token with
  | none => simp
  | some r => simp

theorem isRegister_of_registerOperand {token : Bytes} {r : Register}
    (h : registerOperand token = .ok r) : IsRegister token :=
  exists_registerOperand_iff.mp ⟨r, h⟩

theorem Family.exists_immediateOperand_iff (f : Family) {token : Bytes} :
    (∃ v, f.immediateOperand token = .ok v) ↔
      IsImmediate f.immediateRange.1 f.immediateRange.2 token := by
  have hrange : -0x8000000000000000 ≤ f.immediateRange.1 ∧
      f.immediateRange.2 ≤ 0x7fffffffffffffff := by
    cases f <;> decide
  refine exists_congr fun v => ?_
  rw [immediateOperand, mapError_eq_ok_iff, Literal.parse_eq_ok_iff hrange.1 hrange.2]

theorem Family.isImmediate_of_immediateOperand {f : Family} {token : Bytes} {v : Int}
    (h : f.immediateOperand token = .ok v) :
    IsImmediate f.immediateRange.1 f.immediateRange.2 token :=
  f.exists_immediateOperand_iff.mp ⟨v, h⟩

/-! ## The operands of a family -/

section Operands

variable {site : Site} {f : Family} {args : List Bytes}

/-- Another number of operands than that of the family is an error. -/
theorem Site.operands_of_length_ne (h : args.length ≠ f.arity) (name : Bytes) :
    site.operands name f args = .error (.arity name f.arity args.length) := by
  unfold Site.operands
  split
  case h_12 => rfl
  all_goals exact absurd rfl h

/-- Operands that are read are those of the family. -/
theorem Site.takes_of_operands {name : Bytes} {operands : Operands f}
    (h : site.operands name f args = .ok operands) : f.Takes args := by
  have hlength : args.length = f.arity := by
    by_contra hne
    rw [operands_of_length_ne hne] at h
    cases h
  cases f with
  | threeRegister =>
    obtain ⟨rd, rs, rt, rfl⟩ := List.length_eq_three.mp hlength
    simp only [Site.operands, bind_eq_ok_iff] at h
    obtain ⟨_, hrd, _, hrs, _, hrt, -⟩ := h
    exact .threeRegister (isRegister_of_registerOperand hrd) (isRegister_of_registerOperand hrs)
      (isRegister_of_registerOperand hrt)
  | shift =>
    obtain ⟨rd, rt, amount, rfl⟩ := List.length_eq_three.mp hlength
    simp only [Site.operands, bind_eq_ok_iff] at h
    obtain ⟨_, hrd, _, hrt, _, hamount, -⟩ := h
    exact .shift (isRegister_of_registerOperand hrd) (isRegister_of_registerOperand hrt)
      (Family.isImmediate_of_immediateOperand hamount)
  | jumpRegister =>
    obtain ⟨rs, rfl⟩ := List.length_eq_one_iff.mp hlength
    simp only [Site.operands, bind_eq_ok_iff] at h
    obtain ⟨_, hrs, -⟩ := h
    exact .jumpRegister (isRegister_of_registerOperand hrs)
  | multiplyDivide =>
    obtain ⟨rs, rt, rfl⟩ := List.length_eq_two.mp hlength
    simp only [Site.operands, bind_eq_ok_iff] at h
    obtain ⟨_, hrs, _, hrt, -⟩ := h
    exact .multiplyDivide (isRegister_of_registerOperand hrs) (isRegister_of_registerOperand hrt)
  | moveFrom =>
    obtain ⟨rd, rfl⟩ := List.length_eq_one_iff.mp hlength
    simp only [Site.operands, bind_eq_ok_iff] at h
    obtain ⟨_, hrd, -⟩ := h
    exact .moveFrom (isRegister_of_registerOperand hrd)
  | signedImmediate =>
    obtain ⟨rt, rs, imm, rfl⟩ := List.length_eq_three.mp hlength
    simp only [Site.operands, bind_eq_ok_iff] at h
    obtain ⟨_, hrt, _, hrs, _, himm, -⟩ := h
    exact .signedImmediate (isRegister_of_registerOperand hrt)
      (isRegister_of_registerOperand hrs) (Family.isImmediate_of_immediateOperand himm)
  | unsignedImmediate =>
    obtain ⟨rt, rs, imm, rfl⟩ := List.length_eq_three.mp hlength
    simp only [Site.operands, bind_eq_ok_iff] at h
    obtain ⟨_, hrt, _, hrs, _, himm, -⟩ := h
    exact .unsignedImmediate (isRegister_of_registerOperand hrt)
      (isRegister_of_registerOperand hrs) (Family.isImmediate_of_immediateOperand himm)
  | loadUpper =>
    obtain ⟨rt, imm, rfl⟩ := List.length_eq_two.mp hlength
    simp only [Site.operands, bind_eq_ok_iff] at h
    obtain ⟨_, hrt, _, himm, -⟩ := h
    exact .loadUpper (isRegister_of_registerOperand hrt)
      (Family.isImmediate_of_immediateOperand himm)
  | memory =>
    obtain ⟨rt, offset, base, rfl⟩ := List.length_eq_three.mp hlength
    simp only [Site.operands, bind_eq_ok_iff] at h
    obtain ⟨_, hrt, _, hbase, _, hoffset, -⟩ := h
    exact .memory (isRegister_of_registerOperand hrt) (isRegister_of_registerOperand hbase)
      (Family.isImmediate_of_immediateOperand hoffset)
  | branch =>
    obtain ⟨rs, rt, label, _, _, _, rfl, hrs, hrt, -⟩ := Site.operands_branch_eq_ok_iff.mp h
    exact .branch (isRegister_of_registerOperand hrs) (isRegister_of_registerOperand hrt)
  | jump =>
    obtain ⟨label, rfl, hlabel, -⟩ := Site.operands_jump_eq_ok_iff.mp h
    exact .jump hlabel

/-- The operands of a family are read, if the label of a branch is in reach. -/
theorem Family.Takes.exists_operands (h : f.Takes args) (name : Bytes)
    (hbranch : ∀ rs rt label, f = .branch → args = [rs, rt, label] →
      ∃ words, site.branchOperand label = .ok words) :
    ∃ operands, site.operands name f args = .ok operands := by
  cases h with
  | threeRegister hrd hrs hrt =>
    obtain ⟨x, hx⟩ := exists_registerOperand_iff.mpr hrd
    obtain ⟨y, hy⟩ := exists_registerOperand_iff.mpr hrs
    obtain ⟨z, hz⟩ := exists_registerOperand_iff.mpr hrt
    exact ⟨_, by rw [Site.operands, hx, hy, hz]; rfl⟩
  | shift hrd hrt hamount =>
    obtain ⟨x, hx⟩ := exists_registerOperand_iff.mpr hrd
    obtain ⟨y, hy⟩ := exists_registerOperand_iff.mpr hrt
    obtain ⟨v, hv⟩ := Family.shift.exists_immediateOperand_iff.mpr hamount
    exact ⟨_, by rw [Site.operands, hx, hy, hv]; rfl⟩
  | jumpRegister hrs =>
    obtain ⟨x, hx⟩ := exists_registerOperand_iff.mpr hrs
    exact ⟨_, by rw [Site.operands, hx]; rfl⟩
  | multiplyDivide hrs hrt =>
    obtain ⟨x, hx⟩ := exists_registerOperand_iff.mpr hrs
    obtain ⟨y, hy⟩ := exists_registerOperand_iff.mpr hrt
    exact ⟨_, by rw [Site.operands, hx, hy]; rfl⟩
  | moveFrom hrd =>
    obtain ⟨x, hx⟩ := exists_registerOperand_iff.mpr hrd
    exact ⟨_, by rw [Site.operands, hx]; rfl⟩
  | signedImmediate hrt hrs himm =>
    obtain ⟨x, hx⟩ := exists_registerOperand_iff.mpr hrt
    obtain ⟨y, hy⟩ := exists_registerOperand_iff.mpr hrs
    obtain ⟨v, hv⟩ := Family.signedImmediate.exists_immediateOperand_iff.mpr himm
    exact ⟨_, by rw [Site.operands, hx, hy, hv]; rfl⟩
  | unsignedImmediate hrt hrs himm =>
    obtain ⟨x, hx⟩ := exists_registerOperand_iff.mpr hrt
    obtain ⟨y, hy⟩ := exists_registerOperand_iff.mpr hrs
    obtain ⟨v, hv⟩ := Family.unsignedImmediate.exists_immediateOperand_iff.mpr himm
    exact ⟨_, by rw [Site.operands, hx, hy, hv]; rfl⟩
  | loadUpper hrt himm =>
    obtain ⟨x, hx⟩ := exists_registerOperand_iff.mpr hrt
    obtain ⟨v, hv⟩ := Family.loadUpper.exists_immediateOperand_iff.mpr himm
    exact ⟨_, by rw [Site.operands, hx, hv]; rfl⟩
  | memory hrt hbase hoffset =>
    obtain ⟨x, hx⟩ := exists_registerOperand_iff.mpr hrt
    obtain ⟨y, hy⟩ := exists_registerOperand_iff.mpr hbase
    obtain ⟨v, hv⟩ := Family.memory.exists_immediateOperand_iff.mpr hoffset
    exact ⟨_, by rw [Site.operands, hx, hy, hv]; rfl⟩
  | branch hrs hrt =>
    obtain ⟨x, hx⟩ := exists_registerOperand_iff.mpr hrs
    obtain ⟨y, hy⟩ := exists_registerOperand_iff.mpr hrt
    obtain ⟨words, hwords⟩ := hbranch _ _ _ rfl rfl
    exact ⟨_, by rw [Site.operands, hx, hy, hwords]; rfl⟩
  | jump hlabel => exact ⟨_, if_pos hlabel⟩

end Operands

/-! ## Instructions -/

theorem Operation.family_eq_branch_iff {op : Operation} :
    op.family = .branch ↔ op = .beq ∨ op = .bne := by
  cases op <;> decide

/-- An instruction resolves exactly if it is a real one, and in reach of its label if it is a
branch. -/
theorem RawInstruction.exists_resolve_iff {i : RawInstruction} {site : Site} :
    (∃ resolved, i.resolve site = .ok resolved) ↔
      i.IsReal ∧ ∀ label, i.BranchesTo label → ∃ words, site.branchOperand label = .ok words := by
  constructor
  · rintro ⟨⟨op, operands⟩, h⟩
    obtain ⟨hfound, hoperands⟩ := resolve_eq_ok_iff.mp h
    have hname := Operation.ofName?_eq_some_iff.mp hfound
    refine ⟨⟨op, hname, Site.takes_of_operands hoperands⟩, ?_⟩
    rintro label ⟨branch, hbranch, hsame, rs, rt, hargs⟩
    obtain rfl : branch = op := Operation.eq_of_name_eq (hsame.symm.trans hname)
    -- the operation has to be known for the type of its operands to be
    rcases hbranch with rfl | rfl
    all_goals
      obtain ⟨_, _, other, _, _, words, hargs', -, -, hwords, -⟩ :=
        Site.operands_branch_eq_ok_iff.mp hoperands
      rw [hargs] at hargs'
      simp only [List.cons.injEq, and_true] at hargs'
      obtain ⟨-, -, rfl⟩ := hargs'
      exact ⟨words, hwords⟩
  · rintro ⟨⟨op, hname, htakes⟩, hbranch⟩
    have hreach : ∀ rs rt label, op.family = .branch → i.args = [rs, rt, label] →
        ∃ words, site.branchOperand label = .ok words := by
      intro rs rt label hfamily hargs
      exact hbranch label ⟨op, Operation.family_eq_branch_iff.mp hfamily, hname, rs, rt, hargs⟩
    obtain ⟨operands, hoperands⟩ := htakes.exists_operands op.name hreach
    exact ⟨⟨op, operands⟩,
      resolve_eq_ok_iff.mpr ⟨Operation.ofName?_eq_some_iff.mpr hname, hoperands⟩⟩

/-- Only a branch reads its site. -/
theorem Site.operands_of_ne_branch {f : Family} (hf : f ≠ .branch) (site other : Site)
    (name : Bytes) (args : List Bytes) :
    site.operands name f args = other.operands name f args := by
  unfold Site.operands
  split
  case h_10 => exact absurd rfl hf
  all_goals rfl

/-- Operands are the same at every site, unless they are those of a branch and its registers are
read: then all that matters about the site is the displacement to the label. -/
theorem Site.operands_cases (name : Bytes) (f : Family) (args : List Bytes) :
    (∃ result, ∀ site : Site, site.operands name f args = result) ∨
      f = .branch ∧ ∃ rs rt label, args = [rs, rt, label] ∧ ∃ build : Int → Operands f,
        ∀ site : Site, site.operands name f args = (site.branchOperand label).map build := by
  by_cases hf : f = .branch
  · subst hf
    by_cases hlength : args.length = 3
    · obtain ⟨rs, rt, label, rfl⟩ := List.length_eq_three.mp hlength
      cases hx : registerOperand rs with
      | error e => exact .inl ⟨.error e, fun site => by rw [Site.operands, hx]; rfl⟩
      | ok x =>
        cases hy : registerOperand rt with
        | error e => exact .inl ⟨.error e, fun site => by rw [Site.operands, hx, hy]; rfl⟩
        | ok y =>
          refine .inr ⟨rfl, rs, rt, label, rfl, fun words => .branch x y (.ofInt 16 words), ?_⟩
          intro site
          rw [Site.operands, hx, hy]
          cases site.branchOperand label <;> rfl
    · exact .inl ⟨_, fun site => operands_of_length_ne hlength name⟩
  · exact .inl ⟨_, fun site => operands_of_ne_branch hf site ⟨0, none⟩ name args⟩

/-- An instruction resolves to the same at every site, unless it is a branch whose registers are
read: then all that matters about the site is the displacement to the label. -/
theorem RawInstruction.resolve_cases (i : RawInstruction) :
    (∃ result, ∀ site : Site, i.resolve site = result) ∨
      ∃ label build, i.BranchesTo label ∧
        ∀ site : Site, i.resolve site = (site.branchOperand label).map build := by
  cases hfound : Operation.ofName? i.name with
  | none => exact .inl ⟨.error (.unknownMnemonic i.name), fun site => by rw [resolve, hfound]⟩
  | some op =>
    have hresolve : ∀ site : Site,
        i.resolve site = (site.operands op.name op.family i.args).map (Instruction.mk op) := by
      intro site
      rw [resolve, hfound]
    rcases Site.operands_cases op.name op.family i.args with
      ⟨result, hsame⟩ | ⟨hbranch, rs, rt, label, hargs, build, hbuild⟩
    · exact .inl ⟨result.map (Instruction.mk op), fun site => by rw [hresolve, hsame]⟩
    · refine .inr ⟨label, fun words => ⟨op, build words⟩, ?_, fun site => ?_⟩
      · exact ⟨op, Operation.family_eq_branch_iff.mp hbranch,
          Operation.ofName?_eq_some_iff.mp hfound, rs, rt, hargs⟩
      · rw [hresolve, hbuild]
        cases site.branchOperand label <;> rfl

end MipsAssembler
