import Mathlib.Data.List.Forall2
import MipsAssembler.Proofs.Operands

/-!
# Decoding undoes encoding

The word of an instruction shows what its operands stand for: every one of them can be read off its
field again, and what the family leaves unused is zero.

- `Operand`: what an operand stands for. `Site.Denotes` says it of a token without asking how tokens
  are resolved, and `Site.Reads` of all operands of a family; there is at most one reading
  (`Site.Reads.unique`).
- `Word.operands`: the operands that the fields of a word show, and `Word.unusedFields` the fields
  that show none.
- `encode_shows_operands`: a word decodes to the operation it was encoded from and shows the
  operands of the source. So two instructions with the same word say the same.
-/

namespace MipsAssembler

/-! ## What operands stand for -/

/-- What an operand stands for. -/
inductive Operand where
  /-- A register. -/
  | register (r : Register)
  /-- The exact value of a literal. -/
  | literal (value : Int)
  /-- The exact address of the label of a branch. -/
  | target (address : Int)
  /-- A label that is left to the linker. -/
  | reference
  deriving DecidableEq, Repr

/-- The kinds of operands. -/
inductive Operand.Kind where
  | register | literal | target | reference
  deriving DecidableEq, Repr

/-- The kind of an operand. -/
def Operand.kind : Operand → Operand.Kind
  | .register _ => .register
  | .literal _ => .literal
  | .target _ => .target
  | .reference => .reference

/-- The kinds of the operands of a family, in source order. -/
def Family.operandKinds : Family → List Operand.Kind
  | .threeRegister => [.register, .register, .register]
  | .shift | .signedImmediate | .unsignedImmediate => [.register, .register, .literal]
  | .jumpRegister | .moveFrom => [.register]
  | .multiplyDivide => [.register, .register]
  | .loadUpper => [.register, .literal]
  | .memory => [.register, .literal, .register]
  | .branch => [.register, .register, .target]
  | .jump => [.reference]

/-- A token stands for an operand. A token may stand for operands of several kinds. -/
inductive Site.Denotes (site : Site) : Bytes → Operand → Prop where
  | register {token : Bytes} {r : Register} (h : token ∈ r.spellings) :
      Denotes site token (.register r)
  | literal {token : Bytes} {v : Int} (h : Literal.Denotes token v) :
      Denotes site token (.literal v)
  | target {label : Bytes} {address : Address}
      (h : site.symbols.bind (·.lookup? label) = some address) :
      Denotes site label (.target address.toNat)
  | reference {label : Bytes} (h : isLabel label) : Denotes site label .reference

/-- Tokens stand for operands, which are of the kinds that a family takes. -/
structure Site.Reads (site : Site) (f : Family) (args : List Bytes) (operands : List Operand) :
    Prop where
  denotes : List.Forall₂ site.Denotes args operands
  kinds : operands.map Operand.kind = f.operandKinds

/-- No two registers share a spelling. -/
theorem Register.ofName?_of_mem_spellings {token : Bytes} {r : Register} (h : token ∈ r.spellings) :
    ofName? token = some r := by
  have hall : ∀ r ∈ all, ∀ token ∈ r.spellings, ofName? token = some r := by
    decide +kernel
  exact hall r (mem_all r) token h

theorem Register.mem_spellings_of_ofName? {token : Bytes} {r : Register}
    (h : ofName? token = some r) : token ∈ r.spellings := by
  obtain ⟨before, after, htable, -⟩ := List.lookup_eq_some_iff.mp h
  have hmem : (token, r) ∈ spellingTable := by
    rw [htable]
    exact List.mem_append_right _ List.mem_cons_self
  obtain ⟨other, -, hother⟩ := List.mem_flatMap.mp hmem
  obtain ⟨spelling, hspelling, hsame⟩ := List.mem_map.mp hother
  obtain ⟨rfl, rfl⟩ := Prod.mk.inj hsame
  exact hspelling

/-- A token stands for one operand of a kind only. -/
theorem Site.Denotes.unique {site : Site} {token : Bytes} {x y : Operand}
    (hx : site.Denotes token x) (hy : site.Denotes token y) (hkind : x.kind = y.kind) : x = y := by
  cases hx with
  | register h =>
    cases hy with
    | register h' =>
      have hsame := Register.ofName?_of_mem_spellings h
      rw [Register.ofName?_of_mem_spellings h'] at hsame
      rw [Option.some.inj hsame]
    | _ => cases hkind
  | literal h =>
    cases hy with
    | literal h' => rw [h.unique h']
    | _ => cases hkind
  | target h =>
    cases hy with
    | target h' => rw [Option.some.inj (h.symm.trans h')]
    | _ => cases hkind
  | reference h =>
    cases hy with
    | reference h' => rfl
    | _ => cases hkind

/-- The operands of a family can be read in one way only. -/
theorem Site.Reads.unique {site : Site} {f : Family} {args : List Bytes} {xs ys : List Operand}
    (hx : site.Reads f args xs) (hy : site.Reads f args ys) : xs = ys := by
  obtain ⟨hxs, hkx⟩ := hx
  obtain ⟨hys, hky⟩ := hy
  have hkinds : xs.map Operand.kind = ys.map Operand.kind := hkx.trans hky.symm
  clear hkx hky
  -- on the tokens, where both readings have the same kinds
  induction hxs generalizing ys with
  | nil =>
    cases hys
    rfl
  | cons h _ ih =>
    cases hys with
    | cons h' hrest =>
      rw [List.map_cons, List.map_cons, List.cons.injEq] at hkinds
      rw [h.unique h' hkinds.1, ih hrest hkinds.2]

/-! ## What a word shows -/

/-- The operands that the fields of a word show, in source order, if it is the word of a family and
stands at an address. -/
def Word.operands (w : Word) (address : Address) : Family → List Operand
  | .threeRegister => [.register w.rd, .register w.rs, .register w.rt]
  | .shift => [.register w.rd, .register w.rt, .literal w.shamt.toNat]
  | .jumpRegister => [.register w.rs]
  | .multiplyDivide => [.register w.rs, .register w.rt]
  | .moveFrom => [.register w.rd]
  | .signedImmediate => [.register w.rt, .register w.rs, .literal w.signedImm]
  | .unsignedImmediate => [.register w.rt, .register w.rs, .literal w.imm.toNat]
  | .loadUpper => [.register w.rt, .literal w.imm.toNat]
  | .memory => [.register w.rt, .literal w.signedImm, .register w.rs]
  | .branch => [.register w.rs, .register w.rt, .target (address.toNat + 4 + w.branchOffset)]
  | .jump => [.reference]

/-- The fields of a word that show no operand of the family. The target of a jump is one of them,
since the linker puts it in. -/
def Word.unusedFields (w : Word) : Family → List Nat
  | .threeRegister => [w.shamt.toNat]
  | .shift | .loadUpper => [w.rs.toNat]
  | .jumpRegister => [w.rt.toNat, w.rd.toNat, w.shamt.toNat]
  | .multiplyDivide => [w.rd.toNat, w.shamt.toNat]
  | .moveFrom => [w.rs.toNat, w.rt.toNat, w.shamt.toNat]
  | .jump => [w.target.toNat]
  | .signedImmediate | .unsignedImmediate | .memory | .branch => []

theorem Word.kinds_operands (w : Word) (address : Address) (f : Family) :
    (w.operands address f).map Operand.kind = f.operandKinds := by
  cases f <;> rfl

section Operands

variable {site : Site} {token label : Bytes}

theorem Site.denotes_of_registerOperand {r : Register} (h : registerOperand token = .ok r) :
    site.Denotes token (.register r) := by
  rw [registerOperand] at h
  split at h
  · next found hfound =>
    obtain rfl := Except.ok.inj h
    exact .register (Register.mem_spellings_of_ofName? hfound)
  · cases h

/-- An immediate that is taken is a literal in the range of the family. -/
theorem Family.denotes_of_immediateOperand {f : Family} {v : Int}
    (h : f.immediateOperand token = .ok v) :
    Literal.Denotes token v ∧ f.immediateRange.1 ≤ v ∧ v ≤ f.immediateRange.2 := by
  have hrange : -0x8000000000000000 ≤ f.immediateRange.1 ∧
      f.immediateRange.2 ≤ 0x7fffffffffffffff := by
    cases f <;> decide
  rw [immediateOperand, mapError_eq_ok_iff, Literal.parse_eq_ok_iff hrange.1 hrange.2] at h
  exact h

/-- A shift shows its amount in five bits. -/
theorem Site.denotes_shamt {v : Int} (h : Family.shift.immediateOperand token = .ok v) :
    site.Denotes token (.literal (BitVec.ofInt 5 v).toNat) := by
  obtain ⟨hliteral, hlow, hhigh⟩ := Family.denotes_of_immediateOperand h
  have hlow : 0 ≤ v := hlow
  have hhigh : v ≤ 31 := hhigh
  have hfield : ((BitVec.ofInt 5 v).toNat : Int) = v := by
    rw [BitVec.toNat_ofInt]
    omega
  rw [hfield]
  exact .literal hliteral

/-- A family with an unsigned immediate shows it in sixteen bits. -/
theorem Site.denotes_unsigned {f : Family} (hf : f.immediateRange = (0, 0xffff)) {v : Int}
    (h : f.immediateOperand token = .ok v) :
    site.Denotes token (.literal (BitVec.ofInt 16 v).toNat) := by
  obtain ⟨hliteral, hlow, hhigh⟩ := Family.denotes_of_immediateOperand h
  rw [hf] at hlow hhigh
  have hlow : 0 ≤ v := hlow
  have hhigh : v ≤ 0xffff := hhigh
  have hfield : ((BitVec.ofInt 16 v).toNat : Int) = v := by
    rw [BitVec.toNat_ofInt]
    omega
  rw [hfield]
  exact .literal hliteral

/-- A family with a signed immediate shows it in sixteen bits, the first of which is its sign. -/
theorem Site.denotes_signed {f : Family} (hf : f.immediateRange = (-0x8000, 0x7fff)) {v : Int}
    (h : f.immediateOperand token = .ok v) :
    site.Denotes token (.literal (BitVec.ofInt 16 v).toInt) := by
  obtain ⟨hliteral, hlow, hhigh⟩ := Family.denotes_of_immediateOperand h
  rw [hf] at hlow hhigh
  have hlow : -0x8000 ≤ v := hlow
  have hhigh : v ≤ 0x7fff := hhigh
  rw [BitVec.toInt_ofInt_eq_self (by omega) (by omega) (by omega)]
  exact .literal hliteral

/-- A branch shows the address of its label as a distance from the next instruction. -/
theorem Site.denotes_branch {words : Int} (h : site.branchOperand label = .ok words)
    (opcode : BitVec 6) (rs rt : Register) :
    site.Denotes label (.target (site.address.toNat + 4 +
      (Word.immediate opcode rs rt (.ofInt 16 words)).branchOffset)) := by
  rw [branchOperand] at h
  split at h
  · next target htarget =>
    rw [branchOffset_of_displacement h]
    exact .target htarget
  · cases h

end Operands

/-- The word of operands shows what the tokens stand for that they were read from, and nothing
else. -/
theorem Site.reads_of_operands {site : Site} {name : Bytes} {f : Family} {args : List Bytes}
    {operands : Operands f} (h : site.operands name f args = .ok operands)
    (opcode funct : BitVec 6) :
    site.Reads f args ((operands.word opcode funct).operands site.address f) ∧
      ∀ field ∈ (operands.word opcode funct).unusedFields f, field = 0 := by
  suffices hshown : List.Forall₂ site.Denotes args
      ((operands.word opcode funct).operands site.address f) ∧
      ∀ field ∈ (operands.word opcode funct).unusedFields f, field = 0 from
    ⟨⟨hshown.1, Word.kinds_operands ..⟩, hshown.2⟩
  have hlength : args.length = f.arity := by
    by_contra hne
    rw [operands_of_length_ne hne] at h
    cases h
  cases f with
  | threeRegister =>
    obtain ⟨rd, rs, rt, rfl⟩ := List.length_eq_three.mp hlength
    simp only [Site.operands, bind_eq_ok_iff] at h
    obtain ⟨x, hx, y, hy, z, hz, ho⟩ := h
    obtain rfl := Except.ok.inj ho
    simp [Operands.word, Word.operands, Word.unusedFields, denotes_of_registerOperand, hx, hy, hz]
  | shift =>
    obtain ⟨rd, rt, amount, rfl⟩ := List.length_eq_three.mp hlength
    simp only [Site.operands, bind_eq_ok_iff] at h
    obtain ⟨x, hx, y, hy, v, hv, ho⟩ := h
    obtain rfl := Except.ok.inj ho
    simp [Operands.word, Word.operands, Word.unusedFields, denotes_of_registerOperand, hx, hy,
      denotes_shamt hv, -BitVec.toNat_ofInt]
  | jumpRegister =>
    obtain ⟨rs, rfl⟩ := List.length_eq_one_iff.mp hlength
    simp only [Site.operands, bind_eq_ok_iff] at h
    obtain ⟨x, hx, ho⟩ := h
    obtain rfl := Except.ok.inj ho
    simp [Operands.word, Word.operands, Word.unusedFields, denotes_of_registerOperand, hx]
  | multiplyDivide =>
    obtain ⟨rs, rt, rfl⟩ := List.length_eq_two.mp hlength
    simp only [Site.operands, bind_eq_ok_iff] at h
    obtain ⟨x, hx, y, hy, ho⟩ := h
    obtain rfl := Except.ok.inj ho
    simp [Operands.word, Word.operands, Word.unusedFields, denotes_of_registerOperand, hx, hy]
  | moveFrom =>
    obtain ⟨rd, rfl⟩ := List.length_eq_one_iff.mp hlength
    simp only [Site.operands, bind_eq_ok_iff] at h
    obtain ⟨x, hx, ho⟩ := h
    obtain rfl := Except.ok.inj ho
    simp [Operands.word, Word.operands, Word.unusedFields, denotes_of_registerOperand, hx]
  | signedImmediate =>
    obtain ⟨rt, rs, imm, rfl⟩ := List.length_eq_three.mp hlength
    simp only [Site.operands, bind_eq_ok_iff] at h
    obtain ⟨x, hx, y, hy, v, hv, ho⟩ := h
    obtain rfl := Except.ok.inj ho
    simp [Operands.word, Word.operands, Word.unusedFields, Word.signedImm,
      denotes_of_registerOperand, hx, hy, denotes_signed rfl hv, -BitVec.toInt_ofInt]
  | unsignedImmediate =>
    obtain ⟨rt, rs, imm, rfl⟩ := List.length_eq_three.mp hlength
    simp only [Site.operands, bind_eq_ok_iff] at h
    obtain ⟨x, hx, y, hy, v, hv, ho⟩ := h
    obtain rfl := Except.ok.inj ho
    simp [Operands.word, Word.operands, Word.unusedFields, denotes_of_registerOperand, hx, hy,
      denotes_unsigned rfl hv, -BitVec.toNat_ofInt]
  | loadUpper =>
    obtain ⟨rt, imm, rfl⟩ := List.length_eq_two.mp hlength
    simp only [Site.operands, bind_eq_ok_iff] at h
    obtain ⟨x, hx, v, hv, ho⟩ := h
    obtain rfl := Except.ok.inj ho
    simp [Operands.word, Word.operands, Word.unusedFields, denotes_of_registerOperand, hx,
      denotes_unsigned rfl hv, -BitVec.toNat_ofInt]
  | memory =>
    obtain ⟨rt, offset, base, rfl⟩ := List.length_eq_three.mp hlength
    simp only [Site.operands, bind_eq_ok_iff] at h
    obtain ⟨x, hx, y, hy, v, hv, ho⟩ := h
    obtain rfl := Except.ok.inj ho
    simp [Operands.word, Word.operands, Word.unusedFields, Word.signedImm,
      denotes_of_registerOperand, hx, hy, denotes_signed rfl hv, -BitVec.toInt_ofInt]
  | branch =>
    obtain ⟨rs, rt, label, x, y, words, rfl, hx, hy, hwords, rfl⟩ :=
      operands_branch_eq_ok_iff.mp h
    simp [Operands.word, Word.operands, Word.unusedFields, denotes_of_registerOperand, hx, hy,
      denotes_branch hwords]
  | jump =>
    obtain ⟨label, rfl, hlabel, rfl⟩ := operands_jump_eq_ok_iff.mp h
    simp [Operands.word, Word.operands, Word.unusedFields, Denotes.reference hlabel]

/-! ## Instructions -/

namespace RawInstruction

variable {i : RawInstruction} {site : Site} {relocations recorded : Option SymbolTable} {w : Word}

/-- A word is that of what the instruction resolves to. -/
theorem exists_resolve_of_encode (h : i.encode site relocations = .ok (w, recorded)) :
    ∃ resolved, i.resolve site = .ok resolved ∧ w = resolved.encode := by
  rw [encode, bind_eq_ok_iff] at h
  obtain ⟨resolved, hresolve, h⟩ := h
  obtain ⟨table, -, hpair⟩ := bind_eq_ok_iff.mp h
  exact ⟨resolved, hresolve, (Prod.mk.inj (Except.ok.inj hpair)).1.symm⟩

/-- The word of an instruction decodes to the operation that the mnemonic names, and shows what the
operands stand for. -/
theorem shows_of_encode (h : i.encode site relocations = .ok (w, recorded)) :
    ∃ op operands, Operation.ofName? i.name = some op ∧
      Instruction.decode? w = some ⟨op, operands⟩ ∧
      site.Reads op.family i.args (w.operands site.address op.family) ∧
      ∀ field ∈ w.unusedFields op.family, field = 0 := by
  obtain ⟨⟨op, operands⟩, hresolve, rfl⟩ := exists_resolve_of_encode h
  obtain ⟨hname, hoperands⟩ := resolve_eq_ok_iff.mp hresolve
  exact ⟨op, operands, hname, Instruction.decode?_encode _, Site.reads_of_operands hoperands ..⟩

end RawInstruction

/-- **Decoding undoes encoding.** The word of an instruction decodes to the operation that the
mnemonic names. Its fields show what the operands stand for, each in the place that the family has
for it and exactly, and the fields that the family does not use are zero. So an instruction at the
same site that has the same word has the same mnemonic, and operands that stand for the same. -/
theorem encode_shows_operands {i : RawInstruction} {site : Site}
    {relocations recorded : Option SymbolTable} {w : Word}
    (h : i.encode site relocations = .ok (w, recorded)) :
    ∃ op operands, Operation.ofName? i.name = some op ∧
      Instruction.decode? w = some ⟨op, operands⟩ ∧
      site.Reads op.family i.args (w.operands site.address op.family) ∧
      (∀ field ∈ w.unusedFields op.family, field = 0) ∧
      ∀ (j : RawInstruction) (relocations' recorded' : Option SymbolTable),
        j.encode site relocations' = .ok (w, recorded') →
          j.name = i.name ∧ ∀ xs ys, site.Reads op.family i.args xs →
            site.Reads op.family j.args ys → xs = ys := by
  obtain ⟨op, operands, hname, hdecode, hreads, hzero⟩ := RawInstruction.shows_of_encode h
  refine ⟨op, operands, hname, hdecode, hreads, hzero, ?_⟩
  intro j relocations' recorded' hj
  -- the other instruction decodes from the same word, so it is of the same operation
  obtain ⟨op', operands', hname', hdecode', hreads', -⟩ := RawInstruction.shows_of_encode hj
  obtain rfl : op' = op :=
    congrArg Instruction.operation (Option.some.inj (hdecode'.symm.trans hdecode))
  refine ⟨?_, fun xs ys hxs hys => ?_⟩
  · rw [Operation.ofName?_eq_some_iff.mp hname, Operation.ofName?_eq_some_iff.mp hname']
  · rw [hxs.unique hreads, hys.unique hreads']

theorem encode_shows_operands_load :
    let site : Site := ⟨8, none⟩
    let i : RawInstruction := ⟨ascii "lw", [ascii "$t0", ascii "-32768", ascii "$sp"]⟩
    let j : RawInstruction := ⟨ascii "lw", [ascii "$8", ascii "-0x8000", ascii "$29"]⟩
    i.encode site none = .ok (0x8fa88000, none) ∧ j.encode site none = .ok (0x8fa88000, none) ∧
      site.Reads .memory i.args [.register 8, .literal (-32768), .register 29] ∧
      ∀ xs ys, site.Reads .memory i.args xs → site.Reads .memory j.args ys → xs = ys := by
  intro site i j
  have hi : i.encode site none = .ok (0x8fa88000, none) := rfl
  have hj : j.encode site none = .ok (0x8fa88000, none) := rfl
  obtain ⟨op, operands, hname, -, hreads, -, hsame⟩ := encode_shows_operands hi
  obtain rfl : Operation.lw = op := Option.some.inj hname
  exact ⟨hi, hj, hreads, (hsame j none none hj).2⟩

end MipsAssembler
