import MipsAssembler.Proofs.Decoding
import MipsAssembler.Proofs.Jumps

/-!
# Disassembly reads back

What a listing shows of a word is source text again, unless the word refers to a label.

- `Instruction.decode?_eq_some_iff`: a word decodes to an instruction exactly if it is the word of
  that instruction, so every instruction has one word and no other.
- `Instruction.tokens_render`: the text of an instruction is cut into its mnemonic and its operands,
  the offset and the base of a memory operand each by itself.
- `disassembly_reassembles`: the text of a word is encoded to the same word wherever it stands. The
  text of a word that is no instruction is refused, and a word is one exactly if some instruction is
  encoded to it, or the linker puts a target into a jump.
-/

namespace MipsAssembler

/-! ## Words and their fields -/

namespace Word

theorem jump_fields (w : Word) : jump w.opcode w.target = w := by
  rw [jump, opcode, target, BitVec.extractLsb'_append_extractLsb'_eq_extractLsb' (by rfl)]
  exact BitVec.extractLsb'_eq_self

theorem immediate_fields (w : Word) : immediate w.opcode w.rs w.rt w.imm = w := by
  rw [immediate, opcode, rs, rt, imm,
    BitVec.extractLsb'_append_extractLsb'_eq_extractLsb' (by rfl),
    BitVec.extractLsb'_append_extractLsb'_eq_extractLsb' (by rfl),
    BitVec.extractLsb'_append_extractLsb'_eq_extractLsb' (by rfl)]
  exact BitVec.extractLsb'_eq_self

theorem register_fields {w : Word} (h : w.opcode = 0) :
    register w.rs w.rt w.rd w.shamt w.funct = w := by
  rw [register, show 0#6 = w.opcode from h.symm, opcode, rs, rt, rd, shamt, funct,
    BitVec.extractLsb'_append_extractLsb'_eq_extractLsb' (by rfl),
    BitVec.extractLsb'_append_extractLsb'_eq_extractLsb' (by rfl),
    BitVec.extractLsb'_append_extractLsb'_eq_extractLsb' (by rfl),
    BitVec.extractLsb'_append_extractLsb'_eq_extractLsb' (by rfl),
    BitVec.extractLsb'_append_extractLsb'_eq_extractLsb' (by rfl)]
  exact BitVec.extractLsb'_eq_self

end Word

/-! ## Encoding undoes decoding -/

/-- A word is put together again from the operands read off it. -/
theorem Operands.word_of_ofWord? {w : Word} {f : Family} {o : Operands f} {opcode funct : BitVec 6}
    (h : ofWord? w f = some o) (hopcode : w.opcode = opcode)
    (hregister : f.format = .register → opcode = 0 ∧ w.funct = funct) :
    o.word opcode funct = w := by
  subst hopcode
  cases f with
  | threeRegister =>
    obtain ⟨hzero, rfl⟩ := hregister rfl
    obtain ⟨hunused, rfl⟩ : w.shamt = 0 ∧ _ = o := by simpa [ofWord?] using h
    simpa [word, hunused] using Word.register_fields hzero
  | shift =>
    obtain ⟨hzero, rfl⟩ := hregister rfl
    obtain ⟨hunused, rfl⟩ : w.rs = 0 ∧ _ = o := by simpa [ofWord?] using h
    simpa [word, hunused] using Word.register_fields hzero
  | jumpRegister =>
    obtain ⟨hzero, rfl⟩ := hregister rfl
    obtain ⟨hunused, rfl⟩ : (w.rt = 0 ∧ w.rd = 0 ∧ w.shamt = 0) ∧ _ = o := by
      simpa [ofWord?] using h
    simpa [word, hunused] using Word.register_fields hzero
  | multiplyDivide =>
    obtain ⟨hzero, rfl⟩ := hregister rfl
    obtain ⟨hunused, rfl⟩ : (w.rd = 0 ∧ w.shamt = 0) ∧ _ = o := by simpa [ofWord?] using h
    simpa [word, hunused] using Word.register_fields hzero
  | moveFrom =>
    obtain ⟨hzero, rfl⟩ := hregister rfl
    obtain ⟨hunused, rfl⟩ : (w.rs = 0 ∧ w.rt = 0 ∧ w.shamt = 0) ∧ _ = o := by
      simpa [ofWord?] using h
    simpa [word, hunused] using Word.register_fields hzero
  | loadUpper =>
    obtain ⟨hunused, rfl⟩ : w.rs = 0 ∧ _ = o := by simpa [ofWord?] using h
    simpa [word, hunused] using Word.immediate_fields w
  | signedImmediate | unsignedImmediate | memory | branch =>
    obtain rfl := Option.some.inj h
    exact Word.immediate_fields w
  | jump =>
    obtain rfl := Option.some.inj h
    exact Word.jump_fields w

theorem Operation.opcode_of_register {op : Operation} (h : op.format = .register) :
    op.spec.opcode = 0 := by
  cases op <;> first | rfl | cases h

/-- A word decodes to an instruction exactly if it is the word of that instruction. -/
theorem Instruction.decode?_eq_some_iff {w : Word} {i : Instruction} :
    decode? w = some i ↔ i.encode = w := by
  constructor
  · intro h
    obtain ⟨op, hop, operands, hoperands, hi⟩ :
        ∃ op, Operation.ofWord? w = some op ∧ ∃ operands, Operands.ofWord? w op.family =
          some operands ∧ Instruction.mk op operands = i := by
      simpa [decode?, Option.bind_eq_some_iff] using h
    subst hi
    have hselected : op.selectedBy w = true :=
      List.find?_some (p := fun other : Operation => other.selectedBy w) hop
    rw [Operation.selectedBy, Bool.and_eq_true, Bool.or_eq_true, beq_iff_eq, beq_iff_eq,
      bne_iff_ne] at hselected
    refine Operands.word_of_ofWord? hoperands hselected.1 fun hformat => ?_
    exact ⟨Operation.opcode_of_register hformat, hselected.2.resolve_left (not_not.mpr hformat)⟩
  · rintro rfl
    exact decode?_encode i

/-! ## The text of an instruction -/

/-- The operands as tokens, in source order. -/
def Operands.tokens : {f : Family} → Operands f → List Bytes
  | _, .threeRegister rd rs rt => [rd.name, rs.name, rt.name]
  | _, .shift rd rt amount => [rd.name, rt.name, decimal amount.toNat]
  | _, .jumpRegister rs => [rs.name]
  | _, .multiplyDivide rs rt => [rs.name, rt.name]
  | _, .moveFrom rd => [rd.name]
  | _, .signedImmediate rt rs imm => [rt.name, rs.name, decimalInt imm.toInt]
  | _, .unsignedImmediate rt rs imm => [rt.name, rs.name, decimal imm.toNat]
  | _, .loadUpper rt imm => [rt.name, decimal imm.toNat]
  | _, .memory rt offset base => [rt.name, decimalInt offset.toInt, base.name]
  | _, .branch rs rt displacement => [rs.name, rt.name, decimalInt displacement.toInt]
  | _, .jump target => [ascii "0x" ++ hex 7 (target.toNat * 4)]

/-- Every spelling of a register is a token. -/
theorem isToken_of_mem_spellings {token : Bytes} {r : Register} (h : token ∈ r.spellings) :
    IsToken token := by
  have hall : ∀ r ∈ Register.all, ∀ token ∈ r.spellings,
      token ≠ [] ∧ token.all isTokenByte = true := by
    decide +kernel
  obtain ⟨hne, hbytes⟩ := hall r (Register.mem_all r) token h
  exact ⟨hne, List.all_eq_true.mp hbytes⟩

theorem Register.name_mem_spellings (r : Register) : r.name ∈ r.spellings :=
  List.mem_cons_self

theorem isToken_registerName (r : Register) : IsToken r.name :=
  isToken_of_mem_spellings r.name_mem_spellings

/-- Hexadecimal digits behind their mark are a token. -/
theorem isToken_hex (width n : Nat) : IsToken (ascii "0x" ++ hex width n) := by
  have hdigit : ∀ d < 16, isTokenByte (hexDigit d) := by decide
  have hmark : ∀ b ∈ ascii "0x", isTokenByte b := List.all_eq_true.mp (by decide)
  refine ⟨by simp [ascii], fun b hb => ?_⟩
  rcases List.mem_append.mp hb with hb | hb
  · exact hmark b hb
  · induction width generalizing n with
    | zero => cases hb
    | succ width ih =>
      rcases List.mem_append.mp hb with hb | hb
      · exact ih (n / 16) (List.mem_append_right _ hb) hb
      · obtain rfl := List.mem_singleton.mp hb
        exact hdigit _ (Nat.mod_lt _ (by omega))

theorem Operands.isToken_of_mem_tokens {f : Family} (o : Operands f) :
    ∀ token ∈ o.tokens, IsToken token := by
  cases o <;> simp [tokens, isToken_registerName, isToken_decimal, isToken_decimalInt, isToken_hex]

theorem Instruction.render_eq (i : Instruction) :
    i.render = i.operation.name ++ Ascii.space :: i.operands.render := by
  rw [render, spaced_cons (List.cons_ne_nil _ _), spaced_singleton]

/-- Operands are written with single spaces between them, except for those of a memory access. -/
theorem Operands.render_eq_spaced {f : Family} (hf : f ≠ .memory) (o : Operands f) :
    o.render = spaced o.tokens := by
  cases o with
  | memory => exact absurd rfl hf
  | jumpRegister | moveFrom | jump => exact (spaced_singleton _).symm
  | _ => rfl

/-- The operands of a memory access show the base in parentheses, which end a token each. -/
theorem Operands.tokens_render_memory (rt : Register) (offset : BitVec 16) (base : Register) :
    MipsAssembler.tokens (Operands.memory rt offset base).render =
      [rt.name, decimalInt offset.toInt, base.name] := by
  have htext : (Operands.memory rt offset base).render =
      rt.name ++ Ascii.space :: (decimalInt offset.toInt ++ 0x28 :: (base.name ++ [0x29])) := by
    have hopening : ascii "(" = [0x28] := rfl
    have hclosing : ascii ")" = [0x29] := rfl
    simp [render, spaced_cons, hopening, hclosing]
  rw [htext, tokens_append_delimiter (isToken_registerName rt) (by decide),
    tokens_append_delimiter (isToken_decimalInt _) (by decide),
    tokens_append_delimiter (isToken_registerName base) (by decide)]
  rfl

/-- The text of operands is cut into their tokens. -/
theorem Operands.tokens_render {f : Family} (o : Operands f) :
    MipsAssembler.tokens o.render = o.tokens := by
  by_cases hf : f = .memory
  · subst hf
    cases o with
    | memory rt offset base => exact tokens_render_memory rt offset base
  · rw [o.render_eq_spaced hf]
    exact tokens_spaced o.isToken_of_mem_tokens

/-- The text of an instruction is cut into its mnemonic and its operands. -/
theorem Instruction.tokens_render (i : Instruction) :
    tokens i.render = i.operation.name :: i.operands.tokens := by
  rw [i.render_eq, tokens_append_delimiter (isToken_operationName _) (by decide),
    i.operands.tokens_render]

/-! ## Reading operands back -/

theorem registerOperand_of_mem_spellings {token : Bytes} {r : Register} (h : token ∈ r.spellings) :
    registerOperand token = .ok r := by
  rw [registerOperand, Register.ofName?_of_mem_spellings h]

theorem registerOperand_name (r : Register) : registerOperand r.name = .ok r :=
  registerOperand_of_mem_spellings r.name_mem_spellings

/-- A literal in the range of a family is its immediate. -/
theorem Family.immediateOperand_of_denotes {f : Family} {token : Bytes} {v : Int}
    (h : Literal.Denotes token v) (hlow : f.immediateRange.1 ≤ v)
    (hhigh : v ≤ f.immediateRange.2) : f.immediateOperand token = .ok v := by
  have hrange : -0x8000000000000000 ≤ f.immediateRange.1 ∧
      f.immediateRange.2 ≤ 0x7fffffffffffffff := by
    cases f <;> decide
  rw [immediateOperand, mapError_eq_ok_iff, Literal.parse_eq_ok_iff hrange.1 hrange.2]
  exact ⟨h, hlow, hhigh⟩

/-- An unsigned field is read back by a family whose immediates reach that far. -/
theorem Family.immediateOperand_toNat {f : Family} {width : Nat} {greatest : Int}
    (hf : f.immediateRange = (0, greatest)) (field : BitVec width)
    (hle : (field.toNat : Int) ≤ greatest) :
    f.immediateOperand (decimal field.toNat) = .ok field.toNat := by
  refine immediateOperand_of_denotes (Literal.denotes_decimal _) ?_ ?_
  · rw [hf]
    exact Int.natCast_nonneg _
  · rw [hf]
    exact hle

/-- A signed field is read back by a family with a signed immediate. -/
theorem Family.immediateOperand_toInt {f : Family} (hf : f.immediateRange = (-0x8000, 0x7fff))
    (field : BitVec 16) : f.immediateOperand (decimalInt field.toInt) = .ok field.toInt := by
  have hlow := field.le_toInt
  have hhigh := field.toInt_lt
  refine immediateOperand_of_denotes (Literal.denotes_decimalInt _) ?_ ?_
  · rw [hf]
    omega
  · rw [hf]
    omega

theorem ofInt_toNat {width : Nat} (field : BitVec width) :
    BitVec.ofInt width field.toNat = field := by
  rw [BitVec.ofInt_natCast, BitVec.ofNat_toNat, BitVec.setWidth_eq]

/-- Operands that refer to no label are read back from their tokens, wherever they stand. -/
theorem Site.operands_tokens {f : Family} (hbranch : f ≠ .branch) (hjump : f ≠ .jump)
    (o : Operands f) (site : Site) (name : Bytes) : site.operands name f o.tokens = .ok o := by
  cases o with
  | threeRegister | jumpRegister | multiplyDivide | moveFrom =>
    simp only [Operands.tokens, Site.operands, registerOperand_name]
    rfl
  | shift rd rt amount =>
    simp only [Operands.tokens, Site.operands, registerOperand_name,
      Family.immediateOperand_toNat (f := .shift) rfl amount (by omega)]
    show Except.ok (Operands.shift rd rt (.ofInt 5 amount.toNat)) = _
    rw [ofInt_toNat]
  | signedImmediate rt rs imm =>
    simp only [Operands.tokens, Site.operands, registerOperand_name,
      Family.immediateOperand_toInt (f := .signedImmediate) rfl imm]
    show Except.ok (Operands.signedImmediate rt rs (.ofInt 16 imm.toInt)) = _
    rw [BitVec.ofInt_toInt]
  | unsignedImmediate rt rs imm =>
    simp only [Operands.tokens, Site.operands, registerOperand_name,
      Family.immediateOperand_toNat (f := .unsignedImmediate) rfl imm (by omega)]
    show Except.ok (Operands.unsignedImmediate rt rs (.ofInt 16 imm.toNat)) = _
    rw [ofInt_toNat]
  | loadUpper rt imm =>
    simp only [Operands.tokens, Site.operands, registerOperand_name,
      Family.immediateOperand_toNat (f := .loadUpper) rfl imm (by omega)]
    show Except.ok (Operands.loadUpper rt (.ofInt 16 imm.toNat)) = _
    rw [ofInt_toNat]
  | memory rt offset base =>
    simp only [Operands.tokens, Site.operands, registerOperand_name,
      Family.immediateOperand_toInt (f := .memory) rfl offset]
    show Except.ok (Operands.memory rt (.ofInt 16 offset.toInt) base) = _
    rw [BitVec.ofInt_toInt]
  | branch => exact absurd rfl hbranch
  | jump => exact absurd rfl hjump

/-! ## Encoding a text -/

/-- A text is an instruction with this word wherever it stands, and leaves the tables alone. -/
def EncodesTo (text : Bytes) (w : Word) : Prop :=
  ∃ i, RawInstruction.ofTokens? (tokens text) = some i ∧
    ∀ site relocations, i.encode site relocations = .ok (w, relocations)

/-- An instruction that is no jump is encoded to the word of its operands, and records nothing. -/
theorem RawInstruction.encode_of_operands {op : Operation} {args : List Bytes} {site : Site}
    {operands : Operands op.family} (hjump : op.family ≠ .jump)
    (h : site.operands op.name op.family args = .ok operands) (relocations : Option SymbolTable) :
    encode ⟨op.name, args⟩ site relocations =
      .ok (Instruction.encode ⟨op, operands⟩, relocations) := by
  have hresolve : resolve ⟨op.name, args⟩ site = .ok ⟨op, operands⟩ :=
    resolve_eq_ok_iff.mpr ⟨Operation.ofName?_name op, h⟩
  have hnone : reference? ⟨op.name, args⟩ ⟨op, operands⟩ = none := if_neg hjump
  have hrecord : record ⟨op.name, args⟩ ⟨op, operands⟩ site.address relocations =
      .ok relocations := by
    unfold record
    rw [hnone]
  rw [encode, hresolve]
  show (record _ _ _ _ >>= _) = _
  rw [hrecord]
  rfl

/-- A text is encoded to the word of the operands that its tokens are read as. -/
theorem encodesTo_of_operands {text : Bytes} {op : Operation} {args : List Bytes}
    {operands : Operands op.family} (htext : tokens text = op.name :: args)
    (hjump : op.family ≠ .jump)
    (h : ∀ site : Site, site.operands op.name op.family args = .ok operands) :
    EncodesTo text (Instruction.encode ⟨op, operands⟩) := by
  refine ⟨⟨op.name, args⟩, by rw [htext]; rfl, fun site relocations => ?_⟩
  exact RawInstruction.encode_of_operands hjump (h site) relocations

/-- The text of an instruction that refers to no label is encoded to its word. -/
theorem Instruction.encodesTo_render {i : Instruction} (hbranch : i.operation.family ≠ .branch)
    (hjump : i.operation.family ≠ .jump) : EncodesTo i.render i.encode :=
  encodesTo_of_operands i.tokens_render hjump fun site =>
    site.operands_tokens hbranch hjump i.operands i.operation.name

theorem disassemble_of_decode? {w : Word} {i : Instruction} (h : Instruction.decode? w = some i) :
    disassemble w = i.render := by
  rw [disassemble, h]

/-- The text of a word that is no instruction has a mnemonic that is none. -/
theorem tokens_disassemble_of_none {w : Word} (h : Instruction.decode? w = none) :
    tokens (disassemble w) = [ascii ".word", hexAddress w.toNat] := by
  have hname : IsToken (ascii ".word") := ⟨by decide, List.all_eq_true.mp (by decide)⟩
  have htext : disassemble w = ascii ".word" ++ Ascii.space :: hexAddress w.toNat := by
    rw [disassemble, h]
    rfl
  rw [htext, tokens_append_delimiter hname (by decide), hexAddress,
    tokens_of_isToken (isToken_hex 8 _)]

/-! ## Which words are instructions -/

/-- Some instruction is encoded to the word, somewhere. -/
def Word.Emitted (w : Word) : Prop :=
  ∃ (i : RawInstruction) (site : Site) (relocations recorded : Option SymbolTable),
    i.encode site relocations = .ok (w, recorded)

/-- The word is that of a `j` or `jal` in all but the 26 bits of its target. -/
def Word.Linked (w : Word) : Prop :=
  ∃ (i : RawInstruction) (site : Site) (relocations recorded : Option SymbolTable) (v : Word),
    i.isJump ∧ i.encode site relocations = .ok (v, recorded) ∧ w.opcode = v.opcode

theorem EncodesTo.emitted {text : Bytes} {w : Word} (h : EncodesTo text w) : w.Emitted := by
  obtain ⟨i, -, hencode⟩ := h
  exact ⟨i, ⟨0, none⟩, none, none, hencode _ _⟩

/-- A word that is emitted decodes. -/
theorem Word.Emitted.exists_decode? {w : Word} (h : w.Emitted) :
    ∃ i, Instruction.decode? w = some i := by
  obtain ⟨i, site, relocations, recorded, hencode⟩ := h
  obtain ⟨resolved, -, rfl⟩ := RawInstruction.exists_resolve_of_encode hencode
  exact ⟨resolved, Instruction.decode?_encode resolved⟩

/-- Some label is as far away as a displacement says. -/
theorem exists_displacement_eq (d : BitVec 16) :
    ∃ source target : Address, displacement source target = .ok d.toInt := by
  have hlow := d.le_toInt
  have hhigh := d.toInt_lt
  -- far enough from zero to branch back by the greatest displacement
  refine ⟨0x20000, .ofInt 32 (0x20004 + 4 * d.toInt), ?_⟩
  have htarget : ((BitVec.ofInt 32 (0x20004 + 4 * d.toInt)).toNat : Int) =
      0x20004 + 4 * d.toInt := by
    rw [BitVec.toNat_ofInt]
    omega
  have hdistance : ((BitVec.ofInt 32 (0x20004 + 4 * d.toInt)).toNat : Int) -
      ((0x20000 : Address).toNat + 4) = 4 * d.toInt := by
    rw [htarget]
    show 0x20004 + 4 * d.toInt - (0x20000 + 4) = 4 * d.toInt
    omega
  have hwords : 4 * d.toInt / 4 = d.toInt := by omega
  rw [displacement, hdistance, hwords, if_neg (by omega), if_neg (by omega)]

/-- Every displacement is that of some label. -/
theorem Site.exists_branchOperand_eq (d : BitVec 16) :
    ∃ (site : Site) (label : Bytes), site.branchOperand label = .ok d.toInt := by
  obtain ⟨source, target, hd⟩ := exists_displacement_eq d
  have hindexed := (SymbolTable.indexed_empty true).push (ascii "x") target
  have hlookup : (SymbolTable.symbols.push (ascii "x") target).lookup? (ascii "x") =
      some target := by
    rw [SymbolTable.symbols, hindexed.lookup?_eq]
    simp [SymbolTable.empty]
  refine ⟨⟨source, some (SymbolTable.symbols.push (ascii "x") target)⟩, ascii "x", ?_⟩
  rw [branchOperand, Option.bind_some, hlookup]
  exact hd

/-- The operands of a branch are read where its label is as far away as its displacement says. -/
theorem Site.exists_operands_of_branch {f : Family} (hf : f = .branch) (o : Operands f) :
    ∃ (site : Site) (args : List Bytes), ∀ name, site.operands name f args = .ok o := by
  subst hf
  cases o with
  | branch rs rt d =>
    obtain ⟨site, label, hlabel⟩ := exists_branchOperand_eq d
    refine ⟨site, [rs.name, rt.name, label], fun name => operands_branch_eq_ok_iff.mpr ?_⟩
    refine ⟨_, _, label, rs, rt, d.toInt, rfl, registerOperand_name rs, registerOperand_name rt,
      hlabel, ?_⟩
    rw [BitVec.ofInt_toInt]

theorem Operands.opcode_word_of_jump {f : Family} (hf : f = .jump) (o : Operands f)
    (opcode funct : BitVec 6) : (o.word opcode funct).opcode = opcode := by
  subst hf
  cases o with
  | jump target => exact Word.opcode_jump opcode target

/-- An instruction that is no jump is emitted, a branch where its label is in the right place. -/
theorem Instruction.emitted_of_ne_jump {i : Instruction} (hjump : i.operation.family ≠ .jump) :
    i.encode.Emitted := by
  by_cases hbranch : i.operation.family = .branch
  · obtain ⟨site, args, hoperands⟩ := Site.exists_operands_of_branch hbranch i.operands
    exact ⟨_, site, none, none, RawInstruction.encode_of_operands hjump (hoperands _) none⟩
  · exact (encodesTo_render hbranch hjump).emitted

/-- A jump differs only in its target from one that is emitted. -/
theorem Instruction.linked_of_jump {i : Instruction} (hjump : i.operation.family = .jump) :
    i.encode.Linked := by
  have hemitted : ∃ recorded, RawInstruction.encode ⟨i.operation.name, [ascii "x"]⟩ ⟨0, none⟩
      (some .relocations) = .ok (.jump i.operation.spec.opcode 0, recorded) := by
    rcases Operation.family_eq_jump_iff.mp hjump with hop | hop
    · exact ⟨_, by rw [hop]; rfl⟩
    · exact ⟨_, by rw [hop]; rfl⟩
  obtain ⟨recorded, hemitted⟩ := hemitted
  refine ⟨_, _, _, recorded, _, ?_, hemitted, ?_⟩
  · rcases Operation.family_eq_jump_iff.mp hjump with hop | hop
    · rw [hop]
      decide
    · rw [hop]
      decide
  · rw [Word.opcode_jump]
    exact Operands.opcode_word_of_jump hjump i.operands _ _

/-- A word that is a jump in all but its target decodes to that jump with another target. -/
theorem Word.Linked.exists_decode? {w : Word} (h : w.Linked) :
    ∃ i, Instruction.decode? w = some i := by
  obtain ⟨i, site, relocations, recorded, v, hjump, hencode, hopcode⟩ := h
  obtain ⟨resolved, hresolve, rfl⟩ := RawInstruction.exists_resolve_of_encode hencode
  have hfamily := (RawInstruction.isJump_iff_of_resolve hresolve).mp hjump
  have hword : jump resolved.operation.spec.opcode w.target = w := by
    have hsame : resolved.encode.opcode = resolved.operation.spec.opcode :=
      Operands.opcode_word_of_jump hfamily resolved.operands _ _
    rw [← hsame, ← hopcode, jump_fields]
  rcases Operation.family_eq_jump_iff.mp hfamily with hop | hop
  · rw [hop] at hword
    exact ⟨⟨.j, .jump w.target⟩, Instruction.decode?_eq_some_iff.mpr hword⟩
  · rw [hop] at hword
    exact ⟨⟨.jal, .jump w.target⟩, Instruction.decode?_eq_some_iff.mpr hword⟩

/-- A word is an instruction exactly if it is emitted, or is a jump with some target. -/
theorem Instruction.exists_decode?_iff {w : Word} :
    (∃ i, decode? w = some i) ↔ w.Emitted ∨ w.Linked := by
  constructor
  · rintro ⟨i, hi⟩
    obtain rfl := decode?_eq_some_iff.mp hi
    by_cases hjump : i.operation.family = .jump
    · exact .inr (linked_of_jump hjump)
    · exact .inl (emitted_of_ne_jump hjump)
  · rintro (hemitted | hlinked)
    · exact hemitted.exists_decode?
    · exact hlinked.exists_decode?

/-- **Disassembly reads back.** The text of a word that decodes to an instruction without a label is
encoded to the same word, at every site and with any tables, which it leaves alone. The text of a
word that does not decode is refused for its mnemonic. And a word decodes exactly if some
instruction is encoded to it, or it differs from an encoded jump only in the bits of the target. -/
theorem disassembly_reassembles (w : Word) :
    (∀ i, Instruction.decode? w = some i → i.operation.family ≠ .branch →
        i.operation.family ≠ .jump → EncodesTo (disassemble w) w) ∧
      (Instruction.decode? w = none →
        ∃ i, RawInstruction.ofTokens? (tokens (disassemble w)) = some i ∧
          ∀ site relocations, i.encode site relocations = .error (.unknownMnemonic i.name)) ∧
      ((∃ i, Instruction.decode? w = some i) ↔ w.Emitted ∨ w.Linked) := by
  refine ⟨fun i hi hbranch hjump => ?_, fun hnone => ?_, Instruction.exists_decode?_iff⟩
  · obtain rfl := Instruction.decode?_eq_some_iff.mp hi
    rw [disassemble_of_decode? hi]
    exact Instruction.encodesTo_render hbranch hjump
  · refine ⟨⟨ascii ".word", [hexAddress w.toNat]⟩, ?_, fun site relocations => rfl⟩
    rw [tokens_disassemble_of_none hnone]
    rfl

theorem disassembly_reassembles_load :
    (Instruction.decode? 0x8fa8fffc = some ⟨.lw, .memory 8 0xfffc 29⟩ ∧
      disassemble 0x8fa8fffc = ascii "lw $t0 -4($sp)" ∧
      EncodesTo (disassemble 0x8fa8fffc) 0x8fa8fffc) ∧
    Instruction.decode? 0xffffffff = none ∧
      ∃ i, RawInstruction.ofTokens? (tokens (disassemble 0xffffffff)) = some i ∧
        ∀ site relocations, i.encode site relocations = .error (.unknownMnemonic i.name) := by
  have hload : Instruction.decode? 0x8fa8fffc = some ⟨.lw, .memory 8 0xfffc 29⟩ := rfl
  have hnone : Instruction.decode? 0xffffffff = none := rfl
  exact ⟨⟨hload, rfl, (disassembly_reassembles _).1 _ hload (by decide) (by decide)⟩, hnone,
    (disassembly_reassembles _).2.1 hnone⟩

end MipsAssembler
