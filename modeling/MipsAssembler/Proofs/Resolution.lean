import MipsAssembler.Resolution

/-!
# What instructions resolve to

An instruction resolves if its name is that of an operation and its operands are those of the
operation's family (`RawInstruction.resolve_eq_ok_iff`). Two families refer to labels:

- a branch spans exactly the distance from the next instruction to its label
  (`RawInstruction.branchOffset_of_resolve`);
- what a jump leaves to the linker is a label (`RawInstruction.isLabel_of_reference?`).
-/

namespace MipsAssembler

/-- Renaming the error of a result does not touch its value. -/
theorem mapError_eq_ok_iff {ε ε' α : Type} {f : ε → ε'} {x : Except ε α} {value : α} :
    x.mapError f = .ok value ↔ x = .ok value := by
  cases x with
  | error e => exact ⟨nofun, nofun⟩
  | ok v =>
    show Except.ok v = Except.ok value ↔ Except.ok v = Except.ok value
    rw [Except.ok.injEq, Except.ok.injEq]

theorem Operation.ofName?_name (op : Operation) : ofName? op.name = some op := by
  cases op <;> decide

theorem Operation.ofName?_eq_some_iff {name : Bytes} {op : Operation} :
    ofName? name = some op ↔ name = op.name := by
  constructor
  · intro h
    obtain ⟨before, after, htable, -⟩ := List.lookup_eq_some_iff.mp h
    have hmem : (name, op) ∈ nameTable := by
      rw [htable]
      simp
    obtain ⟨other, -, hother⟩ := List.mem_map.mp hmem
    obtain ⟨hname, rfl⟩ := Prod.mk.inj hother
    exact hname.symm
  · rintro rfl
    exact ofName?_name op

/-- No two operations share a mnemonic. -/
theorem Operation.eq_of_name_eq {op other : Operation} (h : op.name = other.name) : op = other := by
  have hfound := ofName?_eq_some_iff.mpr h
  rw [ofName?_name] at hfound
  exact Option.some.inj hfound

/-- What an instruction resolves to is the operation of its name, with operands of that operation's
family. -/
theorem RawInstruction.resolve_eq_ok_iff {i : RawInstruction} {site : Site}
    {resolved : Instruction} :
    i.resolve site = .ok resolved ↔ Operation.ofName? i.name = some resolved.operation ∧
      site.operands resolved.operation.name resolved.operation.family i.args =
        .ok resolved.operands := by
  obtain ⟨op, operands⟩ := resolved
  rw [resolve]
  cases Operation.ofName? i.name with
  | none => simp
  | some found =>
    rw [Option.some.injEq]
    constructor
    · intro h
      cases hoperands : site.operands found.name found.family i.args with
      | error e =>
        simp only [hoperands] at h
        cases h
      | ok operands' =>
        simp only [hoperands] at h
        cases h
        exact ⟨rfl, hoperands⟩
    · rintro ⟨rfl, hoperands⟩
      exact congrArg (Except.map (Instruction.mk found)) hoperands

/-! ## Branches -/

/-- The displacement of a branch word spans the distance from the next instruction to the target. -/
theorem branchOffset_of_displacement {source target : Address} {d : Int}
    (h : displacement source target = .ok d) (opcode : BitVec 6) (rs rt : Register) :
    (source.toNat : Int) + 4 + (Word.immediate opcode rs rt (.ofInt 16 d)).branchOffset =
      target.toNat := by
  unfold displacement at h
  dsimp only at h
  split at h
  · cases h
  split at h
  · cases h
  next hwhole hrange =>
    -- in range, the immediate keeps the number of words
    obtain rfl := Except.ok.inj h
    have htoInt : (BitVec.ofInt 16 (((target.toNat : Int) - (source.toNat + 4)) / 4)).toInt =
        ((target.toNat : Int) - (source.toNat + 4)) / 4 :=
      BitVec.toInt_ofInt_eq_self (by omega) (by omega) (by omega)
    rw [Word.branchOffset, Word.signedImm, Word.imm_immediate, htoInt]
    omega

/-- A displacement exists exactly if it is whole and in the range of a signed 16-bit number. -/
theorem exists_displacement_iff {source target : Address} :
    (∃ words, displacement source target = .ok words) ↔
      ((target.toNat : Int) - (source.toNat + 4)) % 4 = 0 ∧
        -131072 ≤ (target.toNat : Int) - (source.toNat + 4) ∧
        (target.toNat : Int) - (source.toNat + 4) ≤ 131068 := by
  rw [displacement]
  generalize (target.toNat : Int) - (source.toNat + 4) = distance
  by_cases hwhole : distance % 4 ≠ 0
  · simp [hwhole]
  by_cases hfar : distance / 4 < -0x8000 ∨ 0x7fff < distance / 4
  · simp only [if_neg hwhole, if_pos hfar, reduceCtorEq, exists_false, false_iff]
    omega
  · simp only [if_neg hwhole, if_neg hfar, Except.ok.injEq, exists_eq', true_iff]
    omega

/-- The operands of a branch are two registers and a label, which gives the displacement. -/
theorem Site.operands_branch_eq_ok_iff {site : Site} {name : Bytes} {args : List Bytes}
    {operands : Operands .branch} :
    site.operands name .branch args = .ok operands ↔ ∃ rs rt label x y words,
      args = [rs, rt, label] ∧ registerOperand rs = .ok x ∧ registerOperand rt = .ok y ∧
        site.branchOperand label = .ok words ∧ operands = .branch x y (.ofInt 16 words) := by
  constructor
  · intro h
    match args, h with
    | [rs, rt, label], h =>
      simp only [Site.operands, bind, Except.bind] at h
      cases hx : registerOperand rs with
      | error e => rw [hx] at h; cases h
      | ok x =>
        cases hy : registerOperand rt with
        | error e => rw [hx, hy] at h; cases h
        | ok y =>
          cases hw : site.branchOperand label with
          | error e => rw [hx, hy, hw] at h; cases h
          | ok words =>
            rw [hx, hy, hw] at h
            exact ⟨rs, rt, label, x, y, words, rfl, hx, hy, hw, (Except.ok.inj h).symm⟩
  · rintro ⟨rs, rt, label, x, y, words, rfl, hx, hy, hw, rfl⟩
    simp only [Site.operands, hx, hy, hw]
    rfl

/-- A branch that resolves reaches the address of its label. -/
theorem RawInstruction.branchOffset_of_resolve {i : RawInstruction} {op : Operation}
    {address : Address} {symbols : SymbolTable} {resolved : Instruction}
    (hop : op = .beq ∨ op = .bne) (hname : i.name = op.name)
    (h : i.resolve ⟨address, some symbols⟩ = .ok resolved) :
    ∃ rs rt label target, i.args = [rs, rt, label] ∧ symbols.lookup? label = some target ∧
      resolved.operation = op ∧
      (address.toNat : Int) + 4 + resolved.encode.branchOffset = target.toNat := by
  obtain ⟨operation, operands⟩ := resolved
  obtain ⟨hfound, hoperands⟩ := resolve_eq_ok_iff.mp h
  rw [hname, Operation.ofName?_name] at hfound
  obtain rfl : op = operation := Option.some.inj hfound
  -- both operations are of the family of branches
  rcases hop with rfl | rfl
  all_goals
    obtain ⟨rs, rt, label, x, y, words, hargs, -, -, hwords, rfl⟩ :=
      Site.operands_branch_eq_ok_iff.mp hoperands
    unfold Site.branchOperand at hwords
    split at hwords
    · next target htarget =>
      exact ⟨rs, rt, label, target, hargs, htarget, rfl, branchOffset_of_displacement hwords ..⟩
    · cases hwords

/-- A branch with two registers and a label in reach resolves. -/
theorem RawInstruction.exists_resolve_branch {op : Operation} (hop : op = .beq ∨ op = .bne)
    {site : Site} {rs rt label : Bytes} {x y : Register} {w : Int}
    (hx : registerOperand rs = .ok x) (hy : registerOperand rt = .ok y)
    (hw : site.branchOperand label = .ok w) :
    ∃ resolved, resolve ⟨op.name, [rs, rt, label]⟩ site = .ok resolved := by
  have hoperands (name : Bytes) :
      site.operands name .branch [rs, rt, label] = .ok (.branch x y (.ofInt 16 w)) :=
    Site.operands_branch_eq_ok_iff.mpr ⟨rs, rt, label, x, y, w, rfl, hx, hy, hw, rfl⟩
  rcases hop with rfl | rfl
  · exact ⟨⟨.beq, .branch x y (.ofInt 16 w)⟩,
      resolve_eq_ok_iff.mpr ⟨Operation.ofName?_name .beq, hoperands _⟩⟩
  · exact ⟨⟨.bne, .branch x y (.ofInt 16 w)⟩,
      resolve_eq_ok_iff.mpr ⟨Operation.ofName?_name .bne, hoperands _⟩⟩

/-! ## Jumps -/

/-- The operand of a jump is a label, and its target stays zero. -/
theorem Site.operands_jump_eq_ok_iff {site : Site} {name : Bytes} {args : List Bytes}
    {operands : Operands .jump} :
    site.operands name .jump args = .ok operands ↔
      ∃ label, args = [label] ∧ isLabel label ∧ operands = .jump 0 := by
  constructor
  · intro h
    match args, h with
    | [label], h =>
      rw [Site.operands] at h
      split at h
      · next hlabel => exact ⟨label, rfl, hlabel, (Except.ok.inj h).symm⟩
      · cases h
  · rintro ⟨label, rfl, hlabel, rfl⟩
    rw [Site.operands, if_pos hlabel]

theorem Operation.family_eq_jump_iff {op : Operation} :
    op.family = .jump ↔ op = .j ∨ op = .jal := by
  cases op <;> decide

/-- A jump that resolves has one operand, a label, and its word has the opcode and no target. -/
theorem RawInstruction.args_of_resolve_jump {i : RawInstruction} {site : Site}
    {resolved : Instruction} (h : i.resolve site = .ok resolved)
    (hjump : resolved.operation.family = .jump) :
    ∃ label, i.args = [label] ∧ isLabel label ∧
      resolved.encode = .jump resolved.operation.spec.opcode 0 := by
  obtain ⟨op, operands⟩ := resolved
  have hoperands := (resolve_eq_ok_iff.mp h).2
  -- the operation has to be known for the type of its operands to be
  rcases Operation.family_eq_jump_iff.mp hjump with rfl | rfl
  all_goals
    obtain ⟨label, hargs, hlabel, rfl⟩ := Site.operands_jump_eq_ok_iff.mp hoperands
    exact ⟨label, hargs, hlabel, rfl⟩

/-- What an instruction leaves to the linker is a label. -/
theorem RawInstruction.isLabel_of_reference? {i : RawInstruction} {site : Site}
    {resolved : Instruction} (h : i.resolve site = .ok resolved) {label : Bytes}
    (hlabel : i.reference? resolved = some label) : isLabel label := by
  rw [reference?] at hlabel
  split at hlabel
  · next hfamily =>
    obtain ⟨other, hargs, hother, -⟩ := args_of_resolve_jump h hfamily
    rw [hargs] at hlabel
    exact Option.some.inj hlabel ▸ hother
  · cases hlabel

end MipsAssembler
