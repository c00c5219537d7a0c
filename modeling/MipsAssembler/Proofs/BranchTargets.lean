import MipsAssembler.Proofs.Faultless
import MipsAssembler.Proofs.Resolution

/-!
# Branches land on their labels

In a program without faults a branch reaches the first instruction at or behind the line of its
label (`branch_reaches_label`). Three facts meet here:

- the displacement in a branch word is exact (`RawInstruction.branchOffset_of_resolve`);
- a symbol is the address of the instruction whose number is that of the instructions on the lines
  before its label (`mem_definitionsOf`);
- the words stand at successive addresses in the order of their lines, so the first at or behind a
  line has that same number (`address_find?_line`).
-/

namespace MipsAssembler

/-! ## Words in the order of their lines -/

/-- The first word behind a line has the number of the instructions up to that line. -/
theorem address_find?_line {settings : Settings} {words : List PlacedWord}
    {early later : List Located} {j : Nat}
    (hwords : words.map (fun w => (w.address, w.line)) =
      (early ++ later).zipIdx.map fun p => (settings.addressOf p.2, (p.1.line : Int)))
    (hearly : ∀ l ∈ early, l.line ≤ j) (hlater : ∀ l ∈ later, j < l.line) :
    ((words.find? fun w => (j : Int) + 1 ≤ w.line).map (·.address)).getD
      (settings.addressOf words.length) = settings.addressOf early.length := by
  have hlength : words.length = early.length + later.length := by
    simpa using congrArg List.length hwords
  have hfind : (words.find? fun w => (j : Int) + 1 ≤ w.line).map (·.address) =
      ((words.map fun w => (w.address, w.line)).find? fun p => (j : Int) + 1 ≤ p.2).map (·.1) := by
    rw [List.find?_map, Option.map_map]
    rfl
  have hnone : (early.zipIdx.find? fun p => decide ((j : Int) + 1 ≤ p.1.line)) = none := by
    rw [List.find?_eq_none]
    intro p hp
    have := hearly p.1 (List.fst_mem_of_mem_zipIdx hp)
    simp only [decide_eq_true_eq]
    omega
  rw [hfind, hwords, List.find?_map, Option.map_map, List.zipIdx_append, List.find?_append]
  have hcomp : ((fun p : Address × Int => decide ((j : Int) + 1 ≤ p.2)) ∘
      fun p : Located × Nat => (settings.addressOf p.2, (p.1.line : Int))) =
        fun p => decide ((j : Int) + 1 ≤ p.1.line) := rfl
  rw [hcomp, hnone, Option.none_or]
  cases later with
  | nil => simp [hlength]
  | cons l later =>
    have hline : (j : Int) + 1 ≤ l.line := by
      have := hlater l List.mem_cons_self
      omega
    have hfirst : ((l :: later).zipIdx (0 + early.length)).find?
        (fun p => decide ((j : Int) + 1 ≤ p.1.line)) = some (l, early.length) := by
      rw [List.zipIdx_cons, Nat.zero_add]
      exact List.find?_cons_of_pos (decide_eq_true hline)
    rw [hfirst]
    rfl

/-! ## Branches -/

/-- **Branches land on their labels.** In a program without faults the word of a `beq` or `bne`
decodes to that operation; its last operand is a label that is defined, by one line; from the next
instruction it reaches exactly the address of that label; and this is the address of the first word
whose line is that line or a later one, or the end of the program if there is none. -/
theorem branch_reaches_label {settings : Settings} {source : Source} {a : Assembly}
    (h : assemble settings source = .ok a) (hf : a.faults = []) {w : PlacedWord} (hw : w ∈ a.words)
    {op : Operation} (hop : op = .beq ∨ op = .bne)
    (hname : (tokens w.source).head? = some op.name) :
    ∃ rs rt label target j, tokens w.source = [op.name, rs, rt, label] ∧
      (Instruction.decode? w.value).map (·.operation) = some op ∧
      a.symbols.lookup? label = some target ∧
      (w.address.toNat : Int) + 4 + w.value.branchOffset = target.toNat ∧
      (∀ i, source.DefinesAt i label ↔ i = j) ∧
      target = ((a.words.find? fun w' => (j : Int) + 1 ≤ w'.line).map (·.address)).getD
        (settings.textBase + BitVec.ofNat 32 (4 * a.words.length)) := by
  have hof := isOf_of_assemble h
  obtain ⟨-, hfirst, -⟩ := hof.faults_eq_nil_iff.mp hf
  -- the word comes from an instruction of the program, whose tokens its source shows
  obtain ⟨n, l, resolved, hl, hresolve, rfl⟩ := hof.mem_words hw
  have hwf := wellFormed_of_mem_instructionsOf (List.mem_of_getElem? hl)
  have htokens : tokens l.instruction.render = l.instruction.name :: l.instruction.args :=
    tokens_spaced hwf
  rw [htokens] at hname
  have hname' : l.instruction.name = op.name := by simpa using hname
  obtain ⟨rs, rt, label, target, hargs, hlookup, hoperation, hreach⟩ :=
    RawInstruction.branchOffset_of_resolve hop hname' hresolve
  -- the symbol comes from a line that defines it
  have hmem := hof.reads.indexed.mem_of_lookup? hlookup
  rw [hof.reads.entries_eq] at hmem
  obtain ⟨j, line, hline, hlabel, haddress⟩ := mem_definitionsOf hmem
  have hdefines : source.DefinesAt j label := by
    rw [Source.DefinesAt, hline]
    exact hlabel
  obtain ⟨later, hsplit, hearly, hlater⟩ :=
    instructionsOf_take settings.maxArgs source.scan.lines j
  have hwords := hof.words_of_no_faults hf
  rw [program, hsplit] at hwords
  refine ⟨rs, rt, label, target, j, ?_, ?_, hlookup, hreach, ?_, ?_⟩
  · rw [htokens, hname', hargs]
  · rw [Instruction.decode?_encode, Option.map_some, hoperation]
  · intro i
    constructor
    · intro hi
      exact eq_of_definesAt hfirst hi hdefines
    · rintro rfl
      exact hdefines
  · have hfind := address_find?_line hwords hearly hlater
    rw [show target = _ from haddress, ← hfind]
    rfl

theorem branch_reaches_label_loop :
    ∃ a w target, assemble {} loopSource = .ok a ∧ a.faults = [] ∧ w ∈ a.words ∧
      (tokens w.source).head? = some Operation.beq.name ∧
      a.symbols.lookup? (ascii "y") = some target ∧
      (w.address.toNat : Int) + 4 + w.value.branchOffset = target.toNat := by
  obtain ⟨a, ha⟩ := exists_assemble {} rfl loopSource
  have hof := isOf_of_assemble ha
  have hx : a.symbols.lookup? (ascii "x") = some 0 := by
    rw [hof.lookup?_eq]
    decide +kernel
  have hy : a.symbols.lookup? (ascii "y") = some 8 := by
    rw [hof.lookup?_eq]
    decide +kernel
  have hprogram : program {} loopSource =
      [⟨1, ⟨Operation.beq.name, [ascii "$0", ascii "$0", ascii "y"]⟩⟩,
        ⟨2, ⟨Operation.subu.name, [ascii "$t0", ascii "$zero", ascii "$t1"]⟩⟩,
        ⟨3, ⟨Operation.bne.name, [ascii "$0", ascii "$t0", ascii "x"]⟩⟩] := by
    decide +kernel
  have hfirst : ∃ resolved, RawInstruction.resolve
      ⟨Operation.beq.name, [ascii "$0", ascii "$0", ascii "y"]⟩ ⟨0, some a.symbols⟩ =
        .ok resolved := by
    refine RawInstruction.exists_resolve_branch (.inl rfl) (x := 0) (y := 0) (w := 1) rfl rfl ?_
    simp only [Site.branchOperand, Option.bind_some, hy]
    rfl
  have hf : a.faults = [] := by
    refine hof.faults_eq_nil_iff.mpr ⟨by decide +kernel, by decide +kernel, ?_⟩
    rw [hprogram]
    rintro (_ | _ | _ | n) l hl
    · obtain rfl := Option.some.inj hl
      exact ⟨by decide, hfirst, _, rfl⟩
    · obtain rfl := Option.some.inj hl
      exact ⟨by decide, ⟨_, rfl⟩, _, rfl⟩
    · obtain rfl := Option.some.inj hl
      refine ⟨by decide, ?_, _, rfl⟩
      refine RawInstruction.exists_resolve_branch (.inr rfl) (x := 0) (y := 8) (w := -3) rfl rfl ?_
      simp only [Site.branchOperand, Option.bind_some, hx]
      rfl
    · cases hl
  obtain ⟨resolved, hresolve⟩ := hfirst
  have hfit := (hof.faults_eq_nil.mp hf).2.1.1
  have hw := hof.mem_words_of_resolve hfit (n := 0) (by rw [hprogram]; rfl) hresolve
  have hname : tokens (RawInstruction.render
      ⟨Operation.beq.name, [ascii "$0", ascii "$0", ascii "y"]⟩) =
        [Operation.beq.name, ascii "$0", ascii "$0", ascii "y"] := by
    decide +kernel
  obtain ⟨rs, rt, label, target, j, htokens, -, hlookup, hreach, -⟩ :=
    branch_reaches_label ha hf hw (.inl rfl) (congrArg List.head? hname)
  obtain rfl : ascii "y" = label := by
    have hsame := hname.symm.trans htokens
    simp only [List.cons.injEq, and_true] at hsame
    exact hsame.2.2.2
  exact ⟨a, _, target, ha, hf, hw, congrArg List.head? hname, hlookup, hreach⟩

end MipsAssembler
