import MipsAssembler.Proofs.LineLengths
import MipsAssembler.Proofs.Placement

/-!
# Which programs are accepted

`Acceptable` says without running the assembler which source texts are free of faults: labels are
labels and stand once, instructions have the operands they take, branches are in reach of their
labels, and the words fit the image. If the image ends below the top of the address space, exactly
these texts are accepted (`faults_eq_nil_iff_acceptable`).

The two passes and the image each decide a part of it:

- `lineValid_iff`: the lines that are right are those that expand to real instructions;
- `Assembly.IsOf.exists_branchOperand_iff`: a branch resolves exactly if its label is in reach;
- `Image.has_room_iff`: the image has room for what its size says.
-/

namespace MipsAssembler

/-- A line by itself is right. -/
structure LineValid (maxArgs : Int64) (line : Bytes) : Prop where
  /-- What stands before the first colon of the first token is a label. -/
  label : ∀ head, (tokens line).head? = some head → Ascii.colon ∈ head →
    isLabel (head.takeWhile (· != Ascii.colon))
  /-- The instruction has few enough operands, and those that it takes. -/
  instruction : ∀ statement i, Statement.parse line = .ok statement →
    statement.instruction = some i → (i.args.length : Int) ≤ maxArgs.toInt ∧ i.Valid

/-- The bytes from the instruction behind the one with a number to the line with an index. -/
def Source.distance (source : Source) (settings : Settings) (n j : Nat) : Int :=
  4 * (source.instructionsBefore settings j : Int) - 4 * (n + 1)

/-- The source texts that the assembler accepts. -/
structure Acceptable (settings : Settings) (source : Source) : Prop where
  /-- Every line by itself is right. -/
  line_valid : ∀ line ∈ source.scan.lines, LineValid settings.maxArgs line
  /-- No label is defined by two lines. -/
  label_unique : ∀ i j label, source.DefinesAt i label → source.DefinesAt j label → i = j
  /-- The label of every branch is defined, and in reach. -/
  branch_reaches : ∀ (n : Nat) (l : Located), (program settings source)[n]? = some l →
    ∀ label, l.instruction.BranchesTo label → ∃ j, source.DefinesAt j label ∧
      -131072 ≤ source.distance settings n j ∧ source.distance settings n j ≤ 131068
  /-- The words fit the image. -/
  fits : 4 * (program settings source).length ≤ settings.imageSize.toNat

/-! ## Lines -/

/-- A line is right exactly if it expands to real instructions. -/
theorem lineValid_iff {maxArgs : Int64} {line : Bytes} :
    LineValid maxArgs line ↔ ∃ instructions,
      expandLine maxArgs line = .ok instructions ∧ ∀ i ∈ instructions, i.IsReal := by
  constructor
  · intro h
    obtain ⟨statement, hparse⟩ := Statement.exists_parse_iff.mpr h.label
    cases hinst : statement.instruction with
    | none =>
      exact ⟨[], expandLine_eq_ok_iff.mpr ⟨statement, hparse, .inl ⟨hinst, rfl⟩⟩, nofun⟩
    | some i =>
      obtain ⟨hargs, hi⟩ := h.instruction statement i hparse hinst
      obtain ⟨instructions, hraw, hreal⟩ := RawInstruction.valid_iff.mp hi
      exact ⟨instructions,
        expandLine_eq_ok_iff.mpr ⟨statement, hparse, .inr ⟨i, hinst, hargs, hraw⟩⟩, hreal⟩
  · rintro ⟨instructions, hexpand, hreal⟩
    obtain ⟨statement, hparse, hcases⟩ := expandLine_eq_ok_iff.mp hexpand
    refine ⟨Statement.exists_parse_iff.mp ⟨statement, hparse⟩, fun other i hother hi => ?_⟩
    obtain rfl : other = statement := Except.ok.inj (hother.symm.trans hparse)
    rcases hcases with ⟨hnone, -⟩ | ⟨i', hi', hargs, hraw⟩
    · rw [hnone] at hi
      cases hi
    · obtain rfl : i = i' := Option.some.inj (hi.symm.trans hi')
      exact ⟨hargs, RawInstruction.valid_iff.mpr ⟨instructions, hraw, hreal⟩⟩

/-- All lines are right exactly if all expand, and the program is made of real instructions. -/
theorem forall_lineValid_iff {settings : Settings} {source : Source} :
    (∀ line ∈ source.scan.lines, LineValid settings.maxArgs line) ↔
      (∀ line ∈ source.scan.lines, ∃ instructions,
        expandLine settings.maxArgs line = .ok instructions) ∧
      ∀ l ∈ program settings source, l.instruction.IsReal := by
  simp only [lineValid_iff]
  constructor
  · intro h
    refine ⟨fun line hline => (h line hline).imp fun _ => And.left, fun l hl => ?_⟩
    obtain ⟨j, line, hj, -, hmem⟩ := mem_instructionsOf hl
    obtain ⟨instructions, hexpand, hmem⟩ := mem_lineInstructions.mp hmem
    obtain ⟨others, hothers, hreal⟩ := h line (List.mem_of_getElem? hj)
    obtain rfl : others = instructions := Except.ok.inj (hothers.symm.trans hexpand)
    exact hreal _ hmem
  · rintro ⟨hexpand, hreal⟩ line hline
    obtain ⟨instructions, hok⟩ := hexpand line hline
    refine ⟨instructions, hok, fun i hi => ?_⟩
    obtain ⟨l, hl, rfl⟩ := mem_instructionsOf_of_line hline
      (mem_lineInstructions.mpr ⟨instructions, hok, hi⟩)
    exact hreal l hl

/-- The lines of a program of real instructions fit between the passes. -/
theorem fits_of_forall_isReal {settings : Settings} {source : Source}
    (hreal : ∀ l ∈ program settings source, l.instruction.IsReal) {l : Located}
    (hl : l ∈ program settings source) : l.fits := by
  obtain ⟨j, line, hj, -, hmem⟩ := mem_instructionsOf hl
  obtain ⟨instructions, hexpand, hmem⟩ := mem_lineInstructions.mp hmem
  have hline := length_le_of_mem_scan (List.mem_of_getElem? hj)
  have hall : ∀ i ∈ instructions, i.IsReal := by
    intro i hi
    obtain ⟨l', hl', rfl⟩ := mem_instructionsOf_of_line (List.mem_of_getElem? hj)
      (mem_lineInstructions.mpr ⟨instructions, hexpand, hi⟩)
    exact hreal l' hl'
  obtain ⟨statement, hparse, ⟨-, rfl⟩ | ⟨i, hinst, -, hraw⟩⟩ := expandLine_eq_ok_iff.mp hexpand
  · cases hmem
  · have hi := (Statement.length_render_le hparse hinst).trans hline
    exact decide_eq_true (RawInstruction.length_render_of_expand hi hraw hall hmem)

/-! ## Branches -/

namespace Assembly.IsOf

variable {settings : Settings} {source : Source} {a : Assembly}

/-- A branch resolves exactly if its label is in reach. -/
theorem exists_branchOperand_iff (h : a.IsOf settings source)
    (hfirst : firstFaultsOf settings source.scan.lines = [])
    (htop : settings.textBase.toNat + 4 * (program settings source).length < 0x100000000)
    {n : Nat} (hn : n < (program settings source).length) {label : Bytes} :
    (∃ words, Site.branchOperand ⟨settings.addressOf n, some a.symbols⟩ label = .ok words) ↔
      ∃ j, source.DefinesAt j label ∧
        -131072 ≤ source.distance settings n j ∧ source.distance settings n j ≤ 131068 := by
  have hbranch : (∃ words, Site.branchOperand ⟨settings.addressOf n, some a.symbols⟩ label =
      .ok words) ↔ ∃ target, a.symbols.lookup? label = some target ∧
        ∃ words, displacement (settings.addressOf n) target = .ok words := by
    rw [Site.branchOperand, Option.bind_some]
    cases a.symbols.lookup? label with
    | none => simp
    | some target => simp
  -- neither the branch nor its label is at the top, so the distance is that of their numbers
  have hreach (j : Nat) : (∃ words, displacement (settings.addressOf n)
      (settings.addressOf (source.instructionsBefore settings j)) = .ok words) ↔
        -131072 ≤ source.distance settings n j ∧ source.distance settings n j ≤ 131068 := by
    have hle := source.instructionsBefore_le settings j
    rw [exists_displacement_iff, Settings.toNat_addressOf_of_lt (by omega),
      Settings.toNat_addressOf_of_lt (by omega), Source.distance]
    omega
  rw [hbranch]
  constructor
  · rintro ⟨target, hlookup, hwords⟩
    obtain ⟨j, hj, rfl⟩ := (h.lookup?_eq_some_iff hfirst).mp hlookup
    exact ⟨j, hj, (hreach j).mp hwords⟩
  · rintro ⟨j, hj, hdistance⟩
    exact ⟨_, (h.lookup?_eq_some_iff hfirst).mpr ⟨j, hj, rfl⟩, (hreach j).mpr hdistance⟩

end Assembly.IsOf

/-! ## The accepted programs -/

/-- **Which programs are accepted.** With settings that leave the top of the address space free, and
a source whose lines fit the scanner's buffer and that is read to its end, there is an assembly, and
it is free of faults exactly if the source is acceptable. -/
theorem faults_eq_nil_iff_acceptable {settings : Settings} {source : Source}
    (hbase : settings.textBase.toNat % 4 = 0) (hargs : 0 < settings.maxArgs.toInt)
    (hsize : settings.imageSize.toNat ≠ 0) (hwords : settings.imageSize.toNat % 4 = 0)
    (hend : settings.textBase.toNat + settings.imageSize.toNat < 0x100000000)
    (horder : settings.byteOrder = ByteOrder.big.name ∨
      settings.byteOrder = ByteOrder.little.name)
    (hlines : LinesFit source.text) (hread : source.failure = none) :
    ∃ a, assemble settings source = .ok a ∧ (a.faults = [] ↔ Acceptable settings source) := by
  have hcheck : settings.check = .ok () :=
    Settings.check_eq_ok_iff.mpr ⟨hbase, hargs, ⟨hsize, hwords⟩, by omega, horder⟩
  obtain ⟨a, ha⟩ := exists_assemble settings hcheck source
  have hof := isOf_of_assemble ha
  have hscan : source.scan.failure = none := by
    rw [scan_failure_of_linesFit hlines, hread]
    rfl
  refine ⟨a, ha, ?_⟩
  rw [hof.faults_eq_nil_iff]
  constructor
  · rintro ⟨-, hfirst, hassembles⟩
    obtain ⟨hunique, hexpand⟩ := firstFaultsOf_eq_nil_iff.mp hfirst
    have hfits : 4 * (program settings source).length ≤ settings.imageSize.toNat :=
      (Image.has_room_iff hbase hend hwords).mp fun n l hl => (hassembles n l hl).has_place
    have hreal : ∀ l ∈ program settings source, l.instruction.IsReal := by
      intro l hl
      obtain ⟨n, hn⟩ := List.getElem?_of_mem hl
      exact (RawInstruction.exists_resolve_iff.mp (hassembles n l hn).resolves).1
    exact {
      line_valid := forall_lineValid_iff.mpr ⟨hexpand, hreal⟩
      label_unique := hunique
      branch_reaches := by
        intro n l hl label hlabel
        have hn := (List.getElem?_eq_some_iff.mp hl).1
        have hbranch := (RawInstruction.exists_resolve_iff.mp (hassembles n l hl).resolves).2
        exact (hof.exists_branchOperand_iff hfirst (by omega) hn).mp (hbranch label hlabel)
      fits := hfits }
  · intro h
    have hfits := h.fits
    obtain ⟨hexpand, hreal⟩ := forall_lineValid_iff.mp h.line_valid
    have hfirst := firstFaultsOf_eq_nil_iff.mpr ⟨h.label_unique, hexpand⟩
    refine ⟨hscan, hfirst, fun n l hl => ⟨?_, ?_, ?_⟩⟩
    · exact fits_of_forall_isReal hreal (List.mem_of_getElem? hl)
    · have hn := (List.getElem?_eq_some_iff.mp hl).1
      refine RawInstruction.exists_resolve_iff.mpr
        ⟨hreal l (List.mem_of_getElem? hl), fun label hlabel => ?_⟩
      exact (hof.exists_branchOperand_iff hfirst (by omega) hn).mpr
        (h.branch_reaches n l hl label hlabel)
    · exact (Image.has_room_iff hbase hend hwords).mpr hfits n l hl

/-- A constant of two words, a branch back to it, and a jump to a label of another program. -/
def constantSource : Source :=
  ⟨ascii "x: li $t0, 0x12345 # two words\nbne $t0 $0 x\nj far\n", none⟩

theorem faults_eq_nil_iff_acceptable_constant :
    ∃ a, assemble {} constantSource = .ok a ∧ a.faults = [] ∧ Acceptable {} constantSource := by
  have hexists : ∃ a, assemble {} constantSource = .ok a ∧
      (a.faults = [] ↔ Acceptable {} constantSource) :=
    faults_eq_nil_iff_acceptable (by decide) (by decide) (by decide) (by decide) (by decide)
      (.inl rfl) (by decide +kernel) rfl
  obtain ⟨a, ha, hiff⟩ := hexists
  have hof := isOf_of_assemble ha
  have hx : a.symbols.lookup? (ascii "x") = some 0 := by
    rw [hof.lookup?_eq]
    decide +kernel
  have hprogram : program {} constantSource =
      [⟨1, ⟨Operation.lui.name, [ascii "$t0", ascii "1"]⟩⟩,
        ⟨1, ⟨Operation.ori.name, [ascii "$t0", ascii "$t0", ascii "9029"]⟩⟩,
        ⟨2, ⟨Operation.bne.name, [ascii "$t0", ascii "$0", ascii "x"]⟩⟩,
        ⟨3, ⟨Operation.j.name, [ascii "far"]⟩⟩] := by
    decide +kernel
  have hf : a.faults = [] := by
    refine hof.faults_eq_nil_iff.mpr ⟨by decide +kernel, by decide +kernel, ?_⟩
    rw [hprogram]
    rintro (_ | _ | _ | _ | n) l hl
    · obtain rfl := Option.some.inj hl
      exact ⟨by decide, ⟨_, rfl⟩, _, rfl⟩
    · obtain rfl := Option.some.inj hl
      exact ⟨by decide, ⟨_, rfl⟩, _, rfl⟩
    · obtain rfl := Option.some.inj hl
      refine ⟨by decide, ?_, _, rfl⟩
      refine RawInstruction.exists_resolve_branch (.inr rfl) (x := 8) (y := 0) (w := -3) rfl rfl ?_
      simp only [Site.branchOperand, Option.bind_some, hx]
      rfl
    · obtain rfl := Option.some.inj hl
      exact ⟨by decide, ⟨_, rfl⟩, _, rfl⟩
    · cases hl
  exact ⟨a, ha, hf, hiff.mp hf⟩

end MipsAssembler
