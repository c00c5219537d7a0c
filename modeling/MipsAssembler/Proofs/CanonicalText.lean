import MipsAssembler.Proofs.Expansions
import MipsAssembler.Proofs.Faultless

/-!
# The text between the passes is canonical

An instruction is `Canonical` if its line stands for it alone: nothing on it is a label, it is no
pseudo-instruction, and it has few enough operands. The first pass copies such a line
(`Expansion.step_render`), and so a whole text of them (`Expansion.run_canonical`).

No pseudo-instruction is left between the passes (`ofName?_of_mem_program`). So the first pass
copies its own text exactly if its lines fit, no mnemonic holds a colon, and no instruction has more
operands than the settings allow (`Assembly.IsOf.copied_iff`). In a program without faults the
instructions are real, and then it is enough that three operands are allowed
(`intermediate_expands_to_itself`).
-/

namespace MipsAssembler

/-! ## Canonical lines -/

namespace RawInstruction

/-- An instruction whose line stands for it alone. -/
structure Canonical (maxArgs : Int64) (i : RawInstruction) : Prop where
  /-- It is made of tokens. -/
  wellFormed : i.WellFormed
  /-- Nothing in the mnemonic is taken for a label. -/
  colon_notMem : Ascii.colon ∉ i.name
  /-- It has few enough operands. -/
  length_args_le : (i.args.length : Int) ≤ maxArgs.toInt
  /-- It is no pseudo-instruction. -/
  ofName?_eq_none : Pseudo.ofName? i.name = none

variable {maxArgs : Int64} {i : RawInstruction}

theorem Canonical.definedLabel?_render (h : i.Canonical maxArgs) :
    definedLabel? i.render = none := by
  rw [definedLabel?, h.wellFormed.parse_render_of_no_colon h.colon_notMem]

theorem Canonical.expandLine_render (h : i.Canonical maxArgs) :
    expandLine maxArgs i.render = .ok [i] :=
  expandLine_eq_ok_iff.mpr ⟨_, h.wellFormed.parse_render_of_no_colon h.colon_notMem,
    .inr ⟨i, rfl, h.length_args_le, expand_eq_ok_iff.mpr (.inl ⟨h.ofName?_eq_none, rfl⟩)⟩⟩

/-- What a line without a label that is not refused says about its instruction. -/
theorem WellFormed.of_expandLine_render (h : i.WellFormed) (hlabel : definedLabel? i.render = none)
    {instructions : List RawInstruction}
    (hexpand : expandLine maxArgs i.render = .ok instructions) :
    Ascii.colon ∉ i.name ∧ (i.args.length : Int) ≤ maxArgs.toInt := by
  have hcolon : Ascii.colon ∉ i.name := by
    intro hcolon
    obtain ⟨label, rest, hname, hnot⟩ := List.eq_append_cons_of_mem hcolon
    have hparse := h.parse_render
    rw [hname, Statement.ofTokens_of_colon hnot] at hparse
    -- what stands before the colon is defined as a label, or refused as one
    by_cases hvalid : isLabel label
    · rw [if_pos hvalid] at hparse
      rw [definedLabel?, hparse] at hlabel
      cases hlabel
    · rw [if_neg hvalid] at hparse
      rw [expandLine, hparse] at hexpand
      cases hexpand
  refine ⟨hcolon, ?_⟩
  obtain ⟨statement, hparse, hcases⟩ := expandLine_eq_ok_iff.mp hexpand
  rw [h.parse_render_of_no_colon hcolon] at hparse
  obtain rfl := Except.ok.inj hparse
  obtain ⟨hnone, -⟩ | ⟨other, hother, hfew, -⟩ := hcases
  · cases hnone
  · obtain rfl := Option.some.inj hother
    exact hfew

end RawInstruction

/-! ## Copying -/

namespace Expansion

/-- What copying instructions adds to what the first pass has done: their lines, each with its
number in the text that is read, and nothing else. -/
structure Copies (e : Expansion) (instructions : List RawInstruction) (e' : Expansion) :
    Prop where
  lines_eq : e'.lines = e.lines + instructions.length
  symbols_eq : e'.symbols = e.symbols
  events_eq : e'.events = e.events
  unlimited : e'.sink.capacity = none
  text_eq : e'.text = e.text ++ unlines (instructions.map RawInstruction.render)
  origins_eq : e'.origins.toList =
    e.origins.toList ++ (List.range' (e.lines + 1) instructions.length).map Nat.cast

/-- A canonical line is copied. -/
theorem step_render {e : Expansion} (h : e.sink.capacity = none) {maxArgs : Int64}
    {i : RawInstruction} (hi : i.Canonical maxArgs) :
    e.step maxArgs i.render = { e with lines := e.lines + 1 }.emitLine [i] := by
  rw [step_eq h, hi.expandLine_render, labelLine, hi.definedLabel?_render]

namespace Copies

variable {e e' : Expansion} {instructions : List RawInstruction} {maxArgs : Int64}

theorem refl (h : e.sink.capacity = none) : Copies e [] e where
  lines_eq := rfl
  symbols_eq := rfl
  events_eq := rfl
  unlimited := h
  text_eq := (List.append_nil _).symm
  origins_eq := (List.append_nil _).symm

/-- One more line is copied. -/
theorem step (h : Copies e instructions e') {i : RawInstruction} (hi : i.Canonical maxArgs) :
    Copies e (instructions ++ [i]) (e'.step maxArgs i.render) := by
  rw [step_render h.unlimited hi]
  exact {
    lines_eq := by simp [emitLine, h.lines_eq, Nat.add_assoc]
    symbols_eq := h.symbols_eq
    events_eq := h.events_eq
    unlimited := h.unlimited
    text_eq := by
      rw [List.map_append, unlines_append, ← List.append_assoc, ← h.text_eq]
      simp [emitLine, text, Sink.contents_push_of_fits (fits_of_unlimited h.unlimited _),
        renderExpansion, unlines]
    origins_eq := by
      rw [List.length_append, List.length_singleton, List.range'_concat, List.map_append,
        ← List.append_assoc, ← h.origins_eq]
      simp [emitLine, h.lines_eq, Nat.add_right_comm] }

/-- Any number of further lines is copied. -/
theorem foldl_step (h : Copies e instructions e') {more : List RawInstruction}
    (hmore : ∀ i ∈ more, i.Canonical maxArgs) :
    Copies e (instructions ++ more)
      ((more.map RawInstruction.render).foldl (Expansion.step maxArgs) e') := by
  induction more generalizing instructions e' with
  | nil => simpa using h
  | cons i more ih =>
    rw [List.forall_mem_cons] at hmore
    rw [List.map_cons, List.foldl_cons, ← List.singleton_append, ← List.append_assoc]
    exact ih (h.step hmore.1) hmore.2

end Copies

/-- **The first pass copies a text of canonical lines.** Nothing is reported, the symbols stay as
they are, and each line comes from itself. -/
theorem run_canonical (settings : Settings) (symbols : SymbolTable)
    {instructions : List RawInstruction}
    (hcanonical : ∀ i ∈ instructions, i.Canonical settings.maxArgs)
    (hfit : ∀ line ∈ instructions.map RawInstruction.render, line.length ≤ maxLineLength) :
    let text := unlines (instructions.map RawInstruction.render)
    let e := run settings ⟨text, none⟩ symbols
    e.allFaults = [] ∧ e.text = text ∧ e.symbols = symbols ∧
      e.origins.toList = (List.range' 1 instructions.length).map Nat.cast := by
  have hscan := scan_unlines_render (fun i hi => (hcanonical i hi).wellFormed) hfit
  have hcopies := (Copies.refl (e := { next := settings.textBase, symbols, sink := {} })
    rfl).foldl_step hcanonical
  rw [List.nil_append] at hcopies
  dsimp only
  rw [run, hscan]
  refine ⟨?_, hcopies.text_eq, hcopies.symbols_eq, hcopies.origins_eq⟩
  rw [allFaults, faults, hcopies.events_eq]
  rfl

/-- A first pass that reports nothing and defines no symbol has read its source to the end, and all
lines expand and define no label. -/
theorem lines_of_quiet {settings : Settings} (ha : settings.textBase.toNat % 4 = 0)
    {source : Source} (hfaults : (run settings source).allFaults = [])
    (hsymbols : (run settings source).symbols.entries.toList = []) :
    source.scan.failure = none ∧ ∀ line ∈ source.scan.lines, definedLabel? line = none ∧
      ∃ instructions, expandLine settings.maxArgs line = .ok instructions := by
  have hreads := reads_run ha source
  rw [allFaults, List.append_eq_nil_iff, List.map_eq_nil_iff, hreads.faults_eq] at hfaults
  rw [hreads.entries_eq] at hsymbols
  obtain ⟨hfirst, hread⟩ := hfaults
  refine ⟨?_, fun line hline => ⟨?_, (firstFaultsOf_eq_nil_iff.mp hfirst).2 line hline⟩⟩
  · simpa [readFault?, run] using hread
  · cases hlabel : definedLabel? line with
    | none => rfl
    | some label =>
      -- the label would be the name of a symbol
      have hmem : label ∈ (definitionsOf settings source.scan.lines).map (·.name) :=
        mem_definitionsOf_names.mpr (List.mem_filterMap.mpr ⟨line, hline, hlabel⟩)
      rw [hsymbols] at hmem
      cases hmem

end Expansion

/-! ## The text between the passes -/

/-- There are no pseudo-instructions between the passes. -/
theorem ofName?_of_mem_program {settings : Settings} {source : Source} {l : Located}
    (h : l ∈ program settings source) : Pseudo.ofName? l.instruction.name = none := by
  obtain ⟨j, line, -, -, hi⟩ := mem_instructionsOf h
  obtain ⟨instructions, hexpand, hi⟩ := mem_lineInstructions.mp hi
  obtain ⟨statement, -, ⟨-, rfl⟩ | ⟨raw, -, -, hraw⟩⟩ := expandLine_eq_ok_iff.mp hexpand
  · cases hi
  · exact RawInstruction.ofName?_of_mem_expand hraw hi

namespace Assembly.IsOf

variable {settings : Settings} {source : Source} {a : Assembly}

/-- The text between the passes is copied if its lines fit, no mnemonic holds a colon, and all
instructions have few enough operands. -/
theorem copied (h : a.IsOf settings source) (symbols : SymbolTable)
    (hfit : LinesFit a.intermediate)
    (hall : ∀ l ∈ program settings source, Ascii.colon ∉ l.instruction.name ∧
      (l.instruction.args.length : Int) ≤ settings.maxArgs.toInt) :
    let again := Expansion.run settings ⟨a.intermediate, none⟩ symbols
    again.allFaults = [] ∧ again.text = a.intermediate ∧ again.symbols = symbols ∧
      again.origins.toList =
        (List.range' 1 (program settings source).length).map Nat.cast := by
  have hcanonical : ∀ i ∈ (program settings source).map Located.instruction,
      i.Canonical settings.maxArgs := by
    rw [List.forall_mem_map]
    intro l hl
    exact {
      wellFormed := wellFormed_of_mem_instructionsOf hl
      colon_notMem := (hall l hl).1
      length_args_le := (hall l hl).2
      ofName?_eq_none := ofName?_of_mem_program hl }
  rw [h.linesFit_iff] at hfit
  have hrun :=
    Expansion.run_canonical settings symbols hcanonical (by simpa [Located.fits] using hfit)
  rwa [← h.intermediate_eq, List.length_map] at hrun

/-- **When the first pass copies its own text.** Reading it, the pass reports nothing and defines no
symbol exactly if all lines fit, no mnemonic holds a colon, and all instructions have few enough
operands. -/
theorem copied_iff (h : a.IsOf settings source) :
    let again := Expansion.run settings ⟨a.intermediate, none⟩
    again.allFaults = [] ∧ again.symbols.entries.toList = [] ↔
      LinesFit a.intermediate ∧ ∀ l ∈ program settings source,
        Ascii.colon ∉ l.instruction.name ∧
          (l.instruction.args.length : Int) ≤ settings.maxArgs.toInt := by
  constructor
  · rintro ⟨hfaults, hsymbols⟩
    obtain ⟨hend, hlines⟩ :=
      Expansion.lines_of_quiet (Settings.aligned_of_check h.check_eq) hfaults hsymbols
    have hscan := h.scan_intermediate
    have hfit : LinesFit a.intermediate := by
      by_contra hlong
      rw [hscan, if_neg hlong] at hend
      cases hend
    rw [h.takeWhile_fits hfit] at hscan
    refine ⟨hfit, fun l hl => ?_⟩
    have hline : l.instruction.render ∈ (Source.mk a.intermediate none).scan.lines := by
      rw [hscan]
      exact List.mem_map.mpr ⟨l, hl, rfl⟩
    obtain ⟨hlabel, instructions, hexpand⟩ := hlines _ hline
    exact (wellFormed_of_mem_instructionsOf hl).of_expandLine_render hlabel hexpand
  · rintro ⟨hfit, hall⟩
    obtain ⟨hfaults, -, hsymbols, -⟩ := h.copied .symbols hfit hall
    refine ⟨hfaults, ?_⟩
    rw [hsymbols]
    rfl

/-- A program without faults is made of real instructions. -/
theorem isReal_of_no_faults (h : a.IsOf settings source) (hf : a.faults = []) {l : Located}
    (hl : l ∈ program settings source) : l.instruction.IsReal := by
  obtain ⟨-, -, hall⟩ := h.faults_eq_nil_iff.mp hf
  obtain ⟨n, hn⟩ := List.getElem?_of_mem hl
  exact (RawInstruction.exists_resolve_iff.mp (hall n l hn).resolves).1

end Assembly.IsOf

/-- **The text between the passes expands to itself.** Where three operands are allowed, the first
pass over the text of a program without faults reports nothing, writes the same text, defines no
symbol, and counts each line as the source of the word with its number. -/
theorem intermediate_expands_to_itself {settings : Settings} {source : Source} {a : Assembly}
    (h : assemble settings source = .ok a) (hf : a.faults = [])
    (hargs : 3 ≤ settings.maxArgs.toInt) :
    let again := Expansion.run settings ⟨a.intermediate, none⟩ .symbols
    again.allFaults = [] ∧ again.text = a.intermediate ∧ again.symbols = .symbols ∧
      again.origins.toList = (List.range' 1 a.words.length).map Nat.cast := by
  have hof := isOf_of_assemble h
  obtain ⟨-, ⟨hfit, -⟩, -⟩ := hof.faults_eq_nil.mp hf
  rw [hof.length_words hf]
  refine hof.copied .symbols hfit fun l hl => ?_
  have hreal := hof.isReal_of_no_faults hf hl
  have hthree := hreal.length_args_le
  exact ⟨hreal.colon_notMem, by omega⟩

/-- A constant of two words, a load with its operands in parentheses, and a jump back. -/
def loadSource : Source :=
  ⟨ascii "x: li $t0, 0x12345 # two words\nlw $t1, 4($t0)\nj x\n", none⟩

theorem intermediate_expands_to_itself_load :
    ∃ a, assemble {} loadSource = .ok a ∧ a.faults = [] ∧
      3 ≤ (Settings.maxArgs {}).toInt ∧
      a.intermediate = ascii "lui $t0 1\nori $t0 $t0 9029\nlw $t1 4 $t0\nj x\n" ∧
      let again := Expansion.run {} ⟨a.intermediate, none⟩ .symbols
      again.allFaults = [] ∧ again.text = a.intermediate ∧ again.symbols = .symbols ∧
        again.origins.toList = [1, 2, 3, 4] := by
  obtain ⟨a, ha⟩ := exists_assemble {} rfl loadSource
  have hof := isOf_of_assemble ha
  have hprogram : program {} loadSource =
      [⟨1, ⟨Operation.lui.name, [ascii "$t0", ascii "1"]⟩⟩,
        ⟨1, ⟨Operation.ori.name, [ascii "$t0", ascii "$t0", ascii "9029"]⟩⟩,
        ⟨2, ⟨Operation.lw.name, [ascii "$t1", ascii "4", ascii "$t0"]⟩⟩,
        ⟨3, ⟨Operation.j.name, [ascii "x"]⟩⟩] := by
    decide +kernel
  have hf : a.faults = [] := by
    refine hof.faults_eq_nil_iff.mpr ⟨by decide +kernel, by decide +kernel, ?_⟩
    rw [hprogram]
    rintro (_ | _ | _ | _ | n) l hl
    · obtain rfl := Option.some.inj hl
      exact ⟨by decide, ⟨_, rfl⟩, _, rfl⟩
    · obtain rfl := Option.some.inj hl
      exact ⟨by decide, ⟨_, rfl⟩, _, rfl⟩
    · obtain rfl := Option.some.inj hl
      exact ⟨by decide, ⟨_, rfl⟩, _, rfl⟩
    · obtain rfl := Option.some.inj hl
      exact ⟨by decide, ⟨_, rfl⟩, _, rfl⟩
    · cases hl
  have htext : a.intermediate = ascii "lui $t0 1\nori $t0 $t0 9029\nlw $t1 4 $t0\nj x\n" := by
    rw [hof.intermediate_eq, hprogram]
    decide +kernel
  have hcount : a.words.length = 4 := by
    rw [hof.length_words hf, hprogram]
    rfl
  have hargs : 3 ≤ (Settings.maxArgs {}).toInt := by
    decide
  have hagain := intermediate_expands_to_itself ha hf hargs
  rw [hcount] at hagain
  exact ⟨a, ha, hf, hargs, htext, hagain⟩

end MipsAssembler
