import MipsAssembler.Proofs.Faultless
import MipsAssembler.Proofs.Operands

/-!
# Appending to a program

What is written behind a program does not disturb what was assembled of it: all that the appended
text can do to the lines before it is define labels that their branches lacked.

- `RawInstruction.resolve_of_more_symbols`: with more symbols an instruction resolves to the same,
  unless it is a branch to a label that was not defined.
- `Assembly.Extends`: an assembly extends another.
- `appending_extends`: the assembly of a text extends that of any of its beginnings that ends with a
  line feed.
-/

namespace MipsAssembler

/-- An assembly extends the one of the first lines of its source. -/
structure Assembly.Extends (whole part : Assembly) (lines : Nat) : Prop where
  intermediate : part.intermediate <+: whole.intermediate
  symbols : part.symbols.entries.toList <+: whole.symbols.entries.toList
  relocations : part.relocations.entries.toList <+: whole.relocations.entries.toList
  /-- Every word of the part is a word of the whole, and the order is the same. -/
  words : part.words.Sublist whole.words
  /-- What the first lines gain is branches that were rejected because their labels were not
  defined. -/
  gained : ∀ w ∈ whole.words, w.line ≤ lines → w ∉ part.words →
    ∃ i label, RawInstruction.ofTokens? (tokens w.source) = some i ∧ i.BranchesTo label ∧
      ⟨.two, w.line, w.source, .undefinedSymbol label⟩ ∈ part.encoding.faults

/-! ## Instructions -/

/-- The symbols of one table are found in another one too. -/
def SymbolTable.Within (t more : SymbolTable) : Prop :=
  ∀ label target, t.lookup? label = some target → more.lookup? label = some target

namespace RawInstruction

variable {i : RawInstruction} {address : Address} {symbols more : SymbolTable}

/-- With more symbols an instruction resolves to the same, unless it is a branch to a label that was
not defined. -/
theorem resolve_of_more_symbols (h : symbols.Within more) :
    i.resolve ⟨address, some more⟩ = i.resolve ⟨address, some symbols⟩ ∨
      ∃ label, i.BranchesTo label ∧
        i.resolve ⟨address, some symbols⟩ = .error (.undefinedSymbol label) := by
  rcases i.resolve_cases with ⟨result, hsame⟩ | ⟨label, build, hto, hbuild⟩
  · exact .inl (by rw [hsame, hsame])
  · rw [hbuild, hbuild, Site.branchOperand, Site.branchOperand]
    dsimp only [Option.bind_some]
    cases hfound : symbols.lookup? label with
    | none => exact .inr ⟨label, hto, rfl⟩
    | some target =>
      rw [h label target hfound]
      exact .inl rfl

/-- A branch leaves nothing to the linker. -/
theorem reference?_of_branchesTo {label : Bytes} (hto : i.BranchesTo label) {site : Site}
    {resolved : Instruction} (h : i.resolve site = .ok resolved) :
    i.reference? resolved = none := by
  obtain ⟨op, hop, hname, -⟩ := hto
  have hfound := (resolve_eq_ok_iff.mp h).1
  rw [hname, Operation.ofName?_name] at hfound
  have hfamily : resolved.operation.family = .branch := by
    rw [← Option.some.inj hfound]
    exact Operation.family_eq_branch_iff.mpr hop
  rw [reference?, hfamily]
  rfl

end RawInstruction

section Instructions

variable {settings : Settings} {symbols more : SymbolTable} {n : Nat} {l : Located}

theorem word?_of_more_symbols (h : symbols.Within more) {w : PlacedWord}
    (hw : (eventOf settings symbols n l).word? = some w) :
    (eventOf settings more n l).word? = some w := by
  obtain ⟨resolved, hresolve, rfl⟩ := word?_eventOf_eq_some_iff.mp hw
  refine word?_eventOf_eq_some_iff.mpr ⟨resolved, ?_, rfl⟩
  rcases RawInstruction.resolve_of_more_symbols h with hsame | ⟨label, -, herror⟩
  · rw [hsame, hresolve]
  · rw [hresolve] at herror
    cases herror

/-- What an instruction leaves to the linker does not depend on the symbols. -/
theorem referenceOf_of_more_symbols (h : symbols.Within more) :
    referenceOf settings more n l = referenceOf settings symbols n l := by
  rw [referenceOf, referenceOf]
  rcases RawInstruction.resolve_of_more_symbols h with hsame | ⟨label, hto, herror⟩
  · rw [hsame]
  · rw [herror]
    cases hresolve : l.instruction.resolve ⟨settings.addressOf n, some more⟩ with
    | error cause => rfl
    | ok resolved =>
      dsimp only
      rw [RawInstruction.reference?_of_branchesTo hto hresolve]
      rfl

end Instructions

/-! ## Texts -/

section Texts

variable (settings : Settings) {text : Bytes}

/-- The instructions of a text that ends with a line feed come first, whatever follows it, and those
that follow are from later lines. -/
theorem program_append (h : text = [] ∨ text.getLast? = some Ascii.newline) (rest : Bytes) :
    ∃ later, program settings ⟨text ++ rest, none⟩ = program settings ⟨text, none⟩ ++ later ∧
      ∀ l ∈ later, text.count Ascii.newline < l.line := by
  obtain ⟨more, hlines, hcount⟩ := scan_lines_append h rest none none
  refine ⟨contributions (locatedAt settings.maxArgs) (Source.mk text none).scan.lines more, ?_, ?_⟩
  · rw [program, hlines, instructionsOf, contributions_append, List.nil_append]
    rfl
  · intro l hl
    obtain ⟨k, hk, hline⟩ := line_of_mem_contributions hl
    rcases hcount with rfl | hcount
    · cases hk
    · omega

theorem definitionsOf_append (h : text = [] ∨ text.getLast? = some Ascii.newline) (rest : Bytes) :
    definitionsOf settings (Source.mk text none).scan.lines <+:
      definitionsOf settings (Source.mk (text ++ rest) none).scan.lines := by
  obtain ⟨more, hlines, -⟩ := scan_lines_append h rest none none
  rw [hlines, definitionsOf, definitionsOf, contributions_append]
  exact List.prefix_append _ _

end Texts

theorem filterMap_sublist_filterMap {α β : Type} {xs : List α} {f g : α → Option β}
    (h : ∀ x ∈ xs, ∀ y, f x = some y → g x = some y) :
    (xs.filterMap f).Sublist (xs.filterMap g) := by
  induction xs with
  | nil => exact .slnil
  | cons x xs ih =>
    have hrest := ih fun x' hx' => h x' (List.mem_cons_of_mem _ hx')
    rw [List.filterMap_cons, List.filterMap_cons]
    cases hf : f x with
    | none =>
      dsimp only
      split
      · exact hrest
      · exact hrest.cons _
    | some y =>
      rw [h x List.mem_cons_self y hf]
      exact hrest.cons_cons y

/-! ## Two assemblies -/

/-- Every instruction that the second pass reads has its event. -/
theorem Assembly.IsOf.eventOf_mem_events {settings : Settings} {source : Source} {a : Assembly}
    (h : a.IsOf settings source) {n : Nat} {l : Located}
    (hl : ((program settings source).takeWhile Located.fits)[n]? = some l) :
    eventOf settings a.symbols n l ∈ a.encoding.events.toList := by
  rw [h.events_eq]
  exact List.mem_map.mpr ⟨(l, n), List.mem_zipIdx_iff_getElem?.mpr hl, rfl⟩

/-- The assembly of a text, and that of a longer one. -/
structure Assembly.Begins (settings : Settings) (text rest : Bytes) (part whole : Assembly) :
    Prop where
  ends : text = [] ∨ text.getLast? = some Ascii.newline
  isOf : part.IsOf settings ⟨text, none⟩
  isOf' : whole.IsOf settings ⟨text ++ rest, none⟩

namespace Assembly.Begins

variable {settings : Settings} {text rest : Bytes} {part whole : Assembly}

theorem symbols_prefix (h : Begins settings text rest part whole) :
    part.symbols.entries.toList <+: whole.symbols.entries.toList := by
  rw [symbols, symbols, h.isOf.reads.entries_eq, h.isOf'.reads.entries_eq]
  exact definitionsOf_append settings h.ends rest

/-- What a label stands for, it still stands for. -/
theorem symbols_within (h : Begins settings text rest part whole) :
    part.symbols.Within whole.symbols := by
  intro label target hfound
  obtain ⟨more, hmore⟩ := definitionsOf_append settings h.ends rest
  rw [h.isOf.lookup?_eq, Option.map_eq_some_iff] at hfound
  obtain ⟨entry, hentry, rfl⟩ := hfound
  rw [h.isOf'.lookup?_eq, ← hmore, List.find?_append, hentry]
  rfl

/-- The second pass reads of the whole what it reads of the part, and then instructions of later
lines only. -/
theorem read_append (h : Begins settings text rest part whole) :
    ∃ later, (program settings ⟨text ++ rest, none⟩).takeWhile Located.fits =
        (program settings ⟨text, none⟩).takeWhile Located.fits ++ later ∧
      ∀ l ∈ later, text.count Ascii.newline < l.line := by
  obtain ⟨later, hprogram, hlater⟩ := program_append settings h.ends rest
  rw [hprogram]
  rcases takeWhile_append_cases Located.fits (program settings ⟨text, none⟩) later with
    ⟨-, hcut⟩ | ⟨-, hcut⟩
  · exact ⟨_, hcut, fun l hl => hlater l ((List.takeWhile_prefix _).subset hl)⟩
  · exact ⟨[], by rw [hcut, List.append_nil], nofun⟩

theorem intermediate_prefix (h : Begins settings text rest part whole) :
    part.intermediate <+: whole.intermediate := by
  obtain ⟨later, hprogram, -⟩ := program_append settings h.ends rest
  rw [h.isOf.intermediate_eq, h.isOf'.intermediate_eq, hprogram, List.map_append, List.map_append,
    unlines_append]
  exact List.prefix_append _ _

theorem relocations_prefix (h : Begins settings text rest part whole) :
    part.relocations.entries.toList <+: whole.relocations.entries.toList := by
  obtain ⟨later, hread, -⟩ := h.read_append
  rw [h.isOf.relocations_eq, h.isOf'.relocations_eq, hread, List.zipIdx_append,
    List.filterMap_append]
  simp only [referenceOf_of_more_symbols h.symbols_within]
  exact List.prefix_append _ _

theorem words_sublist (h : Begins settings text rest part whole) :
    part.words.Sublist whole.words := by
  obtain ⟨later, hread, -⟩ := h.read_append
  rw [words, words, Encoding.words, Encoding.words, h.isOf.events_eq, h.isOf'.events_eq, hread,
    List.zipIdx_append, List.map_append, List.filterMap_append, List.filterMap_map]
  refine List.Sublist.trans ?_ (List.sublist_append_left _ _)
  rw [List.filterMap_map]
  exact filterMap_sublist_filterMap fun p _ w hw => word?_of_more_symbols h.symbols_within hw

/-- A word of the whole that comes from the part is a word of the part, or a branch that the part
rejects because its label is not defined. -/
theorem gained (h : Begins settings text rest part whole) {w : PlacedWord}
    (hw : w ∈ whole.words) (hline : w.line ≤ text.count Ascii.newline) (hnew : w ∉ part.words) :
    ∃ i label, RawInstruction.ofTokens? (tokens w.source) = some i ∧ i.BranchesTo label ∧
      ⟨.two, w.line, w.source, .undefinedSymbol label⟩ ∈ part.encoding.faults := by
  obtain ⟨later, hread, hlater⟩ := h.read_append
  obtain ⟨event, hevent, hword⟩ := List.mem_filterMap.mp hw
  rw [h.isOf'.events_eq, hread] at hevent
  obtain ⟨⟨l, n⟩, hmem, rfl⟩ := List.mem_map.mp hevent
  obtain ⟨resolved, hresolve, rfl⟩ := word?_eventOf_eq_some_iff.mp hword
  -- an instruction of the appended text would have a later line
  have hl : ((program settings ⟨text, none⟩).takeWhile Located.fits)[n]? = some l := by
    have hget := List.mem_zipIdx_iff_getElem?.mp hmem
    dsimp only at hget
    by_cases hn : n < ((program settings ⟨text, none⟩).takeWhile Located.fits).length
    · rwa [List.getElem?_append_left hn] at hget
    · rw [List.getElem?_append_right (Nat.not_lt.mp hn)] at hget
      have hlate := hlater l (List.mem_of_getElem? hget)
      dsimp only at hline
      omega
  have hpart := h.isOf.eventOf_mem_events hl
  rcases RawInstruction.resolve_of_more_symbols h.symbols_within with
    hsame | ⟨label, hto, herror⟩
  · rw [hsame] at hresolve
    have hold := word?_eventOf_eq_some_iff.mpr ⟨resolved, hresolve, rfl⟩
    exact absurd (List.mem_filterMap.mpr ⟨_, hpart, hold⟩) hnew
  · have hwell : l.instruction.WellFormed :=
      wellFormed_of_mem_instructionsOf (List.mem_of_getElem? (getElem?_of_takeWhile hl))
    refine ⟨l.instruction, label, hwell.ofTokens?_tokens_render, hto, ?_⟩
    exact List.mem_filterMap.mpr
      ⟨_, hpart, fault?_eventOf_eq_some_iff.mpr ⟨_, herror, rfl⟩⟩

end Assembly.Begins

/-- **Appending never disturbs what was assembled.** Take a text that is empty or ends with a line
feed, and any other text behind it. The assembly of both has the text between the passes, the
symbols and the references of the first as the beginning of its own, and its words in the same
order. Words that the lines of the first text gain are branches that were rejected because their
labels were not defined. -/
theorem appending_extends {settings : Settings} {text rest : Bytes} {part whole : Assembly}
    (hends : text = [] ∨ text.getLast? = some Ascii.newline)
    (hpart : assemble settings ⟨text, none⟩ = .ok part)
    (hwhole : assemble settings ⟨text ++ rest, none⟩ = .ok whole) :
    whole.Extends part (text.count Ascii.newline) := by
  have h : Assembly.Begins settings text rest part whole :=
    ⟨hends, isOf_of_assemble hpart, isOf_of_assemble hwhole⟩
  exact ⟨h.intermediate_prefix, h.symbols_prefix, h.relocations_prefix, h.words_sublist,
    fun w hw hline hnew => h.gained hw hline hnew⟩

/-- A branch, and an instruction with its label. -/
def forwardBranch : Bytes × Bytes :=
  (ascii "beq $0 $0 y\n", ascii "y: jr $ra\n")

theorem words_forwardBranch {part : Assembly}
    (h : assemble {} ⟨forwardBranch.1, none⟩ = .ok part) : part.words = [] := by
  have hof := isOf_of_assemble h
  have hprogram : program {} ⟨forwardBranch.1, none⟩ =
      [⟨1, ⟨Operation.beq.name, [ascii "$0", ascii "$0", ascii "y"]⟩⟩] := by
    decide +kernel
  have hlookup : part.symbols.lookup? (ascii "y") = none := by
    rw [hof.lookup?_eq]
    decide +kernel
  rw [List.eq_nil_iff_forall_not_mem]
  intro w hw
  obtain ⟨n, l, resolved, hl, hresolve, -⟩ := hof.mem_words hw
  rw [hprogram] at hl
  obtain rfl := List.mem_singleton.mp (List.mem_of_getElem? hl)
  obtain ⟨words, hwords⟩ := (RawInstruction.exists_resolve_iff.mp ⟨resolved, hresolve⟩).2
    (ascii "y") ⟨.beq, .inl rfl, rfl, ascii "$0", ascii "$0", rfl⟩
  rw [Site.branchOperand, Option.bind_some, hlookup] at hwords
  cases hwords

theorem appending_extends_branch :
    ∃ part whole, assemble {} ⟨forwardBranch.1, none⟩ = .ok part ∧
      assemble {} ⟨forwardBranch.1 ++ forwardBranch.2, none⟩ = .ok whole ∧
      whole.Extends part 1 ∧ part.words = [] ∧ ∃ w ∈ whole.words, w.line = 1 := by
  obtain ⟨part, hpart⟩ := exists_assemble {} rfl ⟨forwardBranch.1, none⟩
  obtain ⟨whole, hwhole⟩ := exists_assemble {} rfl ⟨forwardBranch.1 ++ forwardBranch.2, none⟩
  refine ⟨part, whole, hpart, hwhole, appending_extends (.inr (by decide)) hpart hwhole,
    words_forwardBranch hpart, ?_⟩
  have hof := isOf_of_assemble hwhole
  have hfit : LinesFit whole.intermediate := by
    rw [hof.linesFit_iff]
    decide +kernel
  have hl : (program {} ⟨forwardBranch.1 ++ forwardBranch.2, none⟩)[0]? =
      some ⟨1, ⟨Operation.beq.name, [ascii "$0", ascii "$0", ascii "y"]⟩⟩ := by
    decide +kernel
  have hlookup : whole.symbols.lookup? (ascii "y") = some 4 := by
    rw [hof.lookup?_eq]
    decide +kernel
  have hwords : Site.branchOperand ⟨Settings.addressOf {} 0, some whole.symbols⟩ (ascii "y") =
      .ok 0 := by
    rw [Site.branchOperand, Option.bind_some, hlookup]
    show displacement 0 4 = .ok 0
    decide
  have hzero : registerOperand (ascii "$0") = .ok 0 := by decide
  obtain ⟨resolved, hresolve⟩ := RawInstruction.exists_resolve_branch (.inl rfl) hzero hzero hwords
  exact ⟨_, hof.mem_words_of_resolve hfit hl hresolve, rfl⟩

end MipsAssembler
