import MipsAssembler.Assembly
import MipsAssembler.Proofs.SecondPass

/-!
# The text between the passes is transparent

The two passes communicate through a text, which the second cuts into lines and tokens again.
Nothing is lost on the way: the second pass encodes the program of the source text, `program`, up to
the first instruction whose line does not fit the scanner's buffer (`events_eq_encodeAll`). If every
line fits, the words, the relocations and the faults are those of encoding the program directly
(`assembly_eq_encodeAll`).
-/

namespace MipsAssembler

/-- How an assembly is put together from its source. -/
structure Assembly.IsOf (a : Assembly) (settings : Settings) (source : Source) : Prop where
  check_eq : settings.check = .ok ()
  expansion_eq : a.expansion = Expansion.run settings source
  encoding_eq : a.encoding =
    Encoding.run settings ⟨a.expansion.text, none⟩ a.expansion.symbols a.expansion.origins
  image_eq : (a.image, a.imageError) = (Image.ofSettings settings).storeAll a.words

/-- The instructions of a source text, as the first pass takes them, with their source lines. -/
def program (settings : Settings) (source : Source) : List Located :=
  instructionsOf settings.maxArgs source.scan.lines

/-- The line with an index, counted from zero, defines a label. -/
def Source.DefinesAt (source : Source) (j : Nat) (label : Bytes) : Prop :=
  source.scan.lines[j]?.bind definedLabel? = some label

/-- The labels of the lines before an index are those that some earlier line defines. -/
theorem Source.mem_labels_take {source : Source} {j : Nat} {label : Bytes} :
    label ∈ (source.scan.lines.take j).filterMap definedLabel? ↔
      ∃ i < j, source.DefinesAt i label := by
  rw [List.mem_filterMap]
  constructor
  · rintro ⟨line, hline, hlabel⟩
    obtain ⟨i, hi, rfl⟩ := List.mem_take_iff_getElem.mp hline
    refine ⟨i, by omega, ?_⟩
    rw [DefinesAt, List.getElem?_eq_getElem (by omega)]
    exact hlabel
  · rintro ⟨i, hi, hdefines⟩
    obtain ⟨line, hline, hlabel⟩ := Option.bind_eq_some_iff.mp hdefines
    obtain ⟨hlen, rfl⟩ := List.getElem?_eq_some_iff.mp hline
    exact ⟨_, List.mem_take_iff_getElem.mpr ⟨i, by omega, rfl⟩, hlabel⟩

/-- The line of an instruction fits the scanner's buffer. -/
def Located.fits (l : Located) : Bool :=
  l.instruction.render.length ≤ maxLineLength

theorem isOf_of_assemble {settings : Settings} {source : Source} {a : Assembly}
    (h : assemble settings source = .ok a) : a.IsOf settings source := by
  unfold assemble at h
  cases hcheck : settings.check with
  | error e =>
    rw [hcheck] at h
    cases h
  | ok u =>
    simp only [hcheck, bind, Except.bind, pure, Except.pure, Except.ok.injEq] at h
    subst h
    refine ⟨hcheck, rfl, rfl, ?_⟩
    dsimp only [Assembly.words]

/-- With settings that pass the check there always is an assembly, with or without faults. -/
theorem exists_assemble (settings : Settings) (h : settings.check = .ok ()) (source : Source) :
    ∃ a, assemble settings source = .ok a := by
  rw [assemble, h]
  exact ⟨_, rfl⟩

/-- Settings that pass the check have an aligned text base. -/
theorem Settings.aligned_of_check {settings : Settings} (h : settings.check = .ok ()) :
    settings.textBase.toNat % 4 = 0 := by
  by_contra hne
  rw [check, if_pos hne] at h
  cases h

/-- What the second pass reads keeps its number. -/
theorem getElem?_of_takeWhile {program : List Located} {n : Nat} {l : Located}
    (h : (program.takeWhile Located.fits)[n]? = some l) : program[n]? = some l := by
  obtain ⟨rest, hrest⟩ := List.takeWhile_prefix (l := program) Located.fits
  rw [← hrest, List.getElem?_append_left (List.getElem?_eq_some_iff.mp h).1, h]

namespace Assembly.IsOf

variable {settings : Settings} {source : Source} {a : Assembly}

/-- The first pass has produced what the lines of the source contribute. -/
theorem reads (h : a.IsOf settings source) :
    Expansion.Reads settings source.scan.lines a.expansion := by
  rw [h.expansion_eq]
  exact Expansion.reads_run (Settings.aligned_of_check h.check_eq) source

/-- A label is looked up among the definitions of the source. -/
theorem lookup?_eq (h : a.IsOf settings source) (name : Bytes) :
    a.symbols.lookup? name =
      ((definitionsOf settings source.scan.lines).find? (·.name == name)).map (·.address) := by
  rw [← h.reads.entries_eq]
  exact h.reads.indexed.lookup?_eq name

theorem intermediate_eq (h : a.IsOf settings source) :
    a.intermediate =
      unlines (((program settings source).map Located.instruction).map RawInstruction.render) := by
  rw [List.map_map]
  exact h.reads.text_eq

theorem wellFormed (_ : a.IsOf settings source) :
    ∀ i ∈ (program settings source).map Located.instruction, i.WellFormed := by
  intro i hi
  obtain ⟨l, hl, rfl⟩ := List.mem_map.mp hi
  exact wellFormed_of_mem_instructionsOf hl

/-- The lines between the passes fit exactly if those of all instructions do. -/
theorem linesFit_iff (h : a.IsOf settings source) :
    LinesFit a.intermediate ↔ ∀ l ∈ program settings source, l.fits := by
  rw [h.intermediate_eq, linesFit_unlines (newline_notMem_of_mem_render h.wellFormed)]
  simp [Located.fits]

/-- If all lines fit, the second pass reads the whole program. -/
theorem takeWhile_fits (h : a.IsOf settings source) (hfit : LinesFit a.intermediate) :
    (program settings source).takeWhile Located.fits = program settings source :=
  List.takeWhile_eq_self_iff.mpr (h.linesFit_iff.mp hfit)

/-- The second pass reads the instructions up to the first whose line does not fit. -/
theorem scan_intermediate (h : a.IsOf settings source) :
    (Source.mk a.intermediate none).scan =
      ⟨((program settings source).takeWhile Located.fits).map (·.instruction.render),
        if LinesFit a.intermediate then none else some .tooLong⟩ := by
  by_cases hfit : LinesFit a.intermediate
  · rw [if_pos hfit, h.takeWhile_fits hfit, h.intermediate_eq, scan_unlines_render h.wellFormed]
    · rw [List.map_map]
      rfl
    · simpa [Located.fits] using h.linesFit_iff.mp hfit
  · have hlong : ¬ ∀ l ∈ program settings source, l.fits := mt h.linesFit_iff.mpr hfit
    rw [if_neg hfit, h.intermediate_eq, scan_unlines_render_of_long h.wellFormed]
    · rw [List.map_map, List.takeWhile_map]
      rfl
    · simpa [Located.fits] using hlong

theorem origins_eq (h : a.IsOf settings source) :
    a.expansion.origins.toList = (program settings source).map fun l => (l.line : Int) :=
  h.reads.origins_eq

/-- **The second pass encodes the program of the source**, up to the first instruction whose line
does not fit. -/
theorem events_eq_encodeAll (h : a.IsOf settings source) :
    let direct := encodeAll settings a.symbols 0 .relocations
      ((program settings source).takeWhile Located.fits)
    a.encoding.events.toList = direct.1 ∧ a.relocations = direct.2 ∧
      a.encoding.failure = if LinesFit a.intermediate then none else some .tooLong := by
  -- the line of an instruction is found by its number, in the list that the first pass has made
  have horigins : ∀ n l, ((program settings source).takeWhile Located.fits)[n]? = some l →
      a.expansion.origins[0 + n]? = some ↑l.line := by
    intro n l hn
    rw [Nat.zero_add, ← Array.getElem?_toList, h.origins_eq, List.getElem?_map,
      getElem?_of_takeWhile hn]
    rfl
  have hrun := Encoding.foldl_step_render settings a.symbols
    (fun l hl => wellFormed_of_mem_instructionsOf ((List.takeWhile_prefix _).subset hl))
    (e := { next := settings.textBase, relocations := .relocations, sink := none }) rfl
    (by simp [Settings.addressOf]) horigins
  rw [Assembly.relocations, h.encoding_eq, Encoding.run]
  have hscan : (Source.mk a.expansion.text none).scan = _ := h.scan_intermediate
  rw [hscan]
  exact ⟨hrun.1, hrun.2, rfl⟩

/-- What the second pass did, one instruction by one. -/
theorem events_eq (h : a.IsOf settings source) :
    a.encoding.events.toList =
      ((program settings source).takeWhile Located.fits).zipIdx.map
        fun p => eventOf settings a.symbols p.2 p.1 := by
  rw [h.events_eq_encodeAll.1]
  exact encodeAll_fst (Settings.aligned_of_check h.check_eq) a.symbols rfl _

/-- The references are those of the instructions that the second pass reads. -/
theorem relocations_eq (h : a.IsOf settings source) :
    a.relocations.entries.toList =
      ((program settings source).takeWhile Located.fits).zipIdx.filterMap
        fun p => referenceOf settings a.symbols p.2 p.1 := by
  rw [h.events_eq_encodeAll.2.1]
  exact encodeAll_snd (Settings.aligned_of_check h.check_eq) a.symbols rfl _

end Assembly.IsOf

/-- **The text between the passes is transparent.** If all its lines fit, the words, the relocations
and the faults of the second pass are those of encoding the instructions of the source one after
another, at successive addresses and with all symbols known; and nothing is left unread. -/
theorem assembly_eq_encodeAll {settings : Settings} {source : Source} {a : Assembly}
    (h : assemble settings source = .ok a) (hfit : LinesFit a.intermediate) :
    let direct := encodeAll settings a.symbols 0 .relocations (program settings source)
    a.words = direct.1.filterMap Event.word? ∧ a.relocations = direct.2 ∧
      a.encoding.faults = direct.1.filterMap Event.fault? ∧ a.encoding.readFault? = none := by
  have hof := isOf_of_assemble h
  obtain ⟨hevents, hrelocations, hfailure⟩ := hof.events_eq_encodeAll
  rw [hof.takeWhile_fits hfit] at hevents hrelocations
  rw [if_pos hfit] at hfailure
  refine ⟨?_, hrelocations, ?_, ?_⟩
  · rw [Assembly.words, Encoding.words, hevents]
  · rw [Encoding.faults, hevents]
  · rw [Encoding.readFault?, hfailure]
    rfl

/-- A branch forward over a pseudo-instruction, and one back. -/
def loopSource : Source :=
  ⟨ascii "x: beq $0 $0 y\nneg $t0 $t1\ny: bne $0 $t0 x\n", none⟩

theorem assembly_eq_encodeAll_loop :
    ∃ a, assemble {} loopSource = .ok a ∧ LinesFit a.intermediate ∧
      a.words = (encodeAll {} a.symbols 0 .relocations
        (program {} loopSource)).1.filterMap Event.word? := by
  obtain ⟨a, ha⟩ := exists_assemble {} rfl loopSource
  have hfit : LinesFit a.intermediate := by
    rw [(isOf_of_assemble ha).linesFit_iff]
    decide +kernel
  exact ⟨a, ha, hfit, (assembly_eq_encodeAll ha hfit).1⟩

end MipsAssembler
