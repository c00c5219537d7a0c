import Mathlib.Data.List.Basic
import MipsAssembler.Proofs.Transparency

/-!
# Programs without faults

When an assembly is free of faults (`Assembly.IsOf.faults_eq_nil_iff`), and what it then consists
of: one word for each instruction of the source, in order and at successive addresses
(`Assembly.IsOf.words_of_no_faults`).
-/

namespace MipsAssembler

/-! ## The image -/

/-- Storing a word leaves the place and the size of an image as they are. -/
theorem Image.offset_of_store {im im' : Image} {address : Address} {w : Word}
    (h : im.store address w = .ok im') (other : Address) : im'.offset other = im.offset other := by
  unfold store at h
  split at h
  · cases h
  · obtain rfl := Except.ok.inj h
    rfl

/-- All words are stored exactly if each of them has a place in the image. -/
theorem Image.storeAll_snd_eq_none_iff {im : Image} {words : List PlacedWord} :
    (im.storeAll words).2 = none ↔ ∀ w ∈ words, ∃ n, im.offset w.address = .ok n := by
  induction words generalizing im with
  | nil => simp [storeAll]
  | cons w words ih =>
    rw [storeAll, List.forall_mem_cons]
    cases hstore : im.store w.address w.value with
    | error e =>
      cases hoffset : im.offset w.address with
      | error e => simp
      | ok n => simp [store, hoffset] at hstore
    | ok im' =>
      cases hoffset : im.offset w.address with
      | error e => simp [store, hoffset] at hstore
      | ok n => simp [ih, offset_of_store hstore]

/-! ## The first pass -/

/-- Where the first pass rejects nothing, no label is defined by an earlier line too. -/
theorem notMem_take_of_no_faults {settings : Settings} {lines : List Bytes}
    (h : firstFaultsOf settings lines = []) {j : Nat} {line label : Bytes}
    (hline : lines[j]? = some line) (hlabel : definedLabel? line = some label) :
    label ∉ (lines.take j).filterMap definedLabel? := by
  intro hmem
  have hcause : Rejection.definition (.duplicate label) ∈
      lineRejections settings.maxArgs (lines.take j) line :=
    mem_lineRejections.mpr (.inl (mem_labelRejections.mpr ⟨label, hlabel, hmem, rfl⟩))
  have hfault := mem_firstFaultsOf.mpr ⟨j, line, _, hline, hcause, rfl⟩
  rw [h] at hfault
  cases hfault

/-- Where the first pass rejects nothing, a label is defined by one line only. -/
theorem eq_of_definesAt {settings : Settings} {source : Source}
    (h : firstFaultsOf settings source.scan.lines = []) {i j : Nat} {label : Bytes}
    (hi : source.DefinesAt i label) (hj : source.DefinesAt j label) : i = j := by
  -- of two lines, the later one would be rejected
  suffices hle : ∀ {i j : Nat}, source.DefinesAt i label → source.DefinesAt j label → ¬ i < j by
    have := hle hi hj
    have := hle hj hi
    omega
  intro i j hi hj hlt
  obtain ⟨line, hline, hlabel⟩ := Option.bind_eq_some_iff.mp hj
  exact notMem_take_of_no_faults h hline hlabel (Source.mem_labels_take.mpr ⟨i, hlt, hi⟩)

/-- The first pass rejects nothing exactly if no label is defined twice and every line expands. -/
theorem firstFaultsOf_eq_nil_iff {settings : Settings} {source : Source} :
    firstFaultsOf settings source.scan.lines = [] ↔
      (∀ i j label, source.DefinesAt i label → source.DefinesAt j label → i = j) ∧
      ∀ line ∈ source.scan.lines, ∃ instructions,
        expandLine settings.maxArgs line = .ok instructions := by
  constructor
  · intro h
    refine ⟨fun i j label hi hj => eq_of_definesAt h hi hj, fun line hline => ?_⟩
    obtain ⟨j, hj⟩ := List.getElem?_of_mem hline
    cases hexpand : expandLine settings.maxArgs line with
    | error cause =>
      have hfault := mem_firstFaultsOf.mpr
        ⟨j, line, cause, hj, mem_lineRejections.mpr (.inr hexpand), rfl⟩
      rw [h] at hfault
      cases hfault
    | ok instructions => exact ⟨instructions, rfl⟩
  · rintro ⟨hunique, hexpand⟩
    rw [List.eq_nil_iff_forall_not_mem]
    intro f hf
    obtain ⟨j, line, cause, hj, hcause, -⟩ := mem_firstFaultsOf.mp hf
    rcases mem_lineRejections.mp hcause with hcause | hcause
    · -- an earlier line would define the same label
      obtain ⟨label, hlabel, hearlier, -⟩ := mem_labelRejections.mp hcause
      obtain ⟨i, hlt, hi⟩ := Source.mem_labels_take.mp hearlier
      have hdefines : source.DefinesAt j label := by
        rw [Source.DefinesAt, hj]
        exact hlabel
      have := hunique i j label hi hdefines
      omega
    · obtain ⟨instructions, hok⟩ := hexpand line (List.mem_of_getElem? hj)
      rw [hok] at hcause
      cases hcause

/-! ## Instructions -/

/-- The instruction with a number can be assembled: its line fits between the passes, its operands
resolve, and there is a place for its word. -/
structure Located.Assembles (settings : Settings) (symbols : SymbolTable) (index : Nat)
    (l : Located) : Prop where
  fits : l.fits
  resolves : ∃ resolved,
    l.instruction.resolve ⟨settings.addressOf index, some symbols⟩ = .ok resolved
  has_place : ∃ n, (Image.ofSettings settings).offset (settings.addressOf index) = .ok n

namespace Assembly.IsOf

variable {settings : Settings} {source : Source} {a : Assembly}

/-- Where each word comes from. -/
theorem mem_words (h : a.IsOf settings source) {w : PlacedWord} (hw : w ∈ a.words) :
    ∃ n l resolved, (program settings source)[n]? = some l ∧
      l.instruction.resolve ⟨settings.addressOf n, some a.symbols⟩ = .ok resolved ∧
      w = ⟨settings.addressOf n, resolved.encode, l.instruction.render, l.line⟩ := by
  obtain ⟨event, hevent, hword⟩ := List.mem_filterMap.mp hw
  rw [h.events_eq] at hevent
  obtain ⟨⟨l, n⟩, hmem, rfl⟩ := List.mem_map.mp hevent
  obtain ⟨resolved, hresolve, rfl⟩ := word?_eventOf_eq_some_iff.mp hword
  have hl := getElem?_of_takeWhile (List.mem_zipIdx_iff_getElem?.mp hmem)
  exact ⟨n, l, resolved, hl, hresolve, rfl⟩

/-- Where each fault of the second pass comes from. -/
theorem mem_encoding_faults (h : a.IsOf settings source) {f : LineFault}
    (hf : f ∈ a.encoding.faults) :
    ∃ n, ∃ l : Located, ∃ cause, (program settings source)[n]? = some l ∧
      l.instruction.resolve ⟨settings.addressOf n, some a.symbols⟩ = .error cause ∧
      f = ⟨.two, l.line, l.instruction.render, cause⟩ := by
  obtain ⟨event, hevent, hfault⟩ := List.mem_filterMap.mp hf
  rw [h.events_eq] at hevent
  obtain ⟨⟨l, n⟩, hmem, rfl⟩ := List.mem_map.mp hevent
  obtain ⟨cause, hcause, rfl⟩ := fault?_eventOf_eq_some_iff.mp hfault
  have hl := getElem?_of_takeWhile (List.mem_zipIdx_iff_getElem?.mp hmem)
  exact ⟨n, l, cause, hl, hcause, rfl⟩

/-- If all lines between the passes fit, the second pass reads every instruction. -/
theorem events_of_linesFit (h : a.IsOf settings source) (hfit : LinesFit a.intermediate) :
    a.encoding.events.toList =
      (program settings source).zipIdx.map fun p => eventOf settings a.symbols p.2 p.1 := by
  rw [h.events_eq, h.takeWhile_fits hfit]

/-- If all lines fit, every instruction that resolves has its word. -/
theorem mem_words_of_resolve (h : a.IsOf settings source) (hfit : LinesFit a.intermediate) {n : Nat}
    {l : Located} (hl : (program settings source)[n]? = some l) {resolved : Instruction}
    (hresolve : l.instruction.resolve ⟨settings.addressOf n, some a.symbols⟩ = .ok resolved) :
    ⟨settings.addressOf n, resolved.encode, l.instruction.render, l.line⟩ ∈ a.words := by
  refine List.mem_filterMap.mpr ⟨eventOf settings a.symbols n l, ?_, ?_⟩
  · rw [h.events_of_linesFit hfit]
    exact List.mem_map.mpr ⟨(l, n), List.mem_zipIdx_iff_getElem?.mpr hl, rfl⟩
  · exact word?_eventOf_eq_some_iff.mpr ⟨resolved, hresolve, rfl⟩

/-- The second pass rejects nothing exactly if every instruction resolves at its address. -/
theorem encoding_faults_eq_nil_iff (h : a.IsOf settings source) (hfit : LinesFit a.intermediate) :
    a.encoding.faults = [] ↔ ∀ n (l : Located), (program settings source)[n]? = some l →
      ∃ resolved,
        l.instruction.resolve ⟨settings.addressOf n, some a.symbols⟩ = .ok resolved := by
  rw [Encoding.faults, h.events_of_linesFit hfit, List.filterMap_map, List.filterMap_eq_nil_iff]
  constructor
  · intro hnone n l hl
    exact fault?_eventOf_eq_none_iff.mp (hnone (l, n) (List.mem_zipIdx_iff_getElem?.mpr hl))
  · intro hall p hp
    exact fault?_eventOf_eq_none_iff.mpr (hall p.2 p.1 (List.mem_zipIdx_iff_getElem?.mp hp))

/-- Where the second pass rejects nothing, there is a word for each instruction, in order. -/
theorem words_of_no_rejections (h : a.IsOf settings source) (hfit : LinesFit a.intermediate)
    (hfaults : a.encoding.faults = []) :
    a.words.map (fun w => (w.address, w.line)) =
      (program settings source).zipIdx.map
        fun p => (settings.addressOf p.2, (p.1.line : Int)) := by
  rw [Encoding.faults, h.events_of_linesFit hfit, List.filterMap_map,
    List.filterMap_eq_nil_iff] at hfaults
  rw [Assembly.words, Encoding.words, h.events_of_linesFit hfit, List.filterMap_map,
    List.map_filterMap, List.filterMap_eq_map_iff_forall_eq_some]
  intro p hp
  exact word?_eventOf_of_fault?_eq_none (hfaults p hp)

/-- Where the second pass rejects nothing, all words are stored exactly if there is a place at the
address of every instruction. -/
theorem imageError_eq_none_iff (h : a.IsOf settings source) (hfit : LinesFit a.intermediate)
    (hfaults : a.encoding.faults = []) :
    a.imageError = none ↔ ∀ n (l : Located), (program settings source)[n]? = some l →
      ∃ k, (Image.ofSettings settings).offset (settings.addressOf n) = .ok k := by
  have hstored : a.imageError = ((Image.ofSettings settings).storeAll a.words).2 :=
    congrArg Prod.snd h.image_eq
  -- storing depends on the addresses only, and these are known
  have haddresses : a.words.map (·.address) =
      (program settings source).zipIdx.map fun p => settings.addressOf p.2 := by
    simpa [Function.comp_def] using
      congrArg (List.map Prod.fst) (h.words_of_no_rejections hfit hfaults)
  rw [hstored, Image.storeAll_snd_eq_none_iff]
  constructor
  · intro hwords n l hl
    have hmem : settings.addressOf n ∈ a.words.map (·.address) := by
      rw [haddresses]
      exact List.mem_map.mpr ⟨(l, n), List.mem_zipIdx_iff_getElem?.mpr hl, rfl⟩
    obtain ⟨w, hw, haddress⟩ := List.mem_map.mp hmem
    rw [← haddress]
    exact hwords w hw
  · intro hall w hw
    have hmem := List.mem_map_of_mem (f := PlacedWord.address) hw
    rw [haddresses] at hmem
    obtain ⟨p, hp, haddress⟩ := List.mem_map.mp hmem
    rw [← haddress]
    exact hall p.2 p.1 (List.mem_zipIdx_iff_getElem?.mp hp)

/-- The faults of an assembly, by where they come from. -/
theorem faults_eq_nil (h : a.IsOf settings source) :
    a.faults = [] ↔
      (source.scan.failure = none ∧ firstFaultsOf settings source.scan.lines = []) ∧
        (LinesFit a.intermediate ∧ a.encoding.faults = []) ∧ a.imageError = none := by
  have hfailure : a.expansion.failure = source.scan.failure := by
    rw [h.expansion_eq]
    rfl
  have hread : a.encoding.failure = none ↔ LinesFit a.intermediate := by
    rw [h.events_eq_encodeAll.2.2]
    by_cases hfit : LinesFit a.intermediate
    · simp [hfit]
    · simp [hfit]
  simp only [Assembly.faults, Expansion.allFaults, Encoding.allFaults, Expansion.readFault?,
    Encoding.readFault?, List.append_eq_nil_iff, List.map_eq_nil_iff, Option.toList_eq_nil_iff,
    Option.map_eq_none_iff, h.reads.faults_eq, hfailure, hread]
  tauto

/-- **An assembly is free of faults** exactly if the source is read to its end, the first pass
rejects no line, and every instruction can be assembled. -/
theorem faults_eq_nil_iff (h : a.IsOf settings source) :
    a.faults = [] ↔
      source.scan.failure = none ∧ firstFaultsOf settings source.scan.lines = [] ∧
        ∀ n (l : Located), (program settings source)[n]? = some l →
          l.Assembles settings a.symbols n := by
  rw [h.faults_eq_nil]
  constructor
  · rintro ⟨⟨hend, hfirst⟩, ⟨hfit, hsecond⟩, himage⟩
    refine ⟨hend, hfirst, fun n l hl => ⟨?_, ?_, ?_⟩⟩
    · exact h.linesFit_iff.mp hfit l (List.mem_of_getElem? hl)
    · exact (h.encoding_faults_eq_nil_iff hfit).mp hsecond n l hl
    · exact (h.imageError_eq_none_iff hfit hsecond).mp himage n l hl
  · rintro ⟨hend, hfirst, hall⟩
    have hfit : LinesFit a.intermediate := by
      rw [h.linesFit_iff]
      intro l hl
      obtain ⟨n, hn⟩ := List.getElem?_of_mem hl
      exact (hall n l hn).fits
    have hsecond : a.encoding.faults = [] :=
      (h.encoding_faults_eq_nil_iff hfit).mpr fun n l hl => (hall n l hl).resolves
    refine ⟨⟨hend, hfirst⟩, ⟨hfit, hsecond⟩, ?_⟩
    exact (h.imageError_eq_none_iff hfit hsecond).mpr fun n l hl => (hall n l hl).has_place

/-- Without faults there is a word for each instruction, in order. -/
theorem words_of_no_faults (h : a.IsOf settings source) (hf : a.faults = []) :
    a.words.map (fun w => (w.address, w.line)) =
      (program settings source).zipIdx.map
        fun p => (settings.addressOf p.2, (p.1.line : Int)) := by
  obtain ⟨-, ⟨hfit, hsecond⟩, -⟩ := h.faults_eq_nil.mp hf
  exact h.words_of_no_rejections hfit hsecond

/-- Without faults there are as many words as instructions. -/
theorem length_words (h : a.IsOf settings source) (hf : a.faults = []) :
    a.words.length = (program settings source).length := by
  simpa using congrArg List.length (h.words_of_no_faults hf)

end Assembly.IsOf

end MipsAssembler
