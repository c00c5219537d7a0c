import MipsAssembler.Proofs.Faultless

/-!
# Every instruction is accounted for

The assembler is to report every bad line in one run, so the second pass has to come to an end with
each instruction that the first has accepted: it has a word, or a fault with the number of its
source line.

- `Assembly.Accounts` says so, and `BadLine` says which lines are bad.
- `accounts_iff_linesFit`: this holds exactly if all lines between the passes fit the scanner's
  buffer. At the first that does not, the second pass stops.
- `instructions_lost_negation`: the lines of the source may all fit, and yet not those between the
  passes, since the expansion of a pseudo-instruction can be longer than its line.
-/

namespace MipsAssembler

/-- The source line of an instruction that has come to an end in the second pass: as a word, or as a
fault of that pass. -/
def Event.outcomeLine? : Event → Option Int
  | .emitted word => some word.line
  | .rejected fault => if fault.pass = .two then some fault.line else none
  | .labelled .. => none

/-- The number of a source line with something wrong, where the labels stand for `symbols`. -/
inductive BadLine (settings : Settings) (source : Source) (symbols : SymbolTable) : Nat → Prop
  /-- It cannot be read as a statement, or its instruction cannot be expanded. -/
  | refused {j : Nat} {line : Bytes} {cause : Rejection}
      (hline : source.scan.lines[j]? = some line)
      (hcause : expandLine settings.maxArgs line = .error cause) :
      BadLine settings source symbols (j + 1)
  /-- An earlier line defines its label. -/
  | redefined {i j : Nat} {label : Bytes} (hlt : i < j) (hi : source.DefinesAt i label)
      (hj : source.DefinesAt j label) : BadLine settings source symbols (j + 1)
  /-- An instruction of it has no encoding at its address. -/
  | unencodable {n : Nat} {l : Located} {cause : Rejection}
      (hl : (program settings source)[n]? = some l)
      (hcause : l.instruction.resolve ⟨settings.addressOf n, some symbols⟩ = .error cause) :
      BadLine settings source symbols l.line

/-- Every instruction that the first pass accepted is accounted for. -/
structure Assembly.Accounts (a : Assembly) (settings : Settings) (source : Source) : Prop where
  /-- Each instruction has one outcome, which carries its source line. -/
  outcomes : a.encoding.events.toList.map Event.outcomeLine? = a.expansion.origins.toList.map some
  /-- Words and faults together are as many as instructions. -/
  count : a.words.length + a.encoding.faults.length = a.expansion.origins.size
  /-- The faults name the bad lines, and no others. -/
  named : ∀ k : Nat, BadLine settings source a.symbols k ↔
    ∃ f ∈ a.expansion.faults ++ a.encoding.faults, f.line = k

/-! ## Outcomes -/

/-- An instruction comes to one end, with its own line. -/
theorem outcomeLine?_eventOf (settings : Settings) (symbols : SymbolTable) (index : Nat)
    (l : Located) : (eventOf settings symbols index l).outcomeLine? = some (l.line : Int) := by
  unfold eventOf
  split
  · rfl
  · rfl

/-- Events that are outcomes are words and faults, each of them one. -/
theorem length_words_add_faults {events : List Event} (h : ∀ e ∈ events, e.outcomeLine?.isSome) :
    (events.filterMap Event.word?).length + (events.filterMap Event.fault?).length =
      events.length := by
  induction events with
  | nil => rfl
  | cons e events ih =>
    have hrest := ih fun e' he' => h e' (List.mem_cons_of_mem _ he')
    have he := h e List.mem_cons_self
    cases e with
    | emitted word =>
      simp only [List.filterMap_cons, Event.word?, Event.fault?, List.length_cons]
      omega
    | rejected fault =>
      simp only [List.filterMap_cons, Event.word?, Event.fault?, List.length_cons]
      omega
    | labelled name address => cases he

namespace Assembly.IsOf

variable {settings : Settings} {source : Source} {a : Assembly}

/-- The outcomes are those of the instructions whose lines the second pass reads. -/
theorem outcomes_eq (h : a.IsOf settings source) :
    a.encoding.events.toList.map Event.outcomeLine? =
      ((program settings source).takeWhile Located.fits).map fun l => some (l.line : Int) := by
  rw [h.events_eq, List.map_map]
  have hline : ∀ p : Located × Nat,
      (Event.outcomeLine? ∘ fun p => eventOf settings a.symbols p.2 p.1) p =
        ((fun l : Located => some (l.line : Int)) ∘ Prod.fst) p :=
    fun p => outcomeLine?_eventOf ..
  rw [List.map_congr_left fun p _ => hline p, ← List.map_map, List.zipIdx_map_fst]

/-- Words and faults are as many as the instructions whose lines the second pass reads. -/
theorem length_outcomes (h : a.IsOf settings source) :
    a.words.length + a.encoding.faults.length =
      ((program settings source).takeWhile Located.fits).length := by
  have hlength : a.encoding.events.toList.length =
      ((program settings source).takeWhile Located.fits).length := by
    simpa using congrArg List.length h.outcomes_eq
  rw [← hlength]
  refine length_words_add_faults fun e he => ?_
  have hmem := List.mem_map_of_mem (f := Event.outcomeLine?) he
  rw [h.outcomes_eq] at hmem
  obtain ⟨l, -, hl⟩ := List.mem_map.mp hmem
  rw [← hl]
  rfl

theorem size_origins (h : a.IsOf settings source) :
    a.expansion.origins.size = (program settings source).length := by
  rw [← Array.length_toList, h.origins_eq, List.length_map]

/-! ## Bad lines -/

/-- The second pass rejects the instructions that do not resolve, if it reads them all. -/
theorem mem_encoding_faults_iff (h : a.IsOf settings source) (hfit : LinesFit a.intermediate)
    {f : LineFault} :
    f ∈ a.encoding.faults ↔ ∃ n, ∃ l : Located, ∃ cause, (program settings source)[n]? = some l ∧
      l.instruction.resolve ⟨settings.addressOf n, some a.symbols⟩ = .error cause ∧
        f = ⟨.two, l.line, l.instruction.render, cause⟩ := by
  constructor
  · exact h.mem_encoding_faults
  · rintro ⟨n, l, cause, hl, hcause, rfl⟩
    have hmem : (l, n) ∈ (program settings source).zipIdx := List.mem_zipIdx_iff_getElem?.mpr hl
    rw [Encoding.faults, h.events_of_linesFit hfit, List.filterMap_map, List.mem_filterMap]
    exact ⟨(l, n), hmem, fault?_eventOf_eq_some_iff.mpr ⟨cause, hcause, rfl⟩⟩

/-- What the first pass rejects about a line is a fault that names it. -/
theorem exists_fault_of_rejection (h : a.IsOf settings source) {j : Nat} {line : Bytes}
    {cause : Rejection} (hline : source.scan.lines[j]? = some line)
    (hcause : cause ∈ lineRejections settings.maxArgs (source.scan.lines.take j) line) :
    ∃ f ∈ a.expansion.faults ++ a.encoding.faults, f.line = (j + 1 : Nat) := by
  have hmem := mem_firstFaultsOf.mpr ⟨j, line, cause, hline, hcause, rfl⟩
  rw [← h.reads.faults_eq] at hmem
  exact ⟨_, List.mem_append_left _ hmem, rfl⟩

/-- A bad line is named by a fault of one of the passes, if the second reads every instruction. -/
theorem exists_fault_of_badLine (h : a.IsOf settings source) (hfit : LinesFit a.intermediate)
    {k : Nat} (hbad : BadLine settings source a.symbols k) :
    ∃ f ∈ a.expansion.faults ++ a.encoding.faults, f.line = k := by
  -- the first two are faults of the first pass, the last is one of the second
  cases hbad with
  | refused hline hcause =>
    exact h.exists_fault_of_rejection hline (mem_lineRejections.mpr (.inr hcause))
  | redefined hlt hi hj =>
    obtain ⟨line, hline, hlabel⟩ := Option.bind_eq_some_iff.mp hj
    have hmem := Source.mem_labels_take.mpr ⟨_, hlt, hi⟩
    have hcause := mem_labelRejections.mpr ⟨_, hlabel, hmem, rfl⟩
    exact h.exists_fault_of_rejection hline (mem_lineRejections.mpr (.inl hcause))
  | unencodable hl hcause =>
    have hmem := (h.mem_encoding_faults_iff hfit).mpr ⟨_, _, _, hl, hcause, rfl⟩
    exact ⟨_, List.mem_append_right _ hmem, rfl⟩

/-- The line that a fault names is bad. -/
theorem badLine_of_fault (h : a.IsOf settings source) (hfit : LinesFit a.intermediate) {k : Nat}
    {f : LineFault} (hf : f ∈ a.expansion.faults ++ a.encoding.faults) (hk : f.line = k) :
    BadLine settings source a.symbols k := by
  rcases List.mem_append.mp hf with hf | hf
  · rw [h.reads.faults_eq] at hf
    obtain ⟨j, line, cause, hline, hcause, rfl⟩ := mem_firstFaultsOf.mp hf
    obtain rfl : j + 1 = k := Int.ofNat.inj hk
    rcases mem_lineRejections.mp hcause with hcause | hcause
    · obtain ⟨label, hlabel, hmem, -⟩ := mem_labelRejections.mp hcause
      obtain ⟨i, hlt, hi⟩ := Source.mem_labels_take.mp hmem
      refine .redefined hlt hi ?_
      rw [Source.DefinesAt, hline]
      exact hlabel
    · exact .refused hline hcause
  · obtain ⟨n, l, cause, hl, hcause, rfl⟩ := (h.mem_encoding_faults_iff hfit).mp hf
    obtain rfl : l.line = k := Int.ofNat.inj hk
    exact .unencodable hl hcause

/-- If all lines fit, every instruction is accounted for. -/
theorem accounts_of_linesFit (h : a.IsOf settings source) (hfit : LinesFit a.intermediate) :
    a.Accounts settings source := by
  have hall := h.takeWhile_fits hfit
  constructor
  · rw [h.outcomes_eq, hall, h.origins_eq, List.map_map]
    rfl
  · rw [h.length_outcomes, hall, h.size_origins]
  · intro k
    constructor
    · intro hbad
      exact h.exists_fault_of_badLine hfit hbad
    · rintro ⟨f, hf, hk⟩
      exact h.badLine_of_fault hfit hf hk

/-- If some line does not fit, the outcomes end before the first instruction with such a line. -/
theorem outcomes_of_not_linesFit (h : a.IsOf settings source) (hlong : ¬ LinesFit a.intermediate) :
    ∃ n, ∃ l : Located, (program settings source)[n]? = some l ∧
      maxLineLength < l.instruction.render.length ∧
      a.encoding.events.toList.map Event.outcomeLine? =
        (a.expansion.origins.toList.take n).map some := by
  have hne : (program settings source).dropWhile Located.fits ≠ [] := by
    intro hnil
    exact hlong (h.linesFit_iff.mpr (List.dropWhile_eq_nil_iff.mp hnil))
  -- what is left over begins with the instruction that does not fit
  obtain ⟨l, rest, hrest⟩ := List.exists_cons_of_ne_nil hne
  obtain ⟨front, hfront⟩ : ∃ front, (program settings source).takeWhile Located.fits = front :=
    ⟨_, rfl⟩
  have hsplit : front ++ l :: rest = program settings source := by
    rw [← hfront, ← hrest, List.takeWhile_append_dropWhile]
  have hl : l.fits = false := by
    simpa [hrest] using List.head_dropWhile_not Located.fits hne
  refine ⟨front.length, l, ?_, ?_, ?_⟩
  · rw [← hsplit]
    simp
  · simpa [Located.fits] using hl
  · rw [h.outcomes_eq, hfront, h.origins_eq, ← hsplit]
    simp

end Assembly.IsOf

/-- **Every instruction is accounted for exactly if all lines between the passes fit.** If one does
not, the second pass fails to read on, and the outcomes end before an instruction whose line is too
long. -/
theorem accounts_iff_linesFit {settings : Settings} {source : Source} {a : Assembly}
    (h : assemble settings source = .ok a) :
    (a.Accounts settings source ↔ LinesFit a.intermediate) ∧
      (¬ LinesFit a.intermediate → a.encoding.readFault? = some ⟨.two, .tooLong⟩ ∧
        ∃ n, ∃ l : Located, (program settings source)[n]? = some l ∧
          maxLineLength < l.instruction.render.length ∧
          a.encoding.events.toList.map Event.outcomeLine? =
            (a.expansion.origins.toList.take n).map some) := by
  have hof := isOf_of_assemble h
  refine ⟨⟨fun haccounts => ?_, hof.accounts_of_linesFit⟩, fun hlong => ⟨?_, ?_⟩⟩
  · -- without an outcome for each instruction the counts differ
    by_contra hlong
    obtain ⟨n, l, hl, -, houtcomes⟩ := hof.outcomes_of_not_linesFit hlong
    have hn := (List.getElem?_eq_some_iff.mp hl).1
    have hlength := congrArg List.length (haccounts.outcomes.symm.trans houtcomes)
    simp only [List.length_map, List.length_take, Array.length_toList, hof.size_origins] at hlength
    omega
  · rw [Encoding.readFault?, hof.events_eq_encodeAll.2.2, if_neg hlong]
    rfl
  · exact hof.outcomes_of_not_linesFit hlong

theorem accounts_iff_linesFit_loop :
    ∃ a, assemble {} loopSource = .ok a ∧ a.Accounts {} loopSource := by
  obtain ⟨a, ha⟩ := exists_assemble {} rfl loopSource
  have hfit : LinesFit a.intermediate := by
    rw [(isOf_of_assemble ha).linesFit_iff]
    decide +kernel
  exact ⟨a, ha, (accounts_iff_linesFit ha).1.mpr hfit⟩

/-! ## An expansion that is too long -/

/-- A negation, whose expansion is seven bytes longer. -/
def negation (operand : Bytes) : RawInstruction :=
  ⟨ascii "neg", [ascii "$t0", operand]⟩

/-- A negation, and a line that is no instruction. -/
def negationSource (operand : Bytes) : Source :=
  ⟨unlines ([negation operand, ⟨ascii "bad", []⟩].map RawInstruction.render), none⟩

section Negation

variable {operand : Bytes}

theorem wellFormed_negation (h : IsToken operand) : (negation operand).WellFormed := by
  intro token htoken
  simp only [negation, List.mem_cons, List.not_mem_nil, or_false] at htoken
  rcases htoken with rfl | rfl | rfl
  · exact ⟨by decide, List.all_eq_true.mp (by decide)⟩
  · exact ⟨by decide, List.all_eq_true.mp (by decide)⟩
  · exact h

theorem wellFormed_of_mem_negationSource (h : IsToken operand) :
    ∀ i ∈ [negation operand, ⟨ascii "bad", []⟩], i.WellFormed := by
  intro i hi
  simp only [List.mem_cons, List.not_mem_nil, or_false] at hi
  rcases hi with rfl | rfl
  · exact wellFormed_negation h
  · intro token htoken
    obtain rfl : token = ascii "bad" := by simpa using htoken
    exact ⟨by decide, List.all_eq_true.mp (by decide)⟩

/-- The lines of the source fit. -/
theorem length_le_of_mem_negationSource (hfit : operand.length ≤ 65527) :
    ∀ line ∈ [negation operand, ⟨ascii "bad", []⟩].map RawInstruction.render,
      line.length ≤ maxLineLength := by
  intro line hline
  simp only [List.map_cons, List.map_nil, List.mem_cons, List.not_mem_nil, or_false] at hline
  rcases hline with rfl | rfl
  · have hlength : (negation operand).render.length = 8 + operand.length := by
      simp [negation, RawInstruction.render, spaced_cons, ascii]
      omega
    rw [hlength, maxLineLength]
    omega
  · decide

theorem scan_negationSource (h : IsToken operand) (hfit : operand.length ≤ 65527) :
    (negationSource operand).scan = ⟨[(negation operand).render, ascii "bad"], none⟩ :=
  scan_unlines_render (wellFormed_of_mem_negationSource h) (length_le_of_mem_negationSource hfit)

theorem parse_negation (h : IsToken operand) :
    Statement.parse (negation operand).render = .ok { instruction := some (negation operand) } := by
  refine (wellFormed_negation h).parse_render_of_no_colon ?_
  show Ascii.colon ∉ ascii "neg"
  decide

theorem program_negationSource (h : IsToken operand) (hfit : operand.length ≤ 65527) :
    program {} (negationSource operand) =
      [⟨1, ⟨ascii "subu", [ascii "$t0", ascii "$zero", operand]⟩⟩, ⟨2, ⟨ascii "bad", []⟩⟩] := by
  rw [program, scan_negationSource h hfit]
  simp only [instructionsOf, contributions, locatedAt, lineInstructions, expandLine,
    parse_negation h]
  rfl

/-- The first pass finds nothing wrong. -/
theorem firstFaultsOf_negationSource (h : IsToken operand) (hfit : operand.length ≤ 65527) :
    firstFaultsOf {} (negationSource operand).scan.lines = [] := by
  rw [scan_negationSource h hfit]
  simp only [firstFaultsOf, contributions, firstFaultsAt, lineRejections, labelRejections,
    definedLabel?, expandLine, parse_negation h]
  rfl

/-- Both instructions are lost if the operand is so long that only the negation fits, and not its
expansion. -/
theorem events_negationSource (h : IsToken operand) (hfit : operand.length ≤ 65527)
    (hlong : 65520 < operand.length) {a : Assembly}
    (ha : assemble {} (negationSource operand) = .ok a) : a.encoding.events.toList = [] := by
  have hlength : (RawInstruction.render
      ⟨ascii "subu", [ascii "$t0", ascii "$zero", operand]⟩).length = 15 + operand.length := by
    simp [RawInstruction.render, spaced_cons, ascii]
    omega
  have hstop : (program {} (negationSource operand)).takeWhile Located.fits = [] := by
    rw [program_negationSource h hfit, List.takeWhile_cons_of_neg]
    simp only [Located.fits, hlength, maxLineLength, decide_eq_true_eq]
    omega
  rw [(isOf_of_assemble ha).events_eq, hstop]
  rfl

end Negation

/-- With an operand of this length the negation fits and its expansion does not. Both instructions
are lost, though the second line is bad. -/
theorem lost_negationSource {operand : Bytes} (h : IsToken operand)
    (hlength : operand.length = 65527) :
    LinesFit (negationSource operand).text ∧ (negationSource operand).failure = none ∧
      ∃ a, assemble {} (negationSource operand) = .ok a ∧
        a.expansion.origins.toList = [1, 2] ∧ a.words = [] ∧ a.expansion.faults = [] ∧
        a.encoding.faults = [] ∧ BadLine {} (negationSource operand) a.symbols 2 := by
  have hfit : operand.length ≤ 65527 := Nat.le_of_eq hlength
  obtain ⟨a, ha⟩ := exists_assemble {} rfl (negationSource operand)
  have hof := isOf_of_assemble ha
  have hevents := events_negationSource h hfit (by omega) ha
  have hprogram := program_negationSource h hfit
  refine ⟨?_, rfl, a, ha, ?_, ?_, ?_, ?_, ?_⟩
  · have hnewline := newline_notMem_of_mem_render (wellFormed_of_mem_negationSource h)
    exact (linesFit_unlines hnewline).mpr (length_le_of_mem_negationSource hfit)
  · rw [hof.origins_eq, hprogram]
    rfl
  · rw [Assembly.words, Encoding.words, hevents]
    rfl
  · rw [hof.reads.faults_eq, firstFaultsOf_negationSource h hfit]
  · rw [Encoding.faults, hevents]
    rfl
  · have hl : (program {} (negationSource operand))[1]? = some ⟨2, ⟨ascii "bad", []⟩⟩ := by
      rw [hprogram]
      rfl
    exact .unencodable hl rfl

theorem isToken_replicate {b : UInt8} (h : isTokenByte b) (n : Nat) :
    IsToken (List.replicate (n + 1) b) := by
  refine ⟨by simp [List.replicate_succ], fun c hc => ?_⟩
  obtain rfl := List.eq_of_mem_replicate hc
  exact h

/-- A source whose lines all fit, and whose instructions are lost all the same: neither has a word
or a fault, though the second line is bad. -/
theorem instructions_lost_negation :
    let source := negationSource (List.replicate 65527 0x61)
    LinesFit source.text ∧ source.failure = none ∧
      ∃ a, assemble {} source = .ok a ∧ a.expansion.origins.toList = [1, 2] ∧ a.words = [] ∧
        a.expansion.faults = [] ∧ a.encoding.faults = [] ∧ BadLine {} source a.symbols 2 :=
  lost_negationSource (isToken_replicate (by decide) 65526) List.length_replicate

end MipsAssembler
