import MipsAssembler.Proofs.Expansions
import MipsAssembler.Proofs.Faultless

/-!
# References are exactly the jumps

Jumps leave their labels to the linker, which finds them in the relocation table. The table is
filled while words are emitted, and has to stay in step with them whatever else goes wrong.

- `reference_eventOf`: an instruction leaves a reference exactly if its word is that of a jump.
- `relocations_eq_jumps`: so the table lists the jumps among the words, in order. A line that is
  rejected adds nothing to it, unless only its label is at fault.
- `jump_recorded_duplicate_label`: a line whose label is taken is rejected, and yet its jump is
  assembled and recorded.
-/

namespace MipsAssembler

/-- An instruction that leaves its label to the linker, by its name. -/
def RawInstruction.isJump (i : RawInstruction) : Bool :=
  i.name == Operation.j.name || i.name == Operation.jal.name

namespace PlacedWord

/-- The instruction that the source of a word shows. -/
def instruction? (w : PlacedWord) : Option RawInstruction :=
  RawInstruction.ofTokens? (tokens w.source)

/-- The word comes from a `j` or a `jal`. -/
def isJump (w : PlacedWord) : Bool :=
  w.instruction?.any RawInstruction.isJump

/-- The first operand of a word's instruction, with the address of the word. -/
def reference (w : PlacedWord) : Entry :=
  ⟨(w.instruction?.bind (·.args.head?)).getD [], w.address⟩

end PlacedWord

/-! ## One instruction -/

theorem RawInstruction.exists_of_isJump {i : RawInstruction} (h : i.isJump) :
    ∃ op : Operation, (op = .j ∨ op = .jal) ∧ i.name = op.name := by
  rw [isJump, Bool.or_eq_true, beq_iff_eq, beq_iff_eq] at h
  rcases h with hj | hjal
  · exact ⟨.j, .inl rfl, hj⟩
  · exact ⟨.jal, .inr rfl, hjal⟩

/-- Among instructions that resolve, the jumps are those of the family. -/
theorem RawInstruction.isJump_iff_of_resolve {i : RawInstruction} {site : Site}
    {resolved : Instruction} (h : i.resolve site = .ok resolved) :
    i.isJump ↔ resolved.operation.family = .jump := by
  have hname : i.name = resolved.operation.name :=
    Operation.ofName?_eq_some_iff.mp (resolve_eq_ok_iff.mp h).1
  rw [Operation.family_eq_jump_iff]
  constructor
  · intro hjump
    obtain ⟨op, hop, hsame⟩ := exists_of_isJump hjump
    rwa [Operation.eq_of_name_eq (hname.symm.trans hsame)]
  · intro hop
    rw [isJump, hname, Bool.or_eq_true, beq_iff_eq, beq_iff_eq]
    rcases hop with hop | hop
    · exact .inl (by rw [hop])
    · exact .inr (by rw [hop])

section Event

variable {settings : Settings} {symbols : SymbolTable} {index : Nat} {l : Located}

/-- The source of a word shows the instruction it was encoded from. -/
theorem instruction?_of_render (h : l.instruction.WellFormed) (address : Address) (w : Word) :
    PlacedWord.instruction? ⟨address, w, l.instruction.render, l.line⟩ = some l.instruction :=
  h.ofTokens?_tokens_render

/-- An instruction leaves a reference exactly if its word is that of a jump. -/
theorem reference_eventOf (h : l.instruction.WellFormed) :
    ((eventOf settings symbols index l).word?.filter PlacedWord.isJump).map PlacedWord.reference =
      referenceOf settings symbols index l := by
  rw [eventOf, referenceOf]
  cases hresolve : l.instruction.resolve ⟨settings.addressOf index, some symbols⟩ with
  | error cause => rfl
  | ok resolved =>
    have hsource := instruction?_of_render h (settings.addressOf index) resolved.encode
    have hiff := RawInstruction.isJump_iff_of_resolve hresolve
    dsimp only [Event.word?]
    rw [RawInstruction.reference?]
    by_cases hjump : resolved.operation.family = .jump
    · -- a jump has an operand, which is what the table records
      obtain ⟨label, hargs, -, -⟩ := RawInstruction.args_of_resolve_jump hresolve hjump
      simp [Option.filter, PlacedWord.isJump, PlacedWord.reference, hsource, hiff.mpr hjump, hjump,
        hargs]
    · simp [Option.filter, PlacedWord.isJump, hsource, mt hiff.mp hjump, hjump]

end Event

/-! ## Lines with a jump -/

/-- A line with a jump has no other instruction. -/
theorem expandLine_of_isJump {maxArgs : Int64} {line : Bytes} {i : RawInstruction}
    (hi : i ∈ lineInstructions maxArgs line) (hjump : i.isJump) :
    expandLine maxArgs line = .ok [i] := by
  obtain ⟨instructions, hexpand, hmem⟩ := mem_lineInstructions.mp hi
  obtain ⟨op, hop, hname⟩ := RawInstruction.exists_of_isJump hjump
  obtain ⟨statement, -, ⟨-, rfl⟩ | ⟨raw, -, -, hraw⟩⟩ := expandLine_eq_ok_iff.mp hexpand
  · cases hmem
  · obtain ⟨-, rfl⟩ := RawInstruction.expand_eq_singleton hraw hmem hname
      (.inl (Operation.family_eq_jump_iff.mpr hop))
    exact hexpand

/-- The number of the only instruction of a line is that of the instructions before the line. -/
theorem index_of_line {maxArgs : Int64} {lines : List Bytes} {j n : Nat} {line : Bytes}
    {l : Located} {i : RawInstruction} (hline : lines[j]? = some line)
    (honly : expandLine maxArgs line = .ok [i]) (hl : (instructionsOf maxArgs lines)[n]? = some l)
    (hnumber : l.line = j + 1) : n = (instructionsOf maxArgs (lines.take j)).length := by
  obtain ⟨later, hsplit, hearly, hlater⟩ := instructionsOf_split maxArgs hline
  have hmiddle : lineInstructions maxArgs line = [i] := by rw [lineInstructions, honly]
  rw [hsplit, hmiddle, List.append_assoc] at hl
  rcases Nat.lt_trichotomy n (instructionsOf maxArgs (lines.take j)).length with hlt | heq | hgt
  · -- an earlier instruction has a smaller line
    rw [List.getElem?_append_left hlt] at hl
    have := hearly l (List.mem_of_getElem? hl)
    omega
  · exact heq
  · -- and a later one a larger
    rw [List.getElem?_append_right (by omega), List.getElem?_append_right (by simp; omega)] at hl
    have := hlater l (List.mem_of_getElem? hl)
    omega

namespace Assembly.IsOf

variable {settings : Settings} {source : Source} {a : Assembly}

/-- The references are those of the words that are jumps. -/
theorem relocations_eq_filter (h : a.IsOf settings source) :
    a.relocations.entries.toList =
      (a.words.filter PlacedWord.isJump).map PlacedWord.reference := by
  rw [h.relocations_eq, Assembly.words, Encoding.words, h.events_eq, List.filterMap_map,
    List.filter_filterMap, List.map_filterMap]
  refine List.filterMap_congr fun p hp => (reference_eventOf ?_).symm
  exact wellFormed_of_mem_instructionsOf
    ((List.takeWhile_prefix _).subset (List.fst_mem_of_mem_zipIdx hp))

/-- Where the word of a jump comes from. -/
theorem mem_words_of_isJump (h : a.IsOf settings source) {w : PlacedWord} (hw : w ∈ a.words)
    (hjump : w.isJump) :
    ∃ n, ∃ l : Located, ∃ resolved, (program settings source)[n]? = some l ∧
      l.instruction.resolve ⟨settings.addressOf n, some a.symbols⟩ = .ok resolved ∧
      w = ⟨settings.addressOf n, resolved.encode, l.instruction.render, l.line⟩ ∧
      l.instruction.isJump := by
  obtain ⟨n, l, resolved, hl, hresolve, rfl⟩ := h.mem_words hw
  have hwf := wellFormed_of_mem_instructionsOf (List.mem_of_getElem? hl)
  rw [PlacedWord.isJump, instruction?_of_render hwf] at hjump
  exact ⟨n, l, resolved, hl, hresolve, rfl, hjump⟩

/-- A jump that became a word is on a line that is not rejected, except for its label. -/
theorem fault_of_isJump (h : a.IsOf settings source) {w : PlacedWord} (hw : w ∈ a.words)
    (hjump : w.isJump) {f : LineFault} (hf : f ∈ a.expansion.faults ++ a.encoding.faults)
    (hline : f.line = w.line) :
    f.pass = .one ∧ ∃ label, f.cause = .definition (.duplicate label) := by
  obtain ⟨n, l, resolved, hl, hresolve, rfl, hname⟩ := h.mem_words_of_isJump hw hjump
  obtain ⟨j, line, hj, hnumber, hmem⟩ := mem_instructionsOf (List.mem_of_getElem? hl)
  have honly := expandLine_of_isJump hmem hname
  rcases List.mem_append.mp hf with hf | hf
  · -- the line expands, so only its label can be wrong
    rw [h.reads.faults_eq] at hf
    obtain ⟨j', line', cause, hj', hcause, rfl⟩ := mem_firstFaultsOf.mp hf
    obtain rfl : j' = j := by
      have : ((j' + 1 : Nat) : Int) = l.line := hline
      omega
    obtain rfl : line' = line := Option.some.inj (hj'.symm.trans hj)
    rcases mem_lineRejections.mp hcause with hcause | hcause
    · obtain ⟨label, -, -, rfl⟩ := mem_labelRejections.mp hcause
      exact ⟨rfl, label, rfl⟩
    · rw [honly] at hcause
      cases hcause
  · -- the line has one instruction, and that one resolves
    obtain ⟨m, l', cause, hl', hcause, rfl⟩ := h.mem_encoding_faults hf
    have hsame : l'.line = j + 1 := by
      have : (l'.line : Int) = l.line := hline
      omega
    obtain rfl : m = n :=
      (index_of_line hj honly hl' hsame).trans (index_of_line hj honly hl hnumber).symm
    obtain rfl : l' = l := Option.some.inj (hl'.symm.trans hl)
    rw [hresolve] at hcause
    cases hcause

end Assembly.IsOf

/-- **References are exactly the jumps.** With faults or without, the relocation table lists the
operands and addresses of the words that come from a `j` or `jal`, in order. Each of these operands
is a label, and each of these words is the opcode with a zero target. A line that is rejected adds
nothing to the table, unless it is rejected because an earlier line defines its label. -/
theorem relocations_eq_jumps {settings : Settings} {source : Source} {a : Assembly}
    (h : assemble settings source = .ok a) :
    a.relocations.entries.toList =
        (a.words.filter PlacedWord.isJump).map PlacedWord.reference ∧
      ∀ w ∈ a.words, w.isJump →
        (∃ op : Operation, (op = .j ∨ op = .jal) ∧ ∃ label, isLabel label ∧
          tokens w.source = [op.name, label] ∧ w.reference = ⟨label, w.address⟩ ∧
          w.value = .jump op.spec.opcode 0) ∧
        ∀ f ∈ a.expansion.faults ++ a.encoding.faults, f.line = w.line →
          f.pass = .one ∧ ∃ label, f.cause = .definition (.duplicate label) := by
  have hof := isOf_of_assemble h
  refine ⟨hof.relocations_eq_filter, fun w hw hjump => ⟨?_, ?_⟩⟩
  · obtain ⟨n, l, resolved, hl, hresolve, rfl, hi⟩ := hof.mem_words_of_isJump hw hjump
    have hwf := wellFormed_of_mem_instructionsOf (List.mem_of_getElem? hl)
    have hfamily := (RawInstruction.isJump_iff_of_resolve hresolve).mp hi
    have hname := Operation.ofName?_eq_some_iff.mp (RawInstruction.resolve_eq_ok_iff.mp hresolve).1
    obtain ⟨label, hargs, hlabel, hvalue⟩ := RawInstruction.args_of_resolve_jump hresolve hfamily
    have htokens : tokens l.instruction.render = [resolved.operation.name, label] := by
      rw [RawInstruction.render, tokens_spaced hwf, hname, hargs]
    refine ⟨_, Operation.family_eq_jump_iff.mp hfamily, label, hlabel, htokens, ?_, hvalue⟩
    rw [PlacedWord.reference, instruction?_of_render hwf, Option.bind_some, hargs]
    rfl
  · intro f hf hline
    exact hof.fault_of_isJump hw hjump hf hline

/-- Two jumps, the second behind a label that the first line defines. -/
def redefinedSource : Source :=
  ⟨ascii "x: j a\nx: j b\n", none⟩

theorem relocations_eq_jumps_redefined :
    ∃ a, assemble {} redefinedSource = .ok a ∧
      a.relocations.entries.toList =
        (a.words.filter PlacedWord.isJump).map PlacedWord.reference := by
  obtain ⟨a, ha⟩ := exists_assemble {} rfl redefinedSource
  exact ⟨a, ha, (relocations_eq_jumps ha).1⟩

/-- The second line is rejected, and the jump on it is recorded all the same. -/
theorem jump_recorded_duplicate_label :
    ∃ a, assemble {} redefinedSource = .ok a ∧
      (∃ f ∈ a.expansion.faults, f.line = 2) ∧
      (∃ w ∈ a.words, w.isJump ∧ w.line = 2 ∧ w.reference = ⟨ascii "b", 4⟩) ∧
      a.relocations.entries.toList = [⟨ascii "a", 0⟩, ⟨ascii "b", 4⟩] := by
  obtain ⟨a, ha⟩ := exists_assemble {} rfl redefinedSource
  have hof := isOf_of_assemble ha
  have hprogram : (program {} redefinedSource).takeWhile Located.fits =
      [⟨1, ⟨ascii "j", [ascii "a"]⟩⟩, ⟨2, ⟨ascii "j", [ascii "b"]⟩⟩] := by
    decide +kernel
  have hwords : a.words = [⟨0, 0x08000000, ascii "j a", 1⟩, ⟨4, 0x08000000, ascii "j b", 2⟩] := by
    rw [Assembly.words, Encoding.words, hof.events_eq, hprogram]
    rfl
  refine ⟨a, ha, ?_, ?_, ?_⟩
  · rw [hof.reads.faults_eq]
    decide +kernel
  · rw [hwords]
    decide +kernel
  · rw [hof.relocations_eq, hprogram]
    rfl

end MipsAssembler
