import Mathlib.Data.List.Induction
import MipsAssembler.Expansion
import MipsAssembler.Proofs.SymbolTable
import MipsAssembler.Proofs.Tokens

/-!
# What the first pass does

The result of the first pass is described without running it, line by line: what a line adds depends
on the line and on the lines before it only (`contributions`).

- `instructionsOf`: the instructions of the program, each with the number of its source line.
- `definitionsOf`: the entries of the symbol table. A label stands for the address of the first
  instruction behind it, counted in words from the text base.
- `firstFaultsOf`: the rejected lines.

`Expansion.Reads` says that these are what the pass has produced after some lines. One more line
keeps it (`Expansion.Reads.step`), so it holds of a whole run (`Expansion.reads_run`).
-/

namespace MipsAssembler

/-- An instruction and the number of the source line it comes from. -/
structure Located where
  /-- The number of the line, counted from one. -/
  line : Nat
  /-- The instruction. -/
  instruction : RawInstruction
  deriving DecidableEq, Repr

/-- What each line contributes, given the lines before it. -/
def contributions {β : Type} (f : List Bytes → Bytes → List β) (before : List Bytes) :
    List Bytes → List β
  | [] => []
  | line :: rest => f before line ++ contributions f (before ++ [line]) rest

/-! ## Single lines -/

/-- The label that a source line defines. -/
def definedLabel? (line : Bytes) : Option Bytes :=
  match Statement.parse line with
  | .ok statement => statement.label
  | .error _ => none

/-- The instructions that a source line stands for, or why it is refused. -/
def expandLine (maxArgs : Int64) (line : Bytes) : Except Rejection (List RawInstruction) :=
  match Statement.parse line with
  | .error cause => .error cause
  | .ok statement =>
    match statement.instruction with
    | none => .ok []
    | some i =>
      if maxArgs.toInt < i.args.length then
        .error (.tooManyArguments maxArgs.toInt i.args.length)
      else i.expand

/-- The instructions that a source line adds to the program. -/
def lineInstructions (maxArgs : Int64) (line : Bytes) : List RawInstruction :=
  match expandLine maxArgs line with
  | .ok instructions => instructions
  | .error _ => []

/-- What is wrong with the label of a line: an earlier line defines it. -/
def labelRejections (before : List Bytes) (line : Bytes) : List Rejection :=
  match definedLabel? line with
  | none => []
  | some label =>
    if (before.filterMap definedLabel?).contains label then [.definition (.duplicate label)] else []

/-- What the first pass rejects about a line: its label, and what it cannot expand. -/
def lineRejections (maxArgs : Int64) (before : List Bytes) (line : Bytes) : List Rejection :=
  labelRejections before line ++
    match expandLine maxArgs line with
    | .error cause => [cause]
    | .ok _ => []

/-- A line that is not refused has no instruction, or one with few enough operands that expands. -/
theorem expandLine_eq_ok_iff {maxArgs : Int64} {line : Bytes} {instructions : List RawInstruction} :
    expandLine maxArgs line = .ok instructions ↔ ∃ statement, Statement.parse line = .ok statement ∧
      (statement.instruction = none ∧ instructions = [] ∨
        ∃ i, statement.instruction = some i ∧ (i.args.length : Int) ≤ maxArgs.toInt ∧
          i.expand = .ok instructions) := by
  rw [expandLine]
  cases Statement.parse line with
  | error cause => simp
  | ok statement =>
    cases hinst : statement.instruction with
    | none => simp [hinst, eq_comm]
    | some i =>
      by_cases hmany : maxArgs.toInt < i.args.length
      · simp [hinst, hmany, Int.not_le.mpr hmany]
      · simp [hinst, hmany, Int.not_lt.mp hmany]

theorem mem_lineInstructions {maxArgs : Int64} {line : Bytes} {i : RawInstruction} :
    i ∈ lineInstructions maxArgs line ↔
      ∃ instructions, expandLine maxArgs line = .ok instructions ∧ i ∈ instructions := by
  rw [lineInstructions]
  cases expandLine maxArgs line with
  | error cause => simp
  | ok instructions => simp

/-! ## Whole texts -/

/-- The instructions of a line with its number. -/
def locatedAt (maxArgs : Int64) (before : List Bytes) (line : Bytes) : List Located :=
  (lineInstructions maxArgs line).map (Located.mk (before.length + 1))

/-- The instructions of a text, in order, with their source lines. -/
def instructionsOf (maxArgs : Int64) (lines : List Bytes) : List Located :=
  contributions (locatedAt maxArgs) [] lines

/-- The address of the instruction with a number, counted from zero. -/
def Settings.addressOf (settings : Settings) (index : Nat) : Address :=
  settings.textBase + BitVec.ofNat 32 (4 * index)

/-- The symbol that a line defines, if its label is new. -/
def definitionAt (settings : Settings) (before : List Bytes) (line : Bytes) : List Entry :=
  match definedLabel? line with
  | none => []
  | some label =>
    if (before.filterMap definedLabel?).contains label then []
    else [⟨label, settings.addressOf (instructionsOf settings.maxArgs before).length⟩]

/-- The symbols that a text defines, in order. -/
def definitionsOf (settings : Settings) (lines : List Bytes) : List Entry :=
  contributions (definitionAt settings) [] lines

/-- The faults of a line in the first pass. -/
def firstFaultsAt (settings : Settings) (before : List Bytes) (line : Bytes) : List LineFault :=
  (lineRejections settings.maxArgs before line).map
    (LineFault.mk .one (before.length + 1 : Nat) line)

/-- The faults of a text in the first pass, in order. -/
def firstFaultsOf (settings : Settings) (lines : List Bytes) : List LineFault :=
  contributions (firstFaultsAt settings) [] lines

theorem Settings.addressOf_add (settings : Settings) (n m : Nat) :
    settings.addressOf (n + m) = settings.addressOf n + BitVec.ofNat 32 (4 * m) := by
  rw [addressOf, addressOf, BitVec.add_assoc, ← BitVec.ofNat_add, Nat.mul_add]

/-- Addresses of instructions are aligned if the text base is. -/
theorem Settings.addressOf_aligned {settings : Settings} (h : settings.textBase.toNat % 4 = 0)
    (n : Nat) : (settings.addressOf n).toNat % 4 = 0 := by
  simp only [addressOf, BitVec.toNat_add, BitVec.toNat_ofNat]
  omega

section Contributions

variable {β : Type} (f : List Bytes → Bytes → List β)

theorem contributions_append (before xs ys : List Bytes) :
    contributions f before (xs ++ ys) =
      contributions f before xs ++ contributions f (before ++ xs) ys := by
  induction xs generalizing before with
  | nil => simp [contributions]
  | cons x xs ih => simp [contributions, ih]

theorem contributions_concat (xs : List Bytes) (line : Bytes) :
    contributions f [] (xs ++ [line]) = contributions f [] xs ++ f xs line := by
  simp [contributions_append, contributions]

/-- What a text contributes comes from one of its lines. -/
theorem mem_contributions {f} {before lines : List Bytes} {b : β} :
    b ∈ contributions f before lines ↔
      ∃ j line, lines[j]? = some line ∧ b ∈ f (before ++ lines.take j) line := by
  induction lines generalizing before with
  | nil => simp [contributions]
  | cons line lines ih =>
    rw [contributions, List.mem_append, ih]
    constructor
    · rintro (h | ⟨j, other, hj, h⟩)
      · exact ⟨0, line, rfl, by simpa using h⟩
      · exact ⟨j + 1, other, by simpa using hj, by simpa using h⟩
    · rintro ⟨j, other, hj, h⟩
      cases j with
      | zero =>
        obtain rfl : line = other := by simpa using hj
        exact .inl (by simpa using h)
      | succ j => exact .inr ⟨j, other, by simpa using hj, by simpa using h⟩

end Contributions

/-- A label is a symbol of a text exactly if some line defines it. -/
theorem mem_definitionsOf_names {settings : Settings} {lines : List Bytes} {label : Bytes} :
    label ∈ (definitionsOf settings lines).map (·.name) ↔
      label ∈ lines.filterMap definedLabel? := by
  suffices h : ∀ before, label ∈ before.filterMap definedLabel? ∨
      label ∈ (contributions (definitionAt settings) before lines).map (·.name) ↔
        label ∈ (before ++ lines).filterMap definedLabel? by
    simpa [definitionsOf] using h []
  -- a label that an earlier line defines adds no entry, but it is a label of `before`
  induction lines with
  | nil => simp [contributions]
  | cons line lines ih =>
    intro before
    have hih := ih (before ++ [line])
    rw [List.append_assoc, List.singleton_append] at hih
    rw [← hih, contributions, definitionAt]
    cases hlabel : definedLabel? line with
    | none => simp [hlabel]
    | some l =>
      by_cases hold : l ∈ before.filterMap definedLabel?
      · have : label = l → label ∈ before.filterMap definedLabel? := by
          rintro rfl
          exact hold
        simp only [List.contains_iff_mem, hold, if_true, List.nil_append, List.filterMap_append,
          List.mem_append, List.filterMap_cons, hlabel, List.filterMap_nil, List.mem_singleton]
        tauto
      · simp only [List.contains_iff_mem, hold, if_false, List.map_append, List.map_cons,
          List.map_nil, List.mem_append, List.filterMap_append, List.filterMap_cons, hlabel,
          List.filterMap_nil, List.mem_singleton]
        tauto

/-- A line defines nothing, or its label, which no line before it defines. -/
theorem definitionAt_cases (settings : Settings) (before : List Bytes) (line : Bytes) :
    definitionAt settings before line = [] ∨
      ∃ label, definedLabel? line = some label ∧ label ∉ before.filterMap definedLabel? ∧
        definitionAt settings before line =
          [⟨label, settings.addressOf (instructionsOf settings.maxArgs before).length⟩] := by
  rw [definitionAt]
  cases definedLabel? line with
  | none => exact .inl rfl
  | some label =>
    by_cases hmem : label ∈ before.filterMap definedLabel?
    · exact .inl (if_pos (List.contains_iff_mem.mpr hmem))
    · exact .inr ⟨label, rfl, hmem, if_neg (mt List.contains_iff_mem.mp hmem)⟩

/-- The instructions of a line carry its number. -/
theorem line_of_mem_contributions {maxArgs : Int64} {before lines : List Bytes} {l : Located}
    (h : l ∈ contributions (locatedAt maxArgs) before lines) :
    ∃ k < lines.length, l.line = before.length + k + 1 := by
  obtain ⟨k, line, hline, h⟩ := mem_contributions.mp h
  obtain ⟨i, -, rfl⟩ := List.mem_map.mp h
  have hk := (List.getElem?_eq_some_iff.mp hline).1
  refine ⟨k, hk, ?_⟩
  simp only [List.length_append, List.length_take]
  omega

/-- The instructions of the lines before an index come first. -/
theorem instructionsOf_take (maxArgs : Int64) (lines : List Bytes) (j : Nat) :
    ∃ later, instructionsOf maxArgs lines = instructionsOf maxArgs (lines.take j) ++ later ∧
      (∀ l ∈ instructionsOf maxArgs (lines.take j), l.line ≤ j) ∧ ∀ l ∈ later, j < l.line := by
  refine ⟨contributions (locatedAt maxArgs) (lines.take j) (lines.drop j), ?_, ?_, ?_⟩
  · have h := contributions_append (locatedAt maxArgs) [] (lines.take j) (lines.drop j)
    rwa [List.take_append_drop, List.nil_append] at h
  · intro l hl
    obtain ⟨k, hk, hline⟩ := line_of_mem_contributions hl
    rw [List.length_take] at hk
    simp only [List.length_nil] at hline
    omega
  · intro l hl
    obtain ⟨k, hk, hline⟩ := line_of_mem_contributions hl
    rw [List.length_drop] at hk
    rw [List.length_take] at hline
    omega

/-- An instruction of a text is one of a line, and carries its number. -/
theorem mem_instructionsOf {maxArgs : Int64} {lines : List Bytes} {l : Located}
    (h : l ∈ instructionsOf maxArgs lines) :
    ∃ j line, lines[j]? = some line ∧ l.line = j + 1 ∧
      l.instruction ∈ lineInstructions maxArgs line := by
  obtain ⟨j, line, hline, h⟩ := mem_contributions.mp h
  obtain ⟨i, hi, rfl⟩ := List.mem_map.mp h
  have hj := (List.getElem?_eq_some_iff.mp hline).1
  refine ⟨j, line, hline, ?_, hi⟩
  show ([] ++ lines.take j).length + 1 = j + 1
  rw [List.nil_append, List.length_take]
  omega

/-- An instruction of a line is one of the text. -/
theorem mem_instructionsOf_of_line {maxArgs : Int64} {lines : List Bytes} {line : Bytes}
    (hline : line ∈ lines) {i : RawInstruction} (hi : i ∈ lineInstructions maxArgs line) :
    ∃ l ∈ instructionsOf maxArgs lines, l.instruction = i := by
  obtain ⟨j, hj⟩ := List.getElem?_of_mem hline
  exact ⟨_, mem_contributions.mpr ⟨j, line, hj, List.mem_map.mpr ⟨i, hi, rfl⟩⟩, rfl⟩

/-- The instructions of a line stand between those of the lines before it and behind it. -/
theorem instructionsOf_split (maxArgs : Int64) {lines : List Bytes} {j : Nat} {line : Bytes}
    (hline : lines[j]? = some line) :
    ∃ later, instructionsOf maxArgs lines = instructionsOf maxArgs (lines.take j) ++
        (lineInstructions maxArgs line).map (Located.mk (j + 1)) ++ later ∧
      (∀ l ∈ instructionsOf maxArgs (lines.take j), l.line ≤ j) ∧ ∀ l ∈ later, j + 1 < l.line := by
  obtain ⟨hj, hget⟩ := List.getElem?_eq_some_iff.mp hline
  obtain ⟨-, -, hearly, -⟩ := instructionsOf_take maxArgs lines j
  obtain ⟨later, hsplit, -, hlater⟩ := instructionsOf_take maxArgs lines (j + 1)
  have hlength : (lines.take j).length = j := by
    rw [List.length_take]
    omega
  have hmiddle : instructionsOf maxArgs (lines.take (j + 1)) =
      instructionsOf maxArgs (lines.take j) ++
        (lineInstructions maxArgs line).map (Located.mk (j + 1)) := by
    rw [List.take_succ_eq_append_getElem hj, hget, instructionsOf, contributions_concat, locatedAt,
      hlength]
    rfl
  exact ⟨later, by rw [hsplit, hmiddle], hearly, hlater⟩

/-- A symbol is the label of a line and stands for the first instruction that is not before that
line. -/
theorem mem_definitionsOf {settings : Settings} {lines : List Bytes} {e : Entry}
    (h : e ∈ definitionsOf settings lines) :
    ∃ j line, lines[j]? = some line ∧ definedLabel? line = some e.name ∧
      e.address = settings.addressOf (instructionsOf settings.maxArgs (lines.take j)).length := by
  obtain ⟨j, line, hline, h⟩ := mem_contributions.mp h
  rw [List.nil_append] at h
  rcases definitionAt_cases settings (lines.take j) line with hnone | ⟨label, hlabel, -, hone⟩
  · rw [hnone] at h
    cases h
  · rw [hone] at h
    obtain rfl := List.mem_singleton.mp h
    exact ⟨j, line, hline, hlabel, rfl⟩

/-- What a line defines is a label. -/
theorem isLabel_of_definedLabel? {line label : Bytes} (h : definedLabel? line = some label) :
    isLabel label := by
  rw [definedLabel?] at h
  split at h
  · next statement hparse => exact Statement.isLabel_of_parse hparse h
  · cases h

/-- No two symbols of a text have the same name. -/
theorem nodup_definitionsOf (settings : Settings) (lines : List Bytes) :
    ((definitionsOf settings lines).map (·.name)).Nodup := by
  induction lines using List.reverseRecOn with
  | nil => exact List.nodup_nil
  | append_singleton lines line ih =>
    rw [definitionsOf, contributions_concat, ← definitionsOf, List.map_append]
    rcases definitionAt_cases settings lines line with hnone | ⟨label, -, hnew, hone⟩
    · simpa [hnone] using ih
    · rw [hone, List.nodup_append]
      refine ⟨ih, by simp, ?_⟩
      rintro other hother name hname rfl
      obtain rfl : other = label := by simpa using hname
      exact hnew (mem_definitionsOf_names.mp hother)

/-- A label is rejected exactly if an earlier line defines it too. -/
theorem mem_labelRejections {before : List Bytes} {line : Bytes} {cause : Rejection} :
    cause ∈ labelRejections before line ↔ ∃ label, definedLabel? line = some label ∧
      label ∈ before.filterMap definedLabel? ∧ cause = .definition (.duplicate label) := by
  rw [labelRejections]
  cases definedLabel? line with
  | none => simp
  | some label =>
    by_cases hmem : label ∈ before.filterMap definedLabel?
    · simp only [List.contains_iff_mem, hmem, if_true, List.mem_singleton]
      constructor
      · rintro rfl
        exact ⟨label, rfl, hmem, rfl⟩
      · rintro ⟨other, hother, -, rfl⟩
        rw [Option.some.inj hother]
    · simp only [List.contains_iff_mem, hmem, if_false, List.not_mem_nil, false_iff]
      rintro ⟨other, hother, hmem', -⟩
      exact hmem (Option.some.inj hother ▸ hmem')

/-- The first pass rejects a line for its label or for what it cannot expand. -/
theorem mem_lineRejections {maxArgs : Int64} {before : List Bytes} {line : Bytes}
    {cause : Rejection} :
    cause ∈ lineRejections maxArgs before line ↔
      cause ∈ labelRejections before line ∨ expandLine maxArgs line = .error cause := by
  rw [lineRejections, List.mem_append]
  cases expandLine maxArgs line with
  | error other => simp [eq_comm]
  | ok instructions => simp

/-- A fault of the first pass names its line, and says what is wrong with it. -/
theorem mem_firstFaultsOf {settings : Settings} {lines : List Bytes} {f : LineFault} :
    f ∈ firstFaultsOf settings lines ↔ ∃ j line cause, lines[j]? = some line ∧
      cause ∈ lineRejections settings.maxArgs (lines.take j) line ∧
      f = ⟨.one, (j + 1 : Nat), line, cause⟩ := by
  have hlength : ∀ {j line}, lines[j]? = some line → (lines.take j).length = j := by
    intro j line hline
    have := (List.getElem?_eq_some_iff.mp hline).1
    rw [List.length_take]
    omega
  rw [firstFaultsOf, mem_contributions]
  constructor
  · rintro ⟨j, line, hline, hf⟩
    obtain ⟨cause, hcause, rfl⟩ := List.mem_map.mp hf
    rw [List.nil_append] at hcause ⊢
    rw [hlength hline]
    exact ⟨j, line, cause, hline, hcause, rfl⟩
  · rintro ⟨j, line, cause, hline, hcause, rfl⟩
    refine ⟨j, line, hline, List.mem_map.mpr ⟨cause, hcause, ?_⟩⟩
    rw [List.nil_append, hlength hline]

/-! ## One line -/

namespace Expansion

section Fields

variable (e : Expansion) (text label : Bytes) (cause : Rejection) (count : Nat)

@[simp] theorem lines_reject : (e.reject text cause).lines = e.lines := rfl
@[simp] theorem next_reject : (e.reject text cause).next = e.next := rfl
@[simp] theorem symbols_reject : (e.reject text cause).symbols = e.symbols := rfl
@[simp] theorem sink_reject : (e.reject text cause).sink = e.sink := rfl
@[simp] theorem origins_reject : (e.reject text cause).origins = e.origins := rfl

@[simp] theorem faults_reject :
    (e.reject text cause).faults = e.faults ++ [⟨.one, e.lines, text, cause⟩] := by
  simp [reject, note, faults, Event.fault?]

@[simp] theorem lines_advance : (e.advance count).lines = e.lines := rfl
@[simp] theorem symbols_advance : (e.advance count).symbols = e.symbols := rfl
@[simp] theorem sink_advance : (e.advance count).sink = e.sink := rfl
@[simp] theorem faults_advance : (e.advance count).faults = e.faults := rfl

@[simp] theorem next_advance :
    (e.advance count).next = e.next + BitVec.ofNat 32 (4 * count) := rfl

@[simp] theorem origins_advance :
    (e.advance count).origins = e.origins ++ List.replicate count (e.lines : Int) := rfl

@[simp] theorem lines_define : (e.define text label).lines = e.lines := by
  unfold define; split <;> rfl

@[simp] theorem next_define : (e.define text label).next = e.next := by
  unfold define; split <;> rfl

@[simp] theorem sink_define : (e.define text label).sink = e.sink := by
  unfold define; split <;> rfl

@[simp] theorem origins_define : (e.define text label).origins = e.origins := by
  unfold define; split <;> rfl

end Fields

/-- At an aligned address a label is refused exactly if it stands already. -/
theorem define_of_mem {e : Expansion} (hi : e.symbols.Indexed) (hu : e.symbols.unique = true)
    (ha : e.next.toNat % 4 = 0) {label : Bytes} (hmem : label ∈ e.symbols.names) (text : Bytes) :
    e.define text label = e.reject text (.definition (.duplicate label)) := by
  rw [define, hi.refusal?_of_mem ha hu hmem]

theorem define_of_notMem {e : Expansion} (hi : e.symbols.Indexed) (ha : e.next.toNat % 4 = 0)
    {label : Bytes} (hmem : label ∉ e.symbols.names) (text : Bytes) :
    e.define text label =
      { e with symbols := e.symbols.push label e.next }.note (.labelled label e.next) := by
  rw [define, hi.refusal?_eq_none_iff.mpr ⟨ha, fun _ => hmem⟩]

/-- Any write fits a sink without a capacity. -/
theorem fits_of_unlimited {sink : Sink} (h : sink.capacity = none) (n : Nat) : sink.fits n := by
  simp [Sink.fits, h]

/-- Writes the instructions of a line and counts them. -/
def emitLine (e : Expansion) (instructions : List RawInstruction) : Expansion :=
  { e with sink := e.sink.push (renderExpansion instructions) }.advance instructions.length

theorem emitLine_nil {e : Expansion} : e.emitLine [] = e := by
  have hpush : e.sink.push (renderExpansion []) = e.sink := by
    simp [Sink.push, Sink.stored, renderExpansion]
    split <;> simp
  simp [emitLine, hpush, advance]

/-- The instruction of a line is written whole, or rejected. -/
theorem expand_eq {e : Expansion} (h : e.sink.capacity = none) (maxArgs : Int64) (text : Bytes)
    (i : RawInstruction) :
    e.expand maxArgs text i =
      match (if maxArgs.toInt < i.args.length then
          .error (.tooManyArguments maxArgs.toInt i.args.length)
        else i.expand : Except Rejection (List RawInstruction)) with
      | .error cause => e.reject text cause
      | .ok instructions => e.emitLine instructions := by
  unfold expand
  split
  · rfl
  · rw [RawInstruction.writeExpansion]
    cases i.expand with
    | error cause => rfl
    | ok instructions =>
      simp only [Sink.write, fits_of_unlimited h, if_true]
      rfl

/-- The state behind the label of a line. -/
def labelLine (e : Expansion) (text : Bytes) : Expansion :=
  match definedLabel? text with
  | some label => { e with lines := e.lines + 1 }.define text label
  | none => { e with lines := e.lines + 1 }

/-- A line is read in two parts: first its label, then its instruction. -/
theorem step_eq {e : Expansion} (h : e.sink.capacity = none) (maxArgs : Int64) (text : Bytes) :
    e.step maxArgs text =
      match expandLine maxArgs text with
      | .error cause => (e.labelLine text).reject text cause
      | .ok instructions => (e.labelLine text).emitLine instructions := by
  rw [step, labelLine, definedLabel?, expandLine]
  cases Statement.parse text with
  | error cause => rfl
  | ok statement =>
    obtain ⟨label, instruction⟩ := statement
    cases label with
    | none =>
      cases instruction with
      | none => exact emitLine_nil.symm
      | some i => exact expand_eq (e := { e with lines := e.lines + 1 }) h maxArgs text i
    | some label =>
      cases instruction with
      | none => exact emitLine_nil.symm
      | some i => exact expand_eq (by simpa using h) maxArgs text i

section LabelLine

variable (e : Expansion) (text : Bytes)

@[simp] theorem lines_labelLine : (e.labelLine text).lines = e.lines + 1 := by
  unfold labelLine; split <;> simp

@[simp] theorem next_labelLine : (e.labelLine text).next = e.next := by
  unfold labelLine; split <;> simp

@[simp] theorem sink_labelLine : (e.labelLine text).sink = e.sink := by
  unfold labelLine; split <;> simp

@[simp] theorem origins_labelLine : (e.labelLine text).origins = e.origins := by
  unfold labelLine; split <;> simp

end LabelLine

/-! ## The invariant of the pass -/

/-- After some lines, the first pass has produced what these lines contribute. -/
structure Reads (settings : Settings) (lines : List Bytes) (e : Expansion) : Prop where
  lines_eq : e.lines = lines.length
  next_eq : e.next = settings.addressOf (instructionsOf settings.maxArgs lines).length
  unique : e.symbols.unique = true
  indexed : e.symbols.Indexed
  entries_eq : e.symbols.entries.toList = definitionsOf settings lines
  unlimited : e.sink.capacity = none
  text_eq : e.text = unlines ((instructionsOf settings.maxArgs lines).map (·.instruction.render))
  origins_eq : e.origins.toList =
    (instructionsOf settings.maxArgs lines).map fun l => (l.line : Int)
  faults_eq : e.faults = firstFaultsOf settings lines

theorem instructionsOf_concat (maxArgs : Int64) (lines : List Bytes) (line : Bytes) :
    instructionsOf maxArgs (lines ++ [line]) =
      instructionsOf maxArgs lines ++
        (lineInstructions maxArgs line).map (Located.mk (lines.length + 1)) :=
  contributions_concat ..

namespace Reads

variable {settings : Settings} {lines : List Bytes} {e : Expansion}

theorem start (settings : Settings) :
    Reads settings [] { next := settings.textBase, symbols := .symbols, sink := {} } where
  lines_eq := rfl
  next_eq := by simp [instructionsOf, contributions, Settings.addressOf]
  unique := rfl
  indexed := SymbolTable.indexed_empty true
  entries_eq := rfl
  unlimited := rfl
  text_eq := rfl
  origins_eq := rfl
  faults_eq := rfl

theorem mem_names (h : Reads settings lines e) {label : Bytes} :
    label ∈ e.symbols.names ↔ label ∈ lines.filterMap definedLabel? := by
  rw [SymbolTable.names, h.entries_eq, mem_definitionsOf_names]

/-- The symbols after the label of one more line. -/
theorem symbols_labelLine (h : Reads settings lines e) (ha : settings.textBase.toNat % 4 = 0)
    (line : Bytes) :
    (e.labelLine line).symbols.unique = true ∧ (e.labelLine line).symbols.Indexed ∧
      (e.labelLine line).symbols.entries.toList = definitionsOf settings (lines ++ [line]) ∧
      (e.labelLine line).faults = e.faults ++ (labelRejections lines line).map
        (LineFault.mk .one (lines.length + 1 : Nat) line) := by
  have hnext : e.next.toNat % 4 = 0 := h.next_eq ▸ Settings.addressOf_aligned ha _
  rw [definitionsOf, contributions_concat, ← definitionsOf, ← h.entries_eq, definitionAt,
    labelRejections, labelLine]
  cases hlabel : definedLabel? line with
  | none => simpa using ⟨h.unique, h.indexed, rfl⟩
  | some label =>
    dsimp only
    by_cases hmem : label ∈ lines.filterMap definedLabel?
    · -- defined before: the label is refused and the table stays
      rw [if_pos (List.contains_iff_mem.mpr hmem), if_pos (List.contains_iff_mem.mpr hmem),
        define_of_mem (e := { e with lines := e.lines + 1 }) h.indexed h.unique hnext
          (h.mem_names.mpr hmem)]
      refine ⟨h.unique, h.indexed, by simp, ?_⟩
      rw [faults_reject, h.lines_eq]
      rfl
    · -- new: the entry goes to the end of the table, at the address of the next instruction
      rw [if_neg (mt List.contains_iff_mem.mp hmem), if_neg (mt List.contains_iff_mem.mp hmem),
        define_of_notMem (e := { e with lines := e.lines + 1 }) h.indexed hnext
          (mt h.mem_names.mp hmem)]
      refine ⟨h.unique, h.indexed.push label e.next, ?_, ?_⟩
      · simp [note, h.next_eq]
      · simp [note, faults, Event.fault?]

/-- One more line is read. -/
theorem step (h : Reads settings lines e) (ha : settings.textBase.toNat % 4 = 0) (line : Bytes) :
    Reads settings (lines ++ [line]) (e.step settings.maxArgs line) := by
  obtain ⟨hunique, hindexed, hentries, hfaults⟩ := h.symbols_labelLine ha line
  have hinsts := instructionsOf_concat settings.maxArgs lines line
  have hreject : firstFaultsOf settings (lines ++ [line]) = firstFaultsOf settings lines ++
      (lineRejections settings.maxArgs lines line).map
        (LineFault.mk .one (lines.length + 1 : Nat) line) :=
    contributions_concat ..
  rw [step_eq h.unlimited]
  cases hexpand : expandLine settings.maxArgs line with
  | error cause =>
    -- nothing is written, and the fault comes behind that of the label
    have hnone : instructionsOf settings.maxArgs (lines ++ [line]) =
        instructionsOf settings.maxArgs lines := by
      simp [hinsts, lineInstructions, hexpand]
    exact {
      lines_eq := by simp [h.lines_eq]
      next_eq := by simp [h.next_eq, hnone]
      unique := hunique
      indexed := hindexed
      entries_eq := hentries
      unlimited := by simp [h.unlimited]
      text_eq := by simpa [text, hnone] using h.text_eq
      origins_eq := by simp [h.origins_eq, hnone]
      faults_eq := by
        rw [faults_reject, hfaults, hreject, h.faults_eq, lineRejections, hexpand]
        simp [h.lines_eq] }
  | ok instructions =>
    -- the counters advance by as many instructions as are written
    have hmore : instructionsOf settings.maxArgs (lines ++ [line]) =
        instructionsOf settings.maxArgs lines ++
          instructions.map (Located.mk (lines.length + 1)) := by
      simp [hinsts, lineInstructions, hexpand]
    exact {
      lines_eq := by simp [emitLine, h.lines_eq]
      next_eq := by simp [emitLine, h.next_eq, hmore, Settings.addressOf_add]
      unique := hunique
      indexed := hindexed
      entries_eq := hentries
      unlimited := by simp [emitLine, h.unlimited]
      text_eq := by
        rw [hmore, List.map_append, unlines_append, ← h.text_eq]
        simp [emitLine, text, Sink.contents_push_of_fits (fits_of_unlimited h.unlimited _),
          renderExpansion, unlines, List.flatMap_map]
      origins_eq := by
        simp [emitLine, hmore, h.origins_eq, h.lines_eq, List.map_const', Function.comp_def]
      faults_eq := by
        have : ((e.labelLine line).emitLine instructions).faults = (e.labelLine line).faults := rfl
        rw [this, hfaults, hreject, h.faults_eq, lineRejections, hexpand]
        simp }

/-- Any number of further lines is read. -/
theorem foldl_step (h : Reads settings lines e) (ha : settings.textBase.toNat % 4 = 0)
    (more : List Bytes) :
    Reads settings (lines ++ more) (more.foldl (Expansion.step settings.maxArgs) e) := by
  induction more generalizing lines e with
  | nil => simpa using h
  | cons line more ih =>
    rw [List.foldl_cons, ← List.singleton_append, ← List.append_assoc]
    exact ih (h.step ha line)

end Reads

/-- **The first pass produces what the lines of its source contribute.** -/
theorem reads_run {settings : Settings} (ha : settings.textBase.toNat % 4 = 0) (source : Source) :
    Reads settings source.scan.lines (run settings source) := by
  have h := (Reads.start settings).foldl_step ha source.scan.lines
  rw [List.nil_append] at h
  exact { h with }

end Expansion

/-- The instructions of a text are made of tokens. -/
theorem wellFormed_of_mem_instructionsOf {maxArgs : Int64} {lines : List Bytes} {l : Located}
    (h : l ∈ instructionsOf maxArgs lines) : l.instruction.WellFormed := by
  obtain ⟨j, line, -, -, hi⟩ := mem_instructionsOf h
  obtain ⟨instructions, hexpand, hi⟩ := mem_lineInstructions.mp hi
  obtain ⟨statement, hparse, ⟨-, rfl⟩ | ⟨raw, hinst, -, hraw⟩⟩ := expandLine_eq_ok_iff.mp hexpand
  · cases hi
  · exact RawInstruction.wellFormed_of_expand (Statement.wellFormed_of_parse hparse hinst) hraw hi

end MipsAssembler
