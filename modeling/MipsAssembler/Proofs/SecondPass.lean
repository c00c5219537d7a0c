import MipsAssembler.Encoding
import MipsAssembler.Proofs.FirstPass

/-!
# What the second pass does

The second pass reads instructions back from text. Here they are encoded one after another without
that text: `outcome` is what becomes of one instruction, `encodeAll` of a whole program. Reading a
rendered instruction is one `outcome` (`Encoding.step_render`), so reading a rendered program is
`encodeAll` (`Encoding.foldl_step_render`).
-/

namespace MipsAssembler

/-- What becomes of the instruction with a number: its word or its fault, and the relocation table
behind it. -/
def outcome (settings : Settings) (symbols : SymbolTable) (index : Nat) (relocations : SymbolTable)
    (l : Located) : Event × SymbolTable :=
  let address := settings.addressOf index
  match l.instruction.encode ⟨address, some symbols⟩ (some relocations) with
  | .ok (w, recorded) =>
    (.emitted ⟨address, w, l.instruction.render, l.line⟩, recorded.getD relocations)
  | .error cause => (.rejected ⟨.two, l.line, l.instruction.render, cause⟩, relocations)

/-- What becomes of instructions encoded one after another, the first of them with a number. -/
def encodeAll (settings : Settings) (symbols : SymbolTable) :
    (index : Nat) → (relocations : SymbolTable) → List Located → List Event × SymbolTable
  | _, relocations, [] => ([], relocations)
  | index, relocations, l :: rest =>
    let now := outcome settings symbols index relocations l
    let later := encodeAll settings symbols (index + 1) now.2 rest
    (now.1 :: later.1, later.2)

/-- What becomes of the instruction with a number where addresses are aligned: only its operands
decide. -/
def eventOf (settings : Settings) (symbols : SymbolTable) (index : Nat) (l : Located) : Event :=
  match l.instruction.resolve ⟨settings.addressOf index, some symbols⟩ with
  | .ok resolved =>
    .emitted ⟨settings.addressOf index, resolved.encode, l.instruction.render, l.line⟩
  | .error cause => .rejected ⟨.two, l.line, l.instruction.render, cause⟩

/-- The reference that the instruction with a number leaves to the linker. -/
def referenceOf (settings : Settings) (symbols : SymbolTable) (index : Nat) (l : Located) :
    Option Entry :=
  match l.instruction.resolve ⟨settings.addressOf index, some symbols⟩ with
  | .ok resolved =>
    (l.instruction.reference? resolved).map fun label => ⟨label, settings.addressOf index⟩
  | .error _ => none

section EventOf

variable {settings : Settings} {symbols : SymbolTable} {index : Nat} {l : Located}

/-- A word comes from operands that resolve. -/
theorem word?_eventOf_eq_some_iff {w : PlacedWord} :
    (eventOf settings symbols index l).word? = some w ↔ ∃ resolved,
      l.instruction.resolve ⟨settings.addressOf index, some symbols⟩ = .ok resolved ∧
        w = ⟨settings.addressOf index, resolved.encode, l.instruction.render, l.line⟩ := by
  unfold eventOf
  cases l.instruction.resolve ⟨settings.addressOf index, some symbols⟩ with
  | ok resolved => simp [Event.word?, eq_comm]
  | error cause => simp [Event.word?]

/-- A fault comes from operands that do not resolve. -/
theorem fault?_eventOf_eq_some_iff {f : LineFault} :
    (eventOf settings symbols index l).fault? = some f ↔ ∃ cause,
      l.instruction.resolve ⟨settings.addressOf index, some symbols⟩ = .error cause ∧
        f = ⟨.two, l.line, l.instruction.render, cause⟩ := by
  unfold eventOf
  cases l.instruction.resolve ⟨settings.addressOf index, some symbols⟩ with
  | ok resolved => simp [Event.fault?]
  | error cause => simp [Event.fault?, eq_comm]

theorem fault?_eventOf_eq_none_iff :
    (eventOf settings symbols index l).fault? = none ↔ ∃ resolved,
      l.instruction.resolve ⟨settings.addressOf index, some symbols⟩ = .ok resolved := by
  unfold eventOf
  cases l.instruction.resolve ⟨settings.addressOf index, some symbols⟩ with
  | ok resolved => simp [Event.fault?]
  | error cause => simp [Event.fault?]

/-- An instruction that is not rejected is emitted, at its address and with its line. -/
theorem word?_eventOf_of_fault?_eq_none (h : (eventOf settings symbols index l).fault? = none) :
    (eventOf settings symbols index l).word?.map (fun w => (w.address, w.line)) =
      some (settings.addressOf index, (l.line : Int)) := by
  obtain ⟨resolved, hresolve⟩ := fault?_eventOf_eq_none_iff.mp h
  rw [word?_eventOf_eq_some_iff.mpr ⟨resolved, hresolve, rfl⟩]
  rfl

end EventOf

/-- A table that lists every reference takes any at an aligned address. -/
theorem SymbolTable.refusal?_of_not_unique {t : SymbolTable} (hu : t.unique = false) (name : Bytes)
    {address : Address} (ha : address.toNat % 4 = 0) : t.refusal? name address = none := by
  rw [refusal?, if_neg (by omega), hu, Bool.false_and]
  rfl

/-- At an aligned address only the operands can keep an instruction from being encoded. -/
theorem outcome_eq {settings : Settings} (ha : settings.textBase.toNat % 4 = 0)
    (symbols : SymbolTable) (index : Nat) {relocations : SymbolTable}
    (hu : relocations.unique = false) (l : Located) :
    outcome settings symbols index relocations l =
      (eventOf settings symbols index l,
        match referenceOf settings symbols index l with
        | some entry => relocations.push entry.name entry.address
        | none => relocations) := by
  rw [outcome, eventOf, referenceOf, RawInstruction.encode]
  cases l.instruction.resolve ⟨settings.addressOf index, some symbols⟩ with
  | error cause => rfl
  | ok resolved =>
    dsimp only [bind, Except.bind]
    unfold RawInstruction.record
    cases l.instruction.reference? resolved with
    | none => rfl
    | some label =>
      dsimp only [SymbolTable.add]
      rw [SymbolTable.refusal?_of_not_unique hu label (Settings.addressOf_aligned ha index)]
      rfl

/-- The outcomes of a program, each by itself. -/
theorem encodeAll_fst {settings : Settings} (ha : settings.textBase.toNat % 4 = 0)
    (symbols : SymbolTable) {index : Nat} {relocations : SymbolTable}
    (hu : relocations.unique = false) (program : List Located) :
    (encodeAll settings symbols index relocations program).1 =
      (program.zipIdx index).map fun p => eventOf settings symbols p.2 p.1 := by
  induction program generalizing index relocations with
  | nil => rfl
  | cons l program ih =>
    rw [encodeAll, outcome_eq ha symbols index hu, List.zipIdx_cons, List.map_cons]
    dsimp only
    rw [ih]
    split <;> exact hu

/-- The references of a program, in order. -/
theorem encodeAll_snd {settings : Settings} (ha : settings.textBase.toNat % 4 = 0)
    (symbols : SymbolTable) {index : Nat} {relocations : SymbolTable}
    (hu : relocations.unique = false) (program : List Located) :
    (encodeAll settings symbols index relocations program).2.entries.toList =
      relocations.entries.toList ++
        (program.zipIdx index).filterMap fun p => referenceOf settings symbols p.2 p.1 := by
  induction program generalizing index relocations with
  | nil => simp [encodeAll]
  | cons l program ih =>
    rw [encodeAll, outcome_eq ha symbols index hu, List.zipIdx_cons, List.filterMap_cons]
    dsimp only
    cases referenceOf settings symbols index l with
    | none => exact ih hu
    | some entry =>
      have hu' : (relocations.push entry.name entry.address).unique = false := hu
      dsimp only
      rw [ih hu']
      simp

namespace Encoding

/-- Without a sink a word is always emitted. -/
theorem emit_of_no_sink {e : Encoding} (h : e.sink = none) (origins : Array Int) (text : Bytes)
    (w : Word) :
    e.emit origins text w = e.note (.emitted ⟨e.next, w, text, e.line origins⟩) := by
  obtain ⟨next, relocations, sink, count, events, failure⟩ := e
  subst h
  rfl

/-- The pass encodes as `RawInstruction.encode` does, and then writes the word. -/
theorem encode_eq_emit (e : Encoding) (symbols : SymbolTable) (origins : Array Int) (text : Bytes)
    (i : RawInstruction) :
    e.encode symbols origins text i =
      match i.encode ⟨e.next, some symbols⟩ (some e.relocations) with
      | .ok (w, recorded) =>
        { e with relocations := recorded.getD e.relocations }.emit origins text w
      | .error cause => e.reject origins text cause := by
  rw [encode, RawInstruction.encode]
  cases i.resolve ⟨e.next, some symbols⟩ with
  | error cause => rfl
  | ok resolved =>
    dsimp only [bind, Except.bind]
    unfold RawInstruction.record
    cases i.reference? resolved with
    | none => rfl
    | some label =>
      dsimp only [SymbolTable.add]
      -- the table may refuse the label, and then no word is emitted
      cases e.relocations.refusal? label e.next with
      | some cause => rfl
      | none => rfl

/-- Without a sink there is nothing to write. -/
theorem encode_eq {e : Encoding} (h : e.sink = none) (symbols : SymbolTable) (origins : Array Int)
    (text : Bytes) (i : RawInstruction) :
    e.encode symbols origins text i =
      match i.encode ⟨e.next, some symbols⟩ (some e.relocations) with
      | .ok (w, recorded) =>
        { e with relocations := recorded.getD e.relocations }.note
          (.emitted ⟨e.next, w, text, e.line origins⟩)
      | .error cause => e.reject origins text cause := by
  rw [encode_eq_emit]
  cases i.encode ⟨e.next, some symbols⟩ (some e.relocations) with
  | error cause => rfl
  | ok result =>
    exact emit_of_no_sink (e := { e with relocations := result.2.getD e.relocations }) h origins
      text result.1

/-- Reading a rendered instruction back has the outcome of encoding it. -/
theorem step_render {settings : Settings} {symbols : SymbolTable} {origins : Array Int}
    {e : Encoding} {l : Located} (hl : l.instruction.WellFormed) (hsink : e.sink = none)
    (hnext : e.next = settings.addressOf e.count) (horigin : origins[e.count]? = some ↑l.line) :
    e.step symbols origins l.instruction.render =
      { e with relocations := (outcome settings symbols e.count e.relocations l).2 }.note
        (outcome settings symbols e.count e.relocations l).1 := by
  have hline : e.line origins = l.line := by
    rw [line, horigin]
    rfl
  rw [step, hl.ofTokens?_tokens_render, outcome, ← hnext]
  dsimp only
  rw [encode_eq hsink, hline]
  cases l.instruction.encode ⟨e.next, some symbols⟩ (some e.relocations) with
  | error cause =>
    dsimp only
    rw [reject, hline]
  | ok result => rfl

/-- **Reading a rendered program back encodes it.** The address and the source line of each
instruction are found by counting, and the count stays in step with the program. -/
theorem foldl_step_render (settings : Settings) (symbols : SymbolTable) {origins : Array Int}
    {program : List Located} (hprogram : ∀ l ∈ program, l.instruction.WellFormed) {e : Encoding}
    (hsink : e.sink = none) (hnext : e.next = settings.addressOf e.count)
    (horigins : ∀ n l, program[n]? = some l → origins[e.count + n]? = some ↑l.line) :
    let final := (program.map (·.instruction.render)).foldl (step symbols origins) e
    let direct := encodeAll settings symbols e.count e.relocations program
    final.events.toList = e.events.toList ++ direct.1 ∧ final.relocations = direct.2 := by
  -- on the program, for any state whose count and address are in step
  induction program generalizing e with
  | nil => simp [encodeAll]
  | cons l program ih =>
    have horigin : origins[e.count]? = some ↑l.line := horigins 0 l rfl
    rw [List.map_cons, List.foldl_cons,
      step_render (hprogram l List.mem_cons_self) hsink hnext horigin]
    have hnext' : e.next + 4 = settings.addressOf (e.count + 1) := by
      rw [Settings.addressOf_add, ← hnext]
      rfl
    have htail : ∀ n l', program[n]? = some l' → origins[e.count + 1 + n]? = some ↑l'.line := by
      intro n l' hn
      rw [Nat.add_assoc, Nat.add_comm 1 n]
      exact horigins (n + 1) l' (by simpa using hn)
    obtain ⟨hevents, hrelocations⟩ :=
      ih (fun l' hl' => hprogram l' (List.mem_cons_of_mem _ hl'))
        (e := { e with relocations := (outcome settings symbols e.count e.relocations l).2 }.note
          (outcome settings symbols e.count e.relocations l).1) hsink hnext' htail
    refine ⟨?_, hrelocations⟩
    rw [hevents]
    simp [note, encodeAll]

end Encoding

end MipsAssembler
