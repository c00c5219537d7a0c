import MipsAssembler.Proofs.Jumps

/-!
# What failed lines leave in the relocation table

The second pass records the label of a jump before it writes the word. A line that fails leaves the
relocation table as it was, unless writing was what failed: the label of a jump then stays in the
table, and there is no word to go with it.

- `RawInstruction.relocations_of_encode`: encoding records the label of a jump and nothing else.
- `Encoding.Moves`: what reading a line can do to the words, the faults and the table, whatever the
  output takes (`Encoding.step_moves`).
- `Encoding.after`: the pass over an output that may change in any way from line to line.
- `relocations_kept_iff`: the table is kept, and in step with the words, exactly if no line fails
  because the word of a jump cannot be written.
- `reference_left_behind`: a jump to a full output leaves its reference without its word.
-/

namespace MipsAssembler

/-! ## One instruction -/

/-- If there is no result, that is for a mistake of the source. -/
def Mendable {α : Type} (x : Except Rejection α) : Prop :=
  ∀ cause, x = .error cause → (cause.kind == .system) = false

namespace Mendable

variable {α β : Type}

theorem ok (a : α) : Mendable (.ok a) := by
  intro cause h
  cases h

theorem error {cause : Rejection} (h : (cause.kind == .system) = false) :
    Mendable (.error cause : Except Rejection α) := by
  intro cause' hcause
  cases hcause
  exact h

theorem bind {x : Except Rejection α} {f : α → Except Rejection β} (hx : Mendable x)
    (hf : ∀ a, Mendable (f a)) : Mendable (x >>= f) := by
  cases x with
  | error cause => exact error (hx cause rfl)
  | ok a => exact hf a

theorem map {x : Except Rejection α} (hx : Mendable x) (f : α → β) : Mendable (x.map f) := by
  cases x with
  | error cause => exact error (hx cause rfl)
  | ok a => exact ok (f a)

end Mendable

theorem mendable_registerOperand (token : Bytes) : Mendable (registerOperand token) := by
  rw [registerOperand]
  split
  · exact .ok _
  · exact .error rfl

theorem Family.mendable_immediateOperand (f : Family) (token : Bytes) :
    Mendable (f.immediateOperand token) := by
  rw [immediateOperand]
  cases Literal.parse token f.immediateRange.1 f.immediateRange.2 with
  | error e => exact .error rfl
  | ok v => exact .ok v

namespace Site

theorem mendable_branchOperand (site : Site) (label : Bytes) :
    Mendable (site.branchOperand label) := by
  rw [branchOperand]
  split
  · rw [displacement]
    split
    · exact .error rfl
    · split
      · exact .error rfl
      · exact .ok _
  · exact .error rfl

/-- What is wrong with operands is a mistake of the source. -/
theorem mendable_operands (site : Site) (name : Bytes) (f : Family) (args : List Bytes) :
    Mendable (site.operands name f args) := by
  have register := mendable_registerOperand
  have immediate := Family.mendable_immediateOperand
  unfold operands
  split
  · exact (register _).bind fun _ => (register _).bind fun _ => (register _).bind fun _ => .ok _
  · exact (register _).bind fun _ => (register _).bind fun _ => (immediate _ _).bind fun _ => .ok _
  · exact (register _).bind fun _ => .ok _
  · exact (register _).bind fun _ => (register _).bind fun _ => .ok _
  · exact (register _).bind fun _ => .ok _
  · exact (register _).bind fun _ => (register _).bind fun _ => (immediate _ _).bind fun _ => .ok _
  · exact (register _).bind fun _ => (register _).bind fun _ => (immediate _ _).bind fun _ => .ok _
  · exact (register _).bind fun _ => (immediate _ _).bind fun _ => .ok _
  · exact (register _).bind fun _ => (register _).bind fun _ => (immediate _ _).bind fun _ => .ok _
  · exact (register _).bind fun _ => (register _).bind fun _ =>
      (site.mendable_branchOperand _).bind fun _ => .ok _
  · split
    · exact .ok _
    · exact .error rfl
  · exact .error rfl

end Site

namespace RawInstruction

variable {i : RawInstruction} {site : Site} {relocations recorded : Option SymbolTable}

theorem mendable_resolve (i : RawInstruction) (site : Site) : Mendable (i.resolve site) := by
  rw [resolve]
  split
  · exact .error rfl
  · exact (site.mendable_operands _ _ _).map _

/-- Encoding does not fail as writing does. -/
theorem ne_wordNotWritten_of_encode {cause : Rejection}
    (h : i.encode site relocations = .error cause) : cause ≠ .wordNotWritten := by
  rintro rfl
  rw [encode] at h
  cases hresolve : i.resolve site with
  | error cause =>
    rw [hresolve] at h
    obtain rfl : cause = .wordNotWritten := Except.error.inj h
    cases i.mendable_resolve site _ hresolve
  | ok resolved =>
    rw [hresolve] at h
    cases hrecord : i.record resolved site.address relocations with
    | ok table =>
      simp only [bind, Except.bind, hrecord] at h
      cases h
    | error cause =>
      simp only [bind, Except.bind, hrecord] at h
      obtain rfl : cause = .wordNotWritten := Except.error.inj h
      unfold record at hrecord
      split at hrecord
      · cases hrecord
      · cases hrecord
      · split at hrecord
        · cases hrecord
        · cases hrecord

/-- The label of a jump: its first operand. -/
def label (i : RawInstruction) : Bytes :=
  i.args.head?.getD []

/-- The relocation table behind an instruction that was encoded. -/
def recordIn (i : RawInstruction) (address : Address) (t : SymbolTable) : SymbolTable :=
  if i.isJump then t.push i.label address else t

/-- An instruction that resolves refers to a label exactly if it is a jump. -/
theorem reference?_of_resolve {resolved : Instruction} (h : i.resolve site = .ok resolved) :
    i.reference? resolved = if i.isJump then some i.label else none := by
  have hiff := isJump_iff_of_resolve h
  rw [reference?]
  by_cases hfamily : resolved.operation.family = .jump
  · obtain ⟨label, hargs, -, -⟩ := args_of_resolve_jump h hfamily
    rw [if_pos hfamily, if_pos (hiff.mpr hfamily), RawInstruction.label, hargs]
    rfl
  · rw [if_neg hfamily, if_neg (mt hiff.mp hfamily)]

/-- Encoding records the label of a jump and nothing else, and takes a table to record it in. -/
theorem relocations_of_encode {w : Word} (h : i.encode site relocations = .ok (w, recorded)) :
    recorded = relocations.map (i.recordIn site.address) ∧
      (i.isJump → relocations.isSome) := by
  obtain ⟨resolved, hresolve, h⟩ := bind_eq_ok_iff.mp h
  obtain ⟨table, hrecord, h⟩ := bind_eq_ok_iff.mp h
  obtain rfl : table = recorded := congrArg Prod.snd (Except.ok.inj h)
  unfold record at hrecord
  rw [reference?_of_resolve hresolve] at hrecord
  unfold recordIn
  by_cases hjump : i.isJump
  · simp only [if_pos hjump] at hrecord ⊢
    cases relocations with
    | none => cases hrecord
    | some t =>
      refine ⟨?_, fun _ => rfl⟩
      cases hadd : t.add i.label site.address with
      | error e =>
        simp only [hadd] at hrecord
        cases hrecord
      | ok t' =>
        simp only [hadd] at hrecord
        rw [Option.map_some, (SymbolTable.add_eq_ok_iff.mp hadd).2]
        exact (Except.ok.inj hrecord).symm
  · simp only [if_neg hjump] at hrecord ⊢
    refine ⟨?_, fun h => absurd h hjump⟩
    rw [Option.map_id']
    exact (Except.ok.inj hrecord).symm

end RawInstruction

theorem SymbolTable.push_ne (t : SymbolTable) (name : Bytes) (address : Address) :
    t.push name address ≠ t := by
  intro h
  have hsize := congrArg (·.entries.size) h
  simp at hsize

/-- A call that fails keeps the table, unless the word of a jump was not written. -/
theorem RawInstruction.emit_relocations_iff {i : RawInstruction} {site : Site}
    {relocations : Option SymbolTable} {sink : Sink} {cause : Rejection}
    (h : (i.emit site relocations sink).result = .error cause) :
    (i.emit site relocations sink).relocations = relocations ↔
      ¬ (cause = .wordNotWritten ∧ i.isJump) := by
  unfold emit at h ⊢
  cases hencode : i.encode site relocations with
  | error cause' =>
    rw [hencode] at h
    obtain rfl := Except.error.inj h
    have hother := ne_wordNotWritten_of_encode hencode
    exact iff_of_true rfl fun hboth => hother hboth.1
  | ok result =>
    obtain ⟨w, recorded⟩ := result
    rw [hencode] at h
    dsimp only [writeWord] at h ⊢
    obtain ⟨rfl, htable⟩ := relocations_of_encode hencode
    split at h
    · cases h
    · obtain rfl := Except.error.inj h
      by_cases hjump : i.isJump
      · obtain ⟨t, rfl⟩ := Option.isSome_iff_exists.mp (htable hjump)
        rw [Option.map_some, recordIn, if_pos hjump, Option.some.injEq]
        exact iff_of_false (t.push_ne _ _) fun hkept => hkept ⟨rfl, hjump⟩
      · refine iff_of_true ?_ fun hboth => hjump hboth.2
        cases relocations with
        | none => rfl
        | some t => rw [Option.map_some, recordIn, if_neg hjump]

/-! ## One line -/

namespace LineFault

/-- The instruction that the text of a fault shows. -/
def instruction? (f : LineFault) : Option RawInstruction :=
  RawInstruction.ofTokens? (tokens f.text)

/-- The word of a `j` or a `jal` could not be written. -/
def isUnwrittenJump (f : LineFault) : Bool :=
  f.cause == .wordNotWritten && f.instruction?.any RawInstruction.isJump

end LineFault

namespace Encoding

/-- What reading a line can do to the words, the faults and the relocation table of a pass. -/
inductive Moves (e e' : Encoding) : Prop where
  /-- The line holds no instruction. -/
  | passed (hevents : e'.events = e.events) (htable : e'.relocations = e.relocations)
  /-- A word is emitted, and recorded if it is that of a jump. -/
  | emitted (w : PlacedWord) (hevents : e'.events = e.events.push (.emitted w))
      (htable : e'.relocations =
        if w.isJump then e.relocations.push w.reference.name w.reference.address
        else e.relocations)
  /-- The line is rejected, and recorded if it is a jump whose word was not written. -/
  | rejected (f : LineFault) (hevents : e'.events = e.events.push (.rejected f)) (label : Bytes)
      (htable : e'.relocations =
        if f.isUnwrittenJump then e.relocations.push label e.next else e.relocations)

/-- A word is emitted, or the sink did not take it. -/
theorem emit_cases (e : Encoding) (origins : Array Int) (text : Bytes) (w : Word) :
    ∃ sink, e.emit origins text w =
        { e with sink }.note (.emitted ⟨e.next, w, text, e.line origins⟩) ∨
      e.emit origins text w = { e with sink }.reject origins text .wordNotWritten := by
  unfold emit
  refine ⟨(writeWordTo e.sink w).1, ?_⟩
  cases e.sink with
  | none => exact .inl rfl
  | some sink =>
    dsimp only [writeWordTo, writeWord]
    cases (sink.write (renderWord w)).2 with
    | true => exact .inl rfl
    | false => exact .inr rfl

/-- Every line does one of these things, whatever happened to the sink before it. -/
theorem step_moves (symbols : SymbolTable) (origins : Array Int) (e : Encoding)
    (sink : Option Sink) (text : Bytes) :
    e.Moves ({ e with sink }.step symbols origins text) := by
  rw [step]
  cases htokens : RawInstruction.ofTokens? (tokens text) with
  | none => exact .passed rfl rfl
  | some i =>
    dsimp only
    rw [encode_eq_emit]
    dsimp only
    cases hencode : i.encode ⟨e.next, some symbols⟩ (some e.relocations) with
    | error cause =>
      -- what fails before the word is written is not recorded
      have hother := RawInstruction.ne_wordNotWritten_of_encode hencode
      refine .rejected _ rfl [] ?_
      rw [LineFault.isUnwrittenJump, beq_eq_false_iff_ne.mpr hother]
      rfl
    | ok result =>
      obtain ⟨w, recorded⟩ := result
      obtain ⟨rfl, -⟩ := RawInstruction.relocations_of_encode hencode
      dsimp only [Option.map_some, Option.getD_some]
      obtain ⟨sink', hemit | hemit⟩ := emit_cases
        { e with sink, relocations := i.recordIn e.next e.relocations } origins text w
      · rw [hemit]
        refine .emitted _ rfl ?_
        rw [PlacedWord.isJump, PlacedWord.reference, PlacedWord.instruction?, htokens]
        rfl
      · rw [hemit]
        refine .rejected _ rfl i.label ?_
        rw [LineFault.isUnwrittenJump, LineFault.instruction?, htokens]
        rfl

/-- A line that is rejected leaves the table as it was, unless it is a jump whose word was not
written. -/
theorem Moves.relocations_eq_iff {e e' : Encoding} (h : e.Moves e') {f : LineFault}
    (hf : e'.events = e.events.push (.rejected f)) :
    e'.relocations = e.relocations ↔ ¬ f.isUnwrittenJump := by
  cases h with
  | passed hevents htable =>
    have hsize := congrArg Array.size (hevents.symm.trans hf)
    rw [Array.size_push] at hsize
    omega
  | emitted w hevents htable =>
    have hsame := (Array.push_eq_push.mp (hevents.symm.trans hf)).1
    cases hsame
  | rejected f' hevents label htable =>
    have hsame := (Array.push_eq_push.mp (hevents.symm.trans hf)).1
    obtain rfl : f' = f := Event.rejected.inj hsame
    rw [htable]
    by_cases hunwritten : f'.isUnwrittenJump
    · rw [if_pos hunwritten]
      exact iff_of_false (e.relocations.push_ne _ _) fun h => h hunwritten
    · rw [if_neg hunwritten]
      exact iff_of_true rfl hunwritten

/-! ## A whole pass -/

/-- The references of the words that are jumps, in order. -/
def references (e : Encoding) : List Entry :=
  (e.words.filter PlacedWord.isJump).map PlacedWord.reference

/-- The jumps whose words were not written. -/
def unwritten (e : Encoding) : List LineFault :=
  e.faults.filter LineFault.isUnwrittenJump

section Push

variable {e e' : Encoding} {event : Event} (h : e'.events = e.events.push event)
include h

theorem references_of_push : e'.references =
    e.references ++ (event.word?.toList.filter PlacedWord.isJump).map PlacedWord.reference := by
  rw [references, words, h, Array.toList_push, List.filterMap_append, List.filter_append,
    List.map_append]
  cases hword : event.word? with
  | none =>
    rw [List.filterMap_cons_none hword]
    rfl
  | some w =>
    rw [List.filterMap_cons_some hword]
    rfl

theorem unwritten_of_push :
    e'.unwritten = e.unwritten ++ event.fault?.toList.filter LineFault.isUnwrittenJump := by
  rw [unwritten, faults, h, Array.toList_push, List.filterMap_append, List.filter_append]
  cases hfault : event.fault? with
  | none =>
    rw [List.filterMap_cons_none hfault]
    rfl
  | some f =>
    rw [List.filterMap_cons_some hfault]
    rfl

end Push

/-- A line leaves the table alone, or adds the reference of a word to it, or one for which there is
no word. -/
theorem Moves.entries_cases {e e' : Encoding} (h : e.Moves e') :
    (e'.relocations = e.relocations ∧ e'.references = e.references ∧
        e'.unwritten = e.unwritten) ∨
      (∃ entry, e'.relocations.entries = e.relocations.entries.push entry ∧
        e'.references = e.references ++ [entry] ∧ e'.unwritten = e.unwritten) ∨
      ∃ entry f, e'.relocations.entries = e.relocations.entries.push entry ∧
        e'.references = e.references ∧ e'.unwritten = e.unwritten ++ [f] := by
  cases h with
  | passed hevents htable =>
    refine .inl ⟨htable, ?_, ?_⟩
    · rw [references, words, hevents]
      rfl
    · rw [unwritten, faults, hevents]
      rfl
  | emitted w hevents htable =>
    have hreferences := references_of_push hevents
    have hunwritten : e'.unwritten = e.unwritten := by
      simp [unwritten_of_push hevents, Event.fault?]
    by_cases hjump : w.isJump
    · refine .inr (.inl ⟨w.reference, ?_, ?_, hunwritten⟩)
      · rw [htable, if_pos hjump, SymbolTable.entries_push]
      · simp [hreferences, Event.word?, hjump]
    · refine .inl ⟨?_, ?_, hunwritten⟩
      · rw [htable, if_neg hjump]
      · simp [hreferences, Event.word?, hjump]
  | rejected f hevents label htable =>
    have hreferences : e'.references = e.references := by
      simp [references_of_push hevents, Event.word?]
    have hunwritten := unwritten_of_push hevents
    by_cases hjump : f.isUnwrittenJump
    · refine .inr (.inr ⟨⟨label, e.next⟩, f, ?_, hreferences, ?_⟩)
      · rw [htable, if_pos hjump, SymbolTable.entries_push]
      · simp [hunwritten, Event.fault?, hjump]
    · refine .inl ⟨?_, hreferences, ?_⟩
      · rw [htable, if_neg hjump]
      · simp [hunwritten, Event.fault?, hjump]

/-- How the relocation table of a pass stands to its words and faults: it lists the references of
the words behind the entries it began with, and as many more as there are jumps whose words were
not written. -/
structure Records (initial : List Entry) (e : Encoding) : Prop where
  sublist : (initial ++ e.references).Sublist e.relocations.entries.toList
  length_eq : e.relocations.entries.toList.length =
    (initial ++ e.references).length + e.unwritten.length

namespace Records

variable {initial : List Entry} {e e' : Encoding}

theorem move (h : e.Records initial) (hmove : e.Moves e') : e'.Records initial := by
  obtain ⟨hsublist, hlength⟩ := h
  rcases hmove.entries_cases with ⟨htable, hreferences, hunwritten⟩ |
    ⟨entry, htable, hreferences, hunwritten⟩ | ⟨entry, f, htable, hreferences, hunwritten⟩
  · refine ⟨?_, ?_⟩
    · rwa [htable, hreferences]
    · rwa [htable, hreferences, hunwritten]
  · -- a word and its reference
    refine ⟨?_, ?_⟩
    · rw [htable, hreferences, ← List.append_assoc, Array.toList_push]
      exact hsublist.append (.refl _)
    · rw [htable, hreferences, hunwritten, Array.toList_push]
      simp only [List.length_append, List.length_singleton] at hlength ⊢
      omega
  · -- a reference and no word
    refine ⟨?_, ?_⟩
    · rw [htable, hreferences, Array.toList_push]
      exact hsublist.trans (List.sublist_append_left _ _)
    · rw [htable, hreferences, hunwritten, Array.toList_push]
      simp only [List.length_append, List.length_singleton] at hlength ⊢
      omega

/-- The table is in step with the words exactly if all words of jumps were written. -/
theorem entries_eq_iff (h : e.Records initial) :
    e.relocations.entries.toList = initial ++ e.references ↔
      ∀ f ∈ e.faults, ¬ f.isUnwrittenJump := by
  constructor
  · intro hentries
    have hlength := h.length_eq
    rw [hentries] at hlength
    have hnone : e.unwritten = [] := List.eq_nil_of_length_eq_zero (by omega)
    exact List.filter_eq_nil_iff.mp hnone
  · intro hwritten
    have hnone : e.unwritten = [] := List.filter_eq_nil_iff.mpr hwritten
    have hlength := h.length_eq
    rw [hnone] at hlength
    exact (h.sublist.eq_of_length hlength.symm).symm

end Records

/-- A pass after its first lines, over an output that is not its own: before each line, anything may
happen to it. -/
def after (symbols : SymbolTable) (origins : Array Int)
    (output : Nat → Option Sink → Option Sink) (lines : List Bytes) (start : Encoding) :
    Nat → Encoding
  | 0 => start
  | n + 1 =>
    let e := after symbols origins output lines start n
    match lines[n]? with
    | none => e
    | some text => { e with sink := output n e.sink }.step symbols origins text

section After

variable (symbols : SymbolTable) (origins : Array Int) (output : Nat → Option Sink → Option Sink)
  (lines : List Bytes) (start : Encoding)

theorem after_moves (n : Nat) :
    (after symbols origins output lines start n).Moves
      (after symbols origins output lines start (n + 1)) := by
  rw [after]
  cases lines[n]? with
  | none => exact .passed rfl rfl
  | some text => exact step_moves symbols origins _ _ text

/-- **The table stays in this relation to the words through a whole pass.** -/
theorem records_after {initial : List Entry} (h : start.Records initial) (n : Nat) :
    (after symbols origins output lines start n).Records initial := by
  induction n with
  | zero => exact h
  | succ n ih => exact ih.move (after_moves symbols origins output lines start n)

/-- An output that nothing happens to is the sink of the pass. -/
theorem after_own (n : Nat) :
    after symbols origins (fun _ sink => sink) lines start n =
      (lines.take n).foldl (step symbols origins) start := by
  induction n with
  | zero => rfl
  | succ n ih =>
    rw [after, List.take_add_one, List.foldl_append, ← ih]
    cases lines[n]? with
    | none => rfl
    | some text => rfl

end After

end Encoding

/-- **A failed line leaves the relocation table as it was, unless the word of a jump could not be
written.** This holds of every line of a pass, over any output, and of every call that emits one
instruction. The table of a pass lists the references of the words that are jumps, in order, behind
what it began with, and nothing else exactly if no line failed that way. -/
theorem relocations_kept_iff (settings : Settings) (source : Source) (symbols : SymbolTable)
    (origins : Array Int) (relocations : SymbolTable) (sink : Option Sink)
    (output : Nat → Option Sink → Option Sink) :
    let start : Encoding := { next := settings.textBase, relocations, sink }
    let lines := source.scan.lines
    let after := Encoding.after symbols origins output lines start
    (∀ n f, (after (n + 1)).events = (after n).events.push (.rejected f) →
      ((after (n + 1)).relocations = (after n).relocations ↔ ¬ f.isUnwrittenJump)) ∧
    (after lines.length).Records relocations.entries.toList ∧
    ((after lines.length).relocations.entries.toList =
        relocations.entries.toList ++ (after lines.length).references ↔
      ∀ f ∈ (after lines.length).faults, ¬ f.isUnwrittenJump) ∧
    Encoding.run settings source symbols origins relocations sink =
      { Encoding.after symbols origins (fun _ sink => sink) lines start lines.length with
        failure := source.scan.failure } ∧
    ∀ (i : RawInstruction) (site : Site) (table : Option SymbolTable) (out : Sink) (cause),
      (i.emit site table out).result = .error cause →
        ((i.emit site table out).relocations = table ↔ ¬ (cause = .wordNotWritten ∧ i.isJump)) := by
  intro start lines after
  have hstart : start.Records relocations.entries.toList :=
    ⟨by simp [start, Encoding.references, Encoding.words],
      by simp [start, Encoding.references, Encoding.words, Encoding.unwritten, Encoding.faults]⟩
  have hfinal := Encoding.records_after symbols origins output lines start hstart lines.length
  refine ⟨fun n f hf => ?_, hfinal, hfinal.entries_eq_iff, ?_, ?_⟩
  · exact (Encoding.after_moves symbols origins output lines start n).relocations_eq_iff hf
  · rw [Encoding.after_own, List.take_length]
    rfl
  · intro i site table out cause h
    exact i.emit_relocations_iff h

/-- Over an output that takes every word, a rejected line leaves nothing: the table lists the jump
on the line behind it. -/
theorem relocations_kept_iff_unlimited :
    let e := Encoding.run {} ⟨ascii "bad\nj main\n", none⟩ .symbols #[] .relocations (some {})
    e.faults.length = 1 ∧ e.references = [⟨ascii "main", 4⟩] ∧
      e.relocations.entries.toList = e.references := by
  obtain ⟨-, -, hiff, hrun, -⟩ := relocations_kept_iff {} ⟨ascii "bad\nj main\n", none⟩ .symbols
    #[] .relocations (some {}) fun _ sink => sink
  refine ⟨by decide +kernel, by decide +kernel, ?_⟩
  rw [hrun]
  exact hiff.mpr (by decide +kernel)

/-- A jump to an output that is full is rejected, by the pass as by a single call, and its reference
stays behind without its word. -/
theorem reference_left_behind :
    let full : Sink := { capacity := some 0 }
    let e := Encoding.run {} ⟨ascii "j main\n", none⟩ .symbols #[] .relocations (some full)
    let call := (RawInstruction.mk (ascii "j") [ascii "main"]).emit ⟨0, some .symbols⟩
      (some .relocations) full
    e.faults = [⟨.two, 1, ascii "j main", .wordNotWritten⟩] ∧ e.words = [] ∧
      e.relocations.entries.toList = [⟨ascii "main", 0⟩] ∧
      call.result = .error .wordNotWritten ∧
      call.relocations.map (·.entries.toList) = some [⟨ascii "main", 0⟩] :=
  ⟨by decide +kernel, by decide +kernel, by decide +kernel, rfl, by decide +kernel⟩

end MipsAssembler
