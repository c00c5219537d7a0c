import Mathlib.Data.List.Basic
import MipsAssembler.Program
import MipsAssembler.Proofs.Blanks
import MipsAssembler.Proofs.SymbolTable
import MipsAssembler.Proofs.Tokens

/-!
# Object files written and read back

An object file is a list of lines (`objectLines`): headers, words, entries, and blank lines between
sections.

- `trim_eq_self`, `readWord_line`, `readEntry_line`: a line reads back as what it was written from.
- `Loading.step_word`, `Loading.step_line`: one line more is read.
- `Loading.foldlM_step_words`, `Loading.foldlM_step_entries`: a section is read.
- `read_objectLines`: a file reads back as what it was written from, if all its entries fit the
  scanner's buffer; and if one does not, that is the only thing wrong.
-/

namespace MipsAssembler

/-! ## Lines -/

/-- An entry as a line, without its line feed. -/
def Entry.line (e : Entry) : Bytes :=
  decimal e.address.toNat ++ Ascii.tab :: e.name

/-- A word as a line, without its line feed. -/
def wordLine (w : Word) : Bytes :=
  hex 8 w.toNat

/-- Every one of some entries fits the scanner's buffer as a line. -/
def EntriesFit (entries : List Entry) : Prop :=
  ∀ e ∈ entries, e.line.length ≤ maxLineLength

instance (entries : List Entry) : Decidable (EntriesFit entries) :=
  inferInstanceAs (Decidable (∀ e ∈ entries, _))

/-- The lines of an object file. -/
def objectLines (text : List Word) (symbols relocations : List Entry) : List Bytes :=
  Section.text.header :: text.map wordLine ++
  [] :: Section.symbol.header :: symbols.map Entry.line ++
  [] :: Section.relocation.header :: relocations.map Entry.line

theorem Entry.render_eq (e : Entry) : e.render = e.line ++ [Ascii.newline] := by
  simp [render, line]

theorem SymbolTable.render_eq (t : SymbolTable) :
    t.render = unlines (t.entries.toList.map Entry.line) := by
  rw [render, unlines, List.flatMap_map, funext Entry.render_eq]

/-- An object file is its lines. -/
theorem renderObject_eq (text : List Word) (symbols relocations : SymbolTable) :
    renderObject text (some symbols) (some relocations) =
      unlines (objectLines text symbols.entries.toList relocations.entries.toList) := by
  have hwords : text.flatMap renderWord = unlines (text.map wordLine) := by
    rw [unlines, List.flatMap_map]
    rfl
  simp [renderObject, objectLines, hwords, SymbolTable.render_eq]

/-! ## Trimming -/

/-- A visible ASCII character. -/
def isGraphic (b : UInt8) : Bool := 0x21 ≤ b && b ≤ 0x7e

/-- No blank begins or ends with a visible character. -/
theorem not_isGraphic_of_mem_blanks :
    ∀ mark ∈ blanks, mark ≠ [] ∧ mark.head?.any isGraphic = false ∧
      mark.getLast?.any isGraphic = false := by
  decide +kernel

theorem not_blank_prefix_of_isGraphic {text : Bytes} (h : ∀ b ∈ text.head?, isGraphic b) :
    ∀ blank ∈ blanks, ¬ blank <+: text := by
  intro blank hblank hprefix
  obtain ⟨hne, hhead, -⟩ := not_isGraphic_of_mem_blanks blank hblank
  obtain ⟨b, tail, rfl⟩ := List.exists_cons_of_ne_nil hne
  obtain ⟨rest, rfl⟩ := hprefix
  have hb : isGraphic b = false := hhead
  rw [h b rfl] at hb
  cases hb

theorem not_blank_suffix_of_isGraphic {text : Bytes} (h : ∀ b ∈ text.getLast?, isGraphic b) :
    ∀ blank ∈ blanks, ¬ blank <:+ text := by
  intro blank hblank hsuffix
  obtain ⟨hne, -, hend⟩ := not_isGraphic_of_mem_blanks blank hblank
  obtain ⟨init, b, rfl⟩ := (List.eq_nil_or_concat' blank).resolve_left hne
  obtain ⟨rest, rfl⟩ := hsuffix
  have hb : isGraphic b = false := by simpa using hend
  rw [h b (by simp)] at hb
  cases hb

/-- A text that begins and ends with visible characters has no blanks around it. -/
theorem trim_eq_self {text : Bytes} (hfirst : ∀ b ∈ text.head?, isGraphic b)
    (hlast : ∀ b ∈ text.getLast?, isGraphic b) : trim text = text :=
  trim_eq_self_of_ends (not_blank_prefix_of_isGraphic hfirst) (not_blank_suffix_of_isGraphic hlast)

/-! ## Words -/

/-- Hexadecimal digits read as what they were written from. -/
theorem Numeral.foldlM_hex {width n limit : Nat} (hn : n < Nat.pow 16 width) (hlimit : n ≤ limit) :
    (hex width n).foldlM (step 16 limit) 0 = .ok n := by
  induction width generalizing n with
  | zero =>
    obtain rfl : n = 0 := Nat.lt_one_iff.mp hn
    rfl
  | succ width ih =>
    have hquotient : n / 16 < Nat.pow 16 width := by
      have hpow : Nat.pow 16 (width + 1) = Nat.pow 16 width * 16 := rfl
      omega
    have hstep : step 16 limit (n / 16) (hexDigit (n % 16)) = .ok (n / 16 * 16 + n % 16) :=
      step_hexDigit (by omega) (by omega) (by omega)
    rw [hex, List.foldlM_append, ih hquotient (by omega)]
    show (step 16 limit (n / 16) (hexDigit (n % 16)) >>= _) = _
    rw [hstep, Nat.div_add_mod']
    rfl

/-- A word reads back from its line. -/
theorem readWord_line (w : Word) : readWord (wordLine w) = .ok w := by
  have hlt : w.toNat < Nat.pow 16 8 := w.isLt
  have hparse : Numeral.parse 16 0xffffffff (wordLine w) = .ok w.toNat := by
    rw [Numeral.parse, if_neg (by simp [wordLine, hex])]
    exact Numeral.foldlM_hex hlt (Nat.le_of_lt_succ w.isLt)
  rw [readWord, if_neg (by simp [wordLine]), hparse]
  simp

/-- Hexadecimal digits are visible characters, and none is the dot that starts a header. -/
theorem isGraphic_of_mem_hex {width n : Nat} {b : UInt8} (h : b ∈ hex width n) :
    isGraphic b ∧ b ≠ 0x2e := by
  have hdigit : ∀ d < 16, isGraphic (hexDigit d) ∧ hexDigit d ≠ 0x2e := by decide
  induction width generalizing n with
  | zero => cases h
  | succ width ih =>
    rcases List.mem_append.mp h with h | h
    · exact ih h
    · obtain rfl := List.mem_singleton.mp h
      exact hdigit _ (Nat.mod_lt _ (by omega))

/-! ## Entries -/

/-- An entry that can stand in a table and on a line of an object file. -/
structure Entry.Readable (e : Entry) : Prop where
  aligned : e.address.toNat % 4 = 0
  name_ne_nil : e.name ≠ []
  newline_notMem : Ascii.newline ∉ e.line
  dropCarriageReturn_line : dropCarriageReturn e.line = e.line
  trim_line : trim e.line = e.line

/-- An entry reads back from its line. -/
theorem readEntry_line {e : Entry} (hne : e.name ≠ []) : readEntry e.line = .ok e := by
  have hdigits : ∀ b ∈ decimal e.address.toNat, (b != Ascii.tab) = true := by
    intro b hb
    have hdigit := isDigit_of_mem_decimal hb
    rw [bne_iff_ne]
    rintro rfl
    exact absurd hdigit (by decide)
  have hspan : e.line.span (· != Ascii.tab) = (decimal e.address.toNat, Ascii.tab :: e.name) := by
    rw [List.span_eq_takeWhile_dropWhile, Entry.line, List.takeWhile_append_of_pos hdigits,
      List.dropWhile_append_of_pos hdigits]
    simp
  have hlt : e.address.toNat ≤ 0xffffffff := by
    have := e.address.isLt
    omega
  rw [readEntry, hspan]
  simp [hne, Numeral.parse_decimal hlt]

/-- The first byte of an entry's line is a digit. -/
theorem Entry.isDigit_of_mem_head? {e : Entry} {b : UInt8} (h : b ∈ e.line.head?) :
    Ascii.isDigit b := by
  obtain ⟨d, digits, hd⟩ := List.exists_cons_of_ne_nil (decimal_ne_nil e.address.toNat)
  rw [line, hd] at h
  obtain rfl : d = b := by simpa using h
  exact isDigit_of_mem_decimal (n := e.address.toNat) (hd ▸ List.mem_cons_self)

theorem isGraphic_of_isDigit {b : UInt8} (h : Ascii.isDigit b) : isGraphic b ∧ b ≠ 0x2e :=
  forall_byte (p := fun b => Ascii.isDigit b → isGraphic b ∧ b ≠ 0x2e) (by decide +kernel) b h

/-- Labels consist of visible characters. -/
theorem isGraphic_of_mem_label {label : Bytes} (h : isLabel label) {b : UInt8} (hb : b ∈ label) :
    isGraphic b :=
  forall_byte (p := fun b => isLabelByte b → isGraphic b) (by decide +kernel) b
    (isLabelByte_of_mem h hb)

/-- An entry with a label for a name can be read back. -/
theorem Entry.readable_of_isLabel {e : Entry} (ha : e.address.toNat % 4 = 0)
    (hname : isLabel e.name) : e.Readable := by
  have hne : e.name ≠ [] := by
    intro hnil
    rw [hnil] at hname
    cases hname
  have hlast : ∀ b ∈ e.line.getLast?, isGraphic b := by
    intro b hb
    have hb' : b ∈ e.name.getLast? := by
      rwa [line, ← List.singleton_append, ← List.append_assoc,
        List.getLast?_append_of_ne_nil _ hne] at hb
    exact isGraphic_of_mem_label hname (List.mem_of_getLast? hb')
  refine ⟨ha, hne, ?_, ?_, ?_⟩
  · intro hmem
    simp only [line, List.mem_append, List.mem_cons] at hmem
    rcases hmem with hmem | hmem | hmem
    · exact absurd (isDigit_of_mem_decimal hmem) (by decide)
    · exact absurd hmem (by decide)
    · exact absurd (isGraphic_of_mem_label hname hmem) (by decide)
  · rw [dropCarriageReturn, if_neg]
    intro hreturn
    exact absurd (hlast _ hreturn) (by decide)
  · refine trim_eq_self (fun b hb => ?_) hlast
    exact (isGraphic_of_isDigit (isDigit_of_mem_head? hb)).1

/-! ## Tables -/

namespace SymbolTable

/-- The table with more entries at its end. -/
def pushAll (t : SymbolTable) (entries : List Entry) : SymbolTable :=
  entries.foldl (fun t e => t.push e.name e.address) t

@[simp] theorem pushAll_nil (t : SymbolTable) : t.pushAll [] = t := rfl

@[simp] theorem pushAll_cons (t : SymbolTable) (e : Entry) (entries : List Entry) :
    t.pushAll (e :: entries) = (t.push e.name e.address).pushAll entries := rfl

@[simp] theorem entries_pushAll (t : SymbolTable) (entries : List Entry) :
    (t.pushAll entries).entries.toList = t.entries.toList ++ entries := by
  induction entries generalizing t with
  | nil => simp
  | cons e entries ih => simp [ih]

end SymbolTable

namespace Program

/-- The table that a section holds. -/
def table? (p : Program) : Section → Option SymbolTable
  | .text => none
  | .symbol => some p.symbols
  | .relocation => some p.relocations

/-- The program with another table in a section that holds one. -/
def setTable (p : Program) (t : SymbolTable) : Section → Program
  | .text => p
  | .symbol => { p with symbols := t }
  | .relocation => { p with relocations := t }

theorem table?_setTable {p : Program} {sec : Section} {t : SymbolTable}
    (h : p.table? sec = some t) (t' : SymbolTable) : (p.setTable t' sec).table? sec = some t' := by
  cases sec with
  | text => cases h
  | symbol => rfl
  | relocation => rfl

theorem setTable_of_table? {p : Program} {sec : Section} {t : SymbolTable}
    (h : p.table? sec = some t) : p.setTable t sec = p := by
  cases sec with
  | text => cases h
  | symbol => obtain rfl := Option.some.inj h; rfl
  | relocation => obtain rfl := Option.some.inj h; rfl

@[simp] theorem setTable_setTable (p : Program) (t t' : SymbolTable) (sec : Section) :
    (p.setTable t sec).setTable t' sec = p.setTable t' sec := by
  cases sec <;> rfl

end Program

/-! ## Sections -/

/-- A line that does not start with a dot is no header. -/
theorem Section.ofHeader?_eq_none {line : Bytes} (h : line.head? ≠ some 0x2e) :
    ofHeader? line = none := by
  rw [ofHeader?, List.find?_eq_none]
  intro sec _ hsame
  obtain rfl := eq_of_beq hsame
  cases sec <;> exact h rfl

theorem Section.trim_header (sec : Section) : trim sec.header = sec.header := by
  refine trim_eq_self ?_ ?_
  · intro b hb
    cases sec <;> cases hb <;> decide
  · intro b hb
    cases sec <;> cases hb <;> decide

namespace Loading

variable {l : Loading}

theorem foldlM_append_of_ok {xs : List Bytes} {l' : Loading} (h : xs.foldlM step l = .ok l')
    (ys : List Bytes) : (xs ++ ys).foldlM step l = ys.foldlM step l' := by
  rw [List.foldlM_append, h]
  rfl

theorem foldlM_cons_of_ok {x : Bytes} {l' : Loading} (h : l.step x = .ok l') (xs : List Bytes) :
    (x :: xs).foldlM step l = xs.foldlM step l' := by
  rw [List.foldlM_cons, h]
  rfl

/-- A line that is neither blank nor a header belongs to the section being read. -/
theorem step_of_content {line : Bytes} (hne : trim line ≠ [])
    (hheader : Section.ofHeader? (trim line) = none) {l' : Loading}
    (hcontent : content { l with lines := l.lines + 1 } (trim line) = .ok l') :
    l.step line = .ok l' := by
  rw [step]
  simp [hne, hheader, hcontent]

theorem step_of_blank {line : Bytes} (h : trim line = []) :
    l.step line = .ok { l with lines := l.lines + 1, current := none } := by
  rw [step, h]
  rfl

theorem step_of_header {line : Bytes} {sec : Section} (h : trim line = sec.header)
    (hnew : sec ∉ l.seen) :
    l.step line =
      .ok { l with lines := l.lines + 1, current := some sec, seen := sec :: l.seen } := by
  have hof : Section.ofHeader? sec.header = some sec := by cases sec <;> decide
  have hne : sec.header.isEmpty = false := by cases sec <;> decide
  rw [step, h]
  simp [hne, hof, hnew]

/-- A word more is read. -/
theorem step_word (h : l.current = some .text) (w : Word) :
    l.step (wordLine w) = .ok { l with
      lines := l.lines + 1
      program := { l.program with text := l.program.text.push w } } := by
  have hgraphic : ∀ b ∈ wordLine w, isGraphic b ∧ b ≠ 0x2e := fun b hb => isGraphic_of_mem_hex hb
  have hne : wordLine w ≠ [] := by
    rw [← List.length_pos_iff, wordLine, length_hex]
    omega
  have htrim : trim (wordLine w) = wordLine w :=
    trim_eq_self (fun b hb => (hgraphic b (List.mem_of_head? hb)).1)
      fun b hb => (hgraphic b (List.mem_of_getLast? hb)).1
  refine step_of_content (by rwa [htrim]) ?_ ?_
  · rw [htrim]
    exact Section.ofHeader?_eq_none fun hdot => (hgraphic _ (List.mem_of_head? hdot)).2 rfl
  · simp only [content, h, htrim, readWord_line]

/-- An entry more is read, if its table takes it. -/
theorem step_line {sec : Section} {t : SymbolTable} {e : Entry} (hcurrent : l.current = some sec)
    (ht : l.program.table? sec = some t) (he : e.Readable)
    (hnew : t.refusal? e.name e.address = none) :
    l.step e.line = .ok { l with
      lines := l.lines + 1
      program := l.program.setTable (t.push e.name e.address) sec } := by
  have hne : e.line ≠ [] := by simp [Entry.line]
  have hdot : e.line.head? ≠ some 0x2e := by
    intro hhead
    exact (isGraphic_of_isDigit (Entry.isDigit_of_mem_head? hhead)).2 rfl
  -- both tables are filled in the same way
  refine step_of_content (by rwa [he.trim_line]) ?_ ?_
  · rw [he.trim_line]
    exact Section.ofHeader?_eq_none hdot
  rw [he.trim_line]
  cases sec with
  | text => cases ht
  | symbol =>
    obtain rfl := Option.some.inj ht
    simp only [content, hcurrent, readEntry_line he.name_ne_nil, SymbolTable.add, hnew]
    rfl
  | relocation =>
    obtain rfl := Option.some.inj ht
    simp only [content, hcurrent, readEntry_line he.name_ne_nil, SymbolTable.add, hnew]
    rfl

/-- The words of a section are read. -/
theorem foldlM_step_words (h : l.current = some .text) (words : List Word) :
    (words.map wordLine).foldlM step l = .ok { l with
      lines := l.lines + words.length
      program := { l.program with text := l.program.text ++ words } } := by
  induction words generalizing l with
  | nil => simp; rfl
  | cons w words ih =>
    have hrest := ih (l := { l with
      lines := l.lines + 1
      program := { l.program with text := l.program.text.push w } }) h
    rw [List.map_cons, List.foldlM_cons, step_word h]
    refine hrest.trans ?_
    simp [Nat.add_assoc, Nat.add_comm 1]

/-- The entries of a section are read, if its table can take them all. -/
theorem foldlM_step_entries {sec : Section} {t : SymbolTable} (hcurrent : l.current = some sec)
    (ht : l.program.table? sec = some t) (hi : t.Indexed) {entries : List Entry}
    (hentries : ∀ e ∈ entries, e.Readable)
    (hnodup : t.unique = true → (t.names ++ entries.map (·.name)).Nodup) :
    (entries.map Entry.line).foldlM step l = .ok { l with
      lines := l.lines + entries.length
      program := l.program.setTable (t.pushAll entries) sec } := by
  -- the table grows by the entry just read, and stays free of the names still to come
  induction entries generalizing l t with
  | nil =>
    rw [SymbolTable.pushAll_nil, Program.setTable_of_table? ht]
    rfl
  | cons e entries ih =>
    have he := hentries e List.mem_cons_self
    have hnew : t.refusal? e.name e.address = none := by
      refine hi.refusal?_eq_none_iff.mpr ⟨he.aligned, fun hunique hmem => ?_⟩
      have hdisjoint := (List.nodup_append.mp (hnodup hunique)).2.2
      exact hdisjoint _ hmem _ List.mem_cons_self rfl
    have hnodup' : (t.push e.name e.address).unique = true →
        ((t.push e.name e.address).names ++ entries.map (·.name)).Nodup := by
      intro hunique
      simpa using hnodup hunique
    have hrest := ih
      (l := { l with
        lines := l.lines + 1
        program := l.program.setTable (t.push e.name e.address) sec })
      hcurrent (Program.table?_setTable ht _) (hi.push _ _)
      (fun e' he' => hentries e' (List.mem_cons_of_mem _ he')) hnodup'
    rw [Program.setTable_setTable] at hrest
    rw [List.map_cons, List.foldlM_cons, step_line hcurrent ht he hnew]
    refine hrest.trans ?_
    rw [SymbolTable.pushAll_cons, List.length_cons, Nat.add_assoc, Nat.add_comm 1]

/-- The text section is read. -/
theorem foldlM_step_text (hseen : .text ∉ l.seen) (words : List Word) :
    ∃ l', (Section.text.header :: words.map wordLine).foldlM step l = .ok l' ∧
      l'.seen = .text :: l.seen ∧
      l'.program = { l.program with text := l.program.text ++ words } := by
  rw [foldlM_cons_of_ok (step_of_header (Section.trim_header _) hseen)]
  exact ⟨_, foldlM_step_words rfl words, rfl, rfl⟩

/-- The section of a table is read, behind a blank line. -/
theorem foldlM_step_table (sec : Section) (hseen : sec ∉ l.seen) {t : SymbolTable}
    (ht : l.program.table? sec = some t) (hi : t.Indexed) {entries : List Entry}
    (hentries : ∀ e ∈ entries, e.Readable)
    (hnodup : t.unique = true → (t.names ++ entries.map (·.name)).Nodup) :
    ∃ l', ([] :: sec.header :: entries.map Entry.line).foldlM step l = .ok l' ∧
      l'.seen = sec :: l.seen ∧ l'.program = l.program.setTable (t.pushAll entries) sec := by
  have hheader := step_of_header (l := { l with lines := l.lines + 1, current := none })
    sec.trim_header hseen
  rw [foldlM_cons_of_ok (step_of_blank trim_nil), foldlM_cons_of_ok hheader]
  exact ⟨_, foldlM_step_entries (l := { l with
    lines := l.lines + 1 + 1, current := some sec, seen := sec :: l.seen }) rfl ht hi hentries
      hnodup, rfl, rfl⟩

/-- The lines of a whole file are read. -/
theorem foldlM_step_objectLines (words : List Word) {symbols relocations : List Entry}
    (hsymbols : ∀ e ∈ symbols, e.Readable) (hrelocations : ∀ e ∈ relocations, e.Readable)
    (hnodup : (symbols.map (·.name)).Nodup) :
    ∃ l, (objectLines words symbols relocations).foldlM step {} = .ok l ∧ .text ∈ l.seen ∧
      l.program =
        ⟨words.toArray, SymbolTable.symbols.pushAll symbols,
          SymbolTable.relocations.pushAll relocations⟩ := by
  obtain ⟨l₁, h₁, hseen₁, hprogram₁⟩ := foldlM_step_text (l := {}) nofun words
  obtain ⟨l₂, h₂, hseen₂, hprogram₂⟩ := foldlM_step_table (l := l₁) .symbol
    (by simp [hseen₁]) (by rw [hprogram₁]; rfl) (SymbolTable.indexed_empty true) hsymbols
    fun _ => hnodup
  obtain ⟨l₃, h₃, hseen₃, hprogram₃⟩ := foldlM_step_table (l := l₂) .relocation
    (by simp [hseen₁, hseen₂]) (by rw [hprogram₂, hprogram₁]; rfl)
    (SymbolTable.indexed_empty false) hrelocations nofun
  refine ⟨l₃, ?_, by simp [hseen₃, hseen₂, hseen₁], ?_⟩
  · rw [objectLines, List.append_assoc, foldlM_append_of_ok h₁, foldlM_append_of_ok h₂, h₃]
  · rw [hprogram₃, hprogram₂, hprogram₁]
    simp [Program.setTable, SymbolTable.symbols, SymbolTable.relocations]

/-- Where lines are read, so are those in front. -/
theorem exists_foldlM_of_append {xs ys : List Bytes} {l' : Loading}
    (h : (xs ++ ys).foldlM step l = .ok l') : ∃ m, xs.foldlM step l = .ok m := by
  rw [List.foldlM_append] at h
  cases hxs : xs.foldlM step l with
  | error e =>
    rw [hxs] at h
    cases h
  | ok m => exact ⟨m, rfl⟩

end Loading

/-! ## Files -/

/-- A file with a text section whose lines are all read is read. -/
theorem Program.read_of_scan {source : Source} {lines : List Bytes}
    (hscan : source.scan = ⟨lines, none⟩) {l : Loading}
    (hlines : lines.foldlM Loading.step {} = .ok l) (hseen : .text ∈ l.seen) :
    read source = .ok l.program := by
  rw [read, hscan]
  simp only [hlines, bind, Except.bind, hseen, if_true]
  rfl

/-- A file that cannot be read to its end, and whose lines before are all read, is not. -/
theorem Program.read_of_scan_failure {source : Source} {lines : List Bytes} {failure : ReadFailure}
    (hscan : source.scan = ⟨lines, some failure⟩) {l : Loading}
    (hlines : lines.foldlM Loading.step {} = .ok l) :
    read source = .error (.unreadable failure) := by
  rw [read, hscan]
  simp only [hlines, bind, Except.bind]
  rfl

section Files

variable (words : List Word) {symbols relocations : List Entry}

/-- What holds of headers, words, entries and the blank line holds of every line of a file. -/
theorem forall_mem_objectLines {p : Bytes → Prop} (hblank : p [])
    (hheader : ∀ sec : Section, p sec.header) (hword : ∀ w, p (wordLine w))
    (hentry : ∀ e ∈ symbols ++ relocations, p e.line) :
    ∀ line ∈ objectLines words symbols relocations, p line := by
  intro line hline
  simp only [objectLines, List.mem_append, List.mem_cons, List.mem_map] at hline hentry
  rcases hline with ((rfl | ⟨w, -, rfl⟩) | rfl | rfl | ⟨e, he, rfl⟩) | rfl | rfl | ⟨e, he, rfl⟩
  · exact hheader .text
  · exact hword w
  · exact hblank
  · exact hheader .symbol
  · exact hentry e (.inl he)
  · exact hblank
  · exact hheader .relocation
  · exact hentry e (.inr he)

theorem line_mem_objectLines {e : Entry} (h : e ∈ symbols ++ relocations) :
    e.line ∈ objectLines words symbols relocations := by
  simp only [objectLines, List.mem_append, List.mem_cons, List.mem_map] at h ⊢
  rcases h with h | h
  · exact .inl (.inr (.inr (.inr ⟨e, h, rfl⟩)))
  · exact .inr (.inr (.inr ⟨e, h, rfl⟩))

variable (hsymbols : ∀ e ∈ symbols, e.Readable) (hrelocations : ∀ e ∈ relocations, e.Readable)

include hsymbols hrelocations

theorem newline_notMem_objectLines :
    ∀ line ∈ objectLines words symbols relocations, Ascii.newline ∉ line := by
  refine forall_mem_objectLines words (by decide) (fun sec => ?_) (fun w hmem => ?_) fun e he => ?_
  · cases sec <;> decide
  · exact absurd (isGraphic_of_mem_hex hmem).1 (by decide)
  · rcases List.mem_append.mp he with he | he
    · exact (hsymbols e he).newline_notMem
    · exact (hrelocations e he).newline_notMem

theorem dropCarriageReturn_objectLines :
    ∀ line ∈ objectLines words symbols relocations, dropCarriageReturn line = line := by
  refine forall_mem_objectLines words (by decide) (fun sec => ?_) (fun w => ?_) fun e he => ?_
  · cases sec <;> decide
  · rw [dropCarriageReturn, if_neg]
    intro hreturn
    exact absurd (isGraphic_of_mem_hex (List.mem_of_getLast? hreturn)).1 (by decide)
  · rcases List.mem_append.mp he with he | he
    · exact (hsymbols e he).dropCarriageReturn_line
    · exact (hrelocations e he).dropCarriageReturn_line

/-- **An object file reads back** as what it was written from, if every entry fits the scanner's
buffer. Otherwise that, and nothing else, is wrong with it. -/
theorem read_objectLines (hnodup : (symbols.map (·.name)).Nodup) :
    Program.read ⟨unlines (objectLines words symbols relocations), none⟩ =
      if EntriesFit (symbols ++ relocations) then
        .ok ⟨words.toArray, SymbolTable.symbols.pushAll symbols,
          SymbolTable.relocations.pushAll relocations⟩
      else .error (.unreadable .tooLong) := by
  obtain ⟨l, hread, hseen, hprogram⟩ :=
    Loading.foldlM_step_objectLines words hsymbols hrelocations hnodup
  have hnewline := newline_notMem_objectLines words hsymbols hrelocations
  have hreturn := dropCarriageReturn_objectLines words hsymbols hrelocations
  by_cases hfit : EntriesFit (symbols ++ relocations)
  · have hlength : ∀ line ∈ objectLines words symbols relocations,
        line.length ≤ maxLineLength := by
      refine forall_mem_objectLines words (by decide) (fun sec => ?_) (fun w => ?_) hfit
      · cases sec <;> decide
      · rw [wordLine, length_hex]
        decide
    have hscan := scan_unlines hnewline hlength none
    rw [List.map_congr_left hreturn, List.map_id'] at hscan
    rw [if_pos hfit, Program.read_of_scan hscan hread hseen, hprogram]
  · -- the lines before the first that is too long are read, and then the scan fails
    obtain ⟨e, he, hlong⟩ : ∃ e ∈ symbols ++ relocations, maxLineLength < e.line.length := by
      by_contra hnone
      exact hfit fun e he => Nat.le_of_not_lt fun hlong => hnone ⟨e, he, hlong⟩
    have hscan := scan_unlines_of_long hnewline ⟨_, line_mem_objectLines words he, hlong⟩ none
    rw [List.map_congr_left fun line hline =>
      hreturn line ((List.takeWhile_prefix _).subset hline), List.map_id'] at hscan
    rw [← List.takeWhile_append_dropWhile (p := (·.length ≤ maxLineLength))
      (l := objectLines words symbols relocations)] at hread
    obtain ⟨m, hm⟩ := Loading.exists_foldlM_of_append hread
    rw [if_neg hfit, Program.read_of_scan_failure hscan hm]

end Files

end MipsAssembler
