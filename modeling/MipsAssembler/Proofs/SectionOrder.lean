import Mathlib.Data.List.Nodup
import Mathlib.Data.List.Pairwise
import MipsAssembler.Proofs.Loading

/-!
# Sections in any order

The sections of an object file may come in any order, and end with blank lines or with the next
header (`Arrangement`). What is read depends on the lines inside the sections only.

- `Program.Gains`: what the lines of one section add to a program.
- `Program.Gains.comm`: different sections add to different parts, so they can change places.
- `Arrangement.read_eq_ok_iff`: a file is read as a program exactly if every line fits the scanner's
  buffer and the lines of each section make its part of the program, whatever the arrangement is.
- `sections_in_any_order`: so all arrangements of the same lines give the same program, or all fail.
  Lines that look like headers need no exception: with them, every arrangement has a section twice.
- A blank line counts only if it fits, too: one that does not makes a file unreadable
  (`long_blank_line_refused`).
-/

namespace MipsAssembler

/-! ## What the lines of a section make -/

/-- The lines are read as these items, blanks around them aside. -/
def Hold {α : Type} (read : Bytes → Except ContentError α) (lines : List Bytes) (items : List α) :
    Prop :=
  lines.map (fun line => read (trim line)) = items.map .ok

/-- Adds entries one after another, up to the first that is refused. -/
def SymbolTable.addAll (t : SymbolTable) (entries : List Entry) : Except Error SymbolTable :=
  entries.foldlM (fun t e => t.add e.name e.address) t

/-- What the lines of one section add to a program. -/
inductive Program.Gains (p : Program) (lines : List Bytes) : Section → Program → Prop
  | text {words : List Word} (h : Hold readWord lines words) :
      Gains p lines .text { p with text := p.text ++ words }
  | symbol {entries : List Entry} {t : SymbolTable} (h : Hold readEntry lines entries)
      (ht : p.symbols.addAll entries = .ok t) : Gains p lines .symbol { p with symbols := t }
  | relocation {entries : List Entry} {t : SymbolTable} (h : Hold readEntry lines entries)
      (ht : p.relocations.addAll entries = .ok t) :
      Gains p lines .relocation { p with relocations := t }

/-- The program is made of the lines of its three sections. -/
structure Program.MadeOf (p : Program) (content : Section → List Bytes) : Prop where
  text : Hold readWord (content .text) p.text.toList
  symbols : ∃ entries, Hold readEntry (content .symbol) entries ∧
    SymbolTable.symbols.addAll entries = .ok p.symbols
  relocations : ∃ entries, Hold readEntry (content .relocation) entries ∧
    SymbolTable.relocations.addAll entries = .ok p.relocations

/-! ## Arrangements -/

/-- Where the sections of a file stand, and what ends them. -/
structure Arrangement where
  /-- The sections, in the order they come. -/
  order : List Section
  /-- Each of them comes once. -/
  perm : order.Perm [.text, .symbol, .relocation]
  /-- The lines behind each section; if there are none, the next header ends it. -/
  ending : Section → List Bytes
  /-- They are blank. -/
  blank : ∀ sec, ∀ line ∈ ending sec, Ascii.newline ∉ line ∧ trim line = []
  /-- Whether there is a line feed behind the last line. -/
  closed : Bool

/-- A line inside a section: there is something on it. -/
def IsContent (line : Bytes) : Prop :=
  Ascii.newline ∉ line ∧ trim line ≠ []

namespace Arrangement

/-- The lines of a section with its header and what ends it. -/
def block (a : Arrangement) (content : Section → List Bytes) (sec : Section) : List Bytes :=
  sec.header :: (content sec ++ a.ending sec)

/-- The lines of a file. -/
def lines (a : Arrangement) (content : Section → List Bytes) : List Bytes :=
  a.order.flatMap (a.block content)

/-- The text of a file. -/
def text (a : Arrangement) (content : Section → List Bytes) : Bytes :=
  if a.closed then unlines (a.lines content) else (unlines (a.lines content)).dropLast

/-- The blank lines fit the scanner's buffer. -/
def BlanksFit (a : Arrangement) : Prop :=
  ∀ sec, ∀ line ∈ a.ending sec, line.length ≤ maxLineLength

end Arrangement

/-! ## Reading a section -/

theorem hold_cons_iff {α : Type} {read : Bytes → Except ContentError α} {line : Bytes}
    {lines : List Bytes} {items : List α} :
    Hold read (line :: lines) items ↔
      ∃ item rest, items = item :: rest ∧ read (trim line) = .ok item ∧ Hold read lines rest := by
  cases items with
  | nil => simp [Hold]
  | cons item rest => simp [Hold]

theorem hold_nil_iff {α : Type} {read : Bytes → Except ContentError α} {items : List α} :
    Hold read [] items ↔ items = [] := by
  simp [Hold, eq_comm]

theorem Hold.exists_of_mem {α : Type} {read : Bytes → Except ContentError α} {lines : List Bytes}
    {items : List α} (h : Hold read lines items) {line : Bytes} (hline : line ∈ lines) :
    ∃ item, read (trim line) = .ok item := by
  have hmem : read (trim line) ∈ items.map .ok := h ▸ List.mem_map_of_mem hline
  obtain ⟨item, -, hitem⟩ := List.mem_map.mp hmem
  exact ⟨item, hitem.symm⟩

theorem SymbolTable.addAll_cons_eq_ok_iff {t t' : SymbolTable} {e : Entry} {entries : List Entry} :
    t.addAll (e :: entries) = .ok t' ↔
      ∃ grown, t.add e.name e.address = .ok grown ∧ grown.addAll entries = .ok t' := by
  rw [addAll, List.foldlM_cons, bind_eq_ok_iff]
  rfl

namespace Loading

variable {l l' : Loading}

/-- A line with something on it, and no header, is a word or an entry. -/
theorem Step.of_isContent {line : Bytes} (h : l.Step line l') (hcontent : IsContent line)
    (hheader : Section.ofHeader? (trim line) = none) :
    (∃ w, l.current = some .text ∧ readWord (trim line) = .ok w ∧ l' = { l with
      lines := l.lines + 1, program := { l.program with text := l.program.text.push w } }) ∨
    ∃ sec t t' e, l.current = some sec ∧ l.program.table? sec = some t ∧
      readEntry (trim line) = .ok e ∧ t.add e.name e.address = .ok t' ∧
      l' = { l with lines := l.lines + 1, program := l.program.setTable t' sec } := by
  -- a blank line has nothing on it, and a header is excluded
  cases h with
  | blank h => exact absurd h hcontent.2
  | header h =>
    rw [Section.ofHeader?_eq_some_iff.mpr h] at hheader
    cases hheader
  | word hcurrent h => exact .inl ⟨_, hcurrent, h, rfl⟩
  | entry hcurrent ht h hnew =>
    exact .inr ⟨_, _, _, _, hcurrent, ht, h, SymbolTable.add_eq_ok_iff.mpr ⟨hnew, rfl⟩, rfl⟩

section Content

variable {lines : List Bytes} (hlines : ∀ line ∈ lines, IsContent line)
  (hheader : ∀ line ∈ lines, Section.ofHeader? (trim line) = none)

include hlines hheader

/-- The lines of the text section are words. -/
theorem foldlM_words_eq_ok_iff (hcurrent : l.current = some .text) :
    lines.foldlM step l = .ok l' ↔ ∃ words, Hold readWord lines words ∧ l' = { l with
      lines := l.lines + lines.length
      program := { l.program with text := l.program.text ++ words } } := by
  induction lines generalizing l with
  | nil => simp [hold_nil_iff, pure, Except.pure, eq_comm]
  | cons line lines ih =>
    obtain ⟨hline, hlines⟩ := List.forall_mem_cons.mp hlines
    obtain ⟨hword, hheader⟩ := List.forall_mem_cons.mp hheader
    have hrest := fun w => ih hlines hheader (l := { l with
      lines := l.lines + 1
      program := { l.program with text := l.program.text.push w } }) hcurrent
    rw [foldlM_cons_eq_ok_iff]
    -- the text section is still open when the rest is read
    constructor
    · rintro ⟨m, hm, hfold⟩
      rcases hm.of_isContent hline hword with ⟨w, -, hw, rfl⟩ | ⟨sec, t, -, -, hsec, ht, -⟩
      · obtain ⟨words, hwords, rfl⟩ := (hrest w).mp hfold
        refine ⟨w :: words, hold_cons_iff.mpr ⟨w, words, rfl, hw, hwords⟩, ?_⟩
        simp [Nat.add_assoc, Nat.add_comm 1]
      · -- the text section holds no table
        obtain rfl := Option.some.inj (hcurrent.symm.trans hsec)
        cases ht
    · rintro ⟨words, hwords, rfl⟩
      obtain ⟨w, words, rfl, hw, hwords⟩ := hold_cons_iff.mp hwords
      refine ⟨_, .word hcurrent hw, (hrest w).mpr ⟨words, hwords, ?_⟩⟩
      simp [Nat.add_assoc, Nat.add_comm 1]

/-- The lines of a section with a table are entries that the table takes. -/
theorem foldlM_entries_eq_ok_iff {sec : Section} {t : SymbolTable}
    (hcurrent : l.current = some sec) (ht : l.program.table? sec = some t) :
    lines.foldlM step l = .ok l' ↔ ∃ entries t', Hold readEntry lines entries ∧
      t.addAll entries = .ok t' ∧ l' = { l with
        lines := l.lines + lines.length
        program := l.program.setTable t' sec } := by
  induction lines generalizing l t with
  | nil =>
    simp only [hold_nil_iff]
    constructor
    · intro h
      obtain rfl := Except.ok.inj h
      exact ⟨[], t, rfl, rfl, by rw [Program.setTable_of_table? ht]; rfl⟩
    · rintro ⟨entries, t', rfl, hadd, rfl⟩
      obtain rfl := Except.ok.inj hadd
      rw [Program.setTable_of_table? ht]
      rfl
  | cons line lines ih =>
    obtain ⟨hline, hlines⟩ := List.forall_mem_cons.mp hlines
    obtain ⟨hentry, hheader⟩ := List.forall_mem_cons.mp hheader
    have hrest := fun grown => ih hlines hheader
      (l := { l with lines := l.lines + 1, program := l.program.setTable grown sec })
      hcurrent (Program.table?_setTable ht grown)
    rw [foldlM_cons_eq_ok_iff]
    constructor
    · rintro ⟨m, hm, hfold⟩
      rcases hm.of_isContent hline hentry with
        ⟨w, htext, -⟩ | ⟨sec', t', grown, e, hsec, ht', he, hadd, rfl⟩
      · obtain rfl := Option.some.inj (hcurrent.symm.trans htext)
        cases ht
      · obtain rfl := Option.some.inj (hcurrent.symm.trans hsec)
        obtain rfl := Option.some.inj (ht.symm.trans ht')
        obtain ⟨entries, last, hentries, hlast, rfl⟩ := (hrest grown).mp hfold
        refine ⟨e :: entries, last, hold_cons_iff.mpr ⟨e, entries, rfl, he, hentries⟩,
          SymbolTable.addAll_cons_eq_ok_iff.mpr ⟨grown, hadd, hlast⟩, ?_⟩
        simp [Nat.add_assoc, Nat.add_comm 1]
    · rintro ⟨entries, last, hentries, hlast, rfl⟩
      obtain ⟨e, entries, rfl, he, hentries⟩ := hold_cons_iff.mp hentries
      obtain ⟨grown, hadd, hlast⟩ := SymbolTable.addAll_cons_eq_ok_iff.mp hlast
      obtain ⟨hnew, rfl⟩ := SymbolTable.add_eq_ok_iff.mp hadd
      refine ⟨_, .entry hcurrent ht he hnew, (hrest _).mpr ⟨entries, last, hentries, hlast, ?_⟩⟩
      simp [Nat.add_assoc, Nat.add_comm 1]

/-- The lines of a section add to the program what they hold. -/
theorem foldlM_content_eq_ok_iff {sec : Section} (hcurrent : l.current = some sec) :
    lines.foldlM step l = .ok l' ↔ ∃ p, l.program.Gains lines sec p ∧
      l' = { l with lines := l.lines + lines.length, program := p } := by
  cases sec with
  | text =>
    rw [foldlM_words_eq_ok_iff hlines hheader hcurrent]
    constructor
    · rintro ⟨words, hwords, rfl⟩
      exact ⟨_, .text hwords, rfl⟩
    · rintro ⟨p, ⟨hwords⟩, rfl⟩
      exact ⟨_, hwords, rfl⟩
  | symbol =>
    rw [foldlM_entries_eq_ok_iff hlines hheader hcurrent rfl]
    constructor
    · rintro ⟨entries, t, hentries, ht, rfl⟩
      exact ⟨_, .symbol hentries ht, rfl⟩
    · rintro ⟨p, hp, rfl⟩
      cases hp with
      | symbol hentries ht => exact ⟨_, _, hentries, ht, rfl⟩
  | relocation =>
    rw [foldlM_entries_eq_ok_iff hlines hheader hcurrent rfl]
    constructor
    · rintro ⟨entries, t, hentries, ht, rfl⟩
      exact ⟨_, .relocation hentries ht, rfl⟩
    · rintro ⟨p, hp, rfl⟩
      cases hp with
      | relocation hentries ht => exact ⟨_, _, hentries, ht, rfl⟩

end Content

/-- Blank lines end the section that is open, if there are any. -/
theorem foldlM_blanks {ending : List Bytes} (h : ∀ line ∈ ending, trim line = []) :
    ending.foldlM step l = .ok { l with
      lines := l.lines + ending.length
      current := if ending = [] then l.current else none } := by
  induction ending generalizing l with
  | nil => rfl
  | cons line ending ih =>
    obtain ⟨hline, hending⟩ := List.forall_mem_cons.mp h
    rw [foldlM_cons_of_ok (step_of_blank hline), ih hending]
    simp [Nat.add_assoc, Nat.add_comm 1]

/-! ## Headers -/

/-- The sections that lines start. -/
def headers (lines : List Bytes) : List Section :=
  lines.filterMap fun line => Section.ofHeader? (trim line)

theorem headers_header_cons (sec : Section) (lines : List Bytes) :
    headers (sec.header :: lines) = sec :: headers lines := by
  rw [headers, List.filterMap_cons, Section.ofHeader?_eq_some_iff.mpr sec.trim_header]
  rfl

theorem headers_flatMap (f : Section → List Bytes) (order : List Section) :
    headers (order.flatMap f) = order.flatMap fun sec => headers (f sec) :=
  List.filterMap_flatMap

theorem Step.seen_eq {line : Bytes} (h : l.Step line l') :
    l'.seen = (Section.ofHeader? (trim line)).toList ++ l.seen := by
  cases h with
  | blank h =>
    rw [h]
    rfl
  | header h =>
    rw [Section.ofHeader?_eq_some_iff.mpr h]
    rfl
  | word _ h =>
    rw [(Section.ofHeader?_of_readWord h).2]
    rfl
  | entry _ _ h =>
    rw [(Section.ofHeader?_of_readEntry h).2]
    rfl

theorem seen_of_foldlM {lines : List Bytes} (h : lines.foldlM step l = .ok l') :
    l'.seen = (headers lines).reverse ++ l.seen := by
  induction lines generalizing l with
  | nil =>
    obtain rfl := Except.ok.inj h
    rfl
  | cons line lines ih =>
    obtain ⟨m, hm, hrest⟩ := foldlM_cons_eq_ok_iff.mp h
    rw [ih hrest, hm.seen_eq, headers, headers, List.filterMap_cons]
    cases Section.ofHeader? (trim line) <;> simp

/-- No section starts twice in a file that is read. -/
theorem nodup_headers {lines : List Bytes} (h : lines.foldlM step {} = .ok l) :
    (headers lines).Nodup := by
  have hseen : l.seen.Nodup := by
    refine foldlM_step_induction (p := fun l => l.seen.Nodup) ?_ List.nodup_nil h
    intro m m' line _ hm hstep
    cases hstep with
    | blank | word | entry => exact hm
    | header _ hnew => exact List.nodup_cons.mpr ⟨hnew, hm⟩
  rw [seen_of_foldlM h, List.append_nil] at hseen
  exact List.nodup_reverse.mp hseen

end Loading

/-! ## One section after another -/

namespace Program

/-- What several sections add to a program, one after another. -/
def GainsAll (content : Section → List Bytes) : List Section → Program → Program → Prop
  | [], p, q => p = q
  | sec :: order, p, q => ∃ m, p.Gains (content sec) sec m ∧ GainsAll content order m q

variable {content : Section → List Bytes} {p q m : Program}

/-- Different sections add to different parts of a program. -/
theorem Gains.comm {lines lines' : List Bytes} {sec sec' : Section} (hne : sec ≠ sec')
    (h : p.Gains lines sec m) (h' : m.Gains lines' sec' q) :
    ∃ m', p.Gains lines' sec' m' ∧ m'.Gains lines sec q := by
  cases h with
  | text hw =>
    cases h' with
    | text => exact absurd rfl hne
    | symbol he ht => exact ⟨_, .symbol he ht, .text hw⟩
    | relocation he ht => exact ⟨_, .relocation he ht, .text hw⟩
  | symbol he ht =>
    cases h' with
    | text hw => exact ⟨_, .text hw, .symbol he ht⟩
    | symbol => exact absurd rfl hne
    | relocation he' ht' => exact ⟨_, .relocation he' ht', .symbol he ht⟩
  | relocation he ht =>
    cases h' with
    | text hw => exact ⟨_, .text hw, .relocation he ht⟩
    | symbol he' ht' => exact ⟨_, .symbol he' ht', .relocation he ht⟩
    | relocation => exact absurd rfl hne

/-- So their order does not matter. -/
theorem GainsAll.perm {order order' : List Section} (h : order.Perm order') (hnodup : order.Nodup)
    (hgains : GainsAll content order p q) : GainsAll content order' p q := by
  induction h generalizing p with
  | nil => exact hgains
  | cons sec _ ih =>
    obtain ⟨m, hm, hrest⟩ := hgains
    exact ⟨m, hm, ih hnodup.of_cons hrest⟩
  | swap sec sec' order =>
    -- the first two sections are different, so they can change places
    obtain ⟨m, hm, m', hm', hrest⟩ := hgains
    obtain ⟨n, hn, hn'⟩ := hm.comm (by rintro rfl; simp at hnodup) hm'
    exact ⟨n, hn, m', hn', hrest⟩
  | trans h _ ih ih' => exact ih' (h.nodup_iff.mp hnodup) (ih hnodup hgains)

/-- The words and entries of a program stand on lines that are no headers. -/
theorem MadeOf.ofHeader?_eq_none (h : p.MadeOf content) (sec : Section) :
    ∀ line ∈ content sec, Section.ofHeader? (trim line) = none := by
  intro line hline
  cases sec with
  | text =>
    obtain ⟨w, hw⟩ := h.text.exists_of_mem hline
    exact (Section.ofHeader?_of_readWord hw).2
  | symbol =>
    obtain ⟨entries, hentries, -⟩ := h.symbols
    obtain ⟨e, he⟩ := hentries.exists_of_mem hline
    exact (Section.ofHeader?_of_readEntry he).2
  | relocation =>
    obtain ⟨entries, hentries, -⟩ := h.relocations
    obtain ⟨e, he⟩ := hentries.exists_of_mem hline
    exact (Section.ofHeader?_of_readEntry he).2

/-- What all three sections make out of nothing. -/
theorem gainsAll_iff_madeOf :
    GainsAll content [.text, .symbol, .relocation] {} p ↔ p.MadeOf content := by
  constructor
  · rintro ⟨m, ⟨hw⟩, m', hm', m'', hm'', rfl⟩
    cases hm' with
    | symbol he ht =>
      cases hm'' with
      | relocation he' ht' => exact ⟨by simpa using hw, ⟨_, he, ht⟩, ⟨_, he', ht'⟩⟩
  · rintro ⟨hw, ⟨entries, he, ht⟩, ⟨entries', he', ht'⟩⟩
    refine ⟨_, .text hw, _, .symbol he ht, _, .relocation he' ht', ?_⟩
    simp [GainsAll]

end Program

namespace Arrangement

variable {content : Section → List Bytes} {l l' : Loading} {p : Program}

section Blocks

variable (hcontent : ∀ sec, ∀ line ∈ content sec, IsContent line)
  (hheader : ∀ sec, ∀ line ∈ content sec, Section.ofHeader? (trim line) = none)

include hcontent hheader

/-- A section is read if it is new and its lines can be added. -/
theorem foldlM_block_eq_ok_iff (a : Arrangement) {sec : Section} (hnew : sec ∉ l.seen) :
    (a.block content sec).foldlM Loading.step l = .ok l' ↔
      ∃ p, l.program.Gains (content sec) sec p ∧ l' = {
        program := p
        current := if a.ending sec = [] then some sec else none
        seen := sec :: l.seen
        lines := l.lines + 1 + (content sec).length + (a.ending sec).length } := by
  have hblank : ∀ line ∈ a.ending sec, trim line = [] := fun line h => (a.blank sec line h).2
  rw [block, Loading.foldlM_cons_of_ok (Loading.step_of_header sec.trim_header hnew),
    Loading.foldlM_append_eq_ok_iff]
  simp only [Loading.foldlM_content_eq_ok_iff (hcontent sec) (hheader sec)
    (l := { l with lines := l.lines + 1, current := some sec, seen := sec :: l.seen }) rfl,
    Loading.foldlM_blanks hblank]
  constructor
  · rintro ⟨m, ⟨p, hp, rfl⟩, hl'⟩
    exact ⟨p, hp, (Except.ok.inj hl').symm⟩
  · rintro ⟨p, hp, rfl⟩
    exact ⟨_, ⟨p, hp, rfl⟩, rfl⟩

/-- The sections of a file are read one after another. -/
theorem exists_foldlM_blocks_iff (a : Arrangement) {order : List Section} (hnodup : order.Nodup)
    (hnew : ∀ sec ∈ order, sec ∉ l.seen) :
    (∃ l', (order.flatMap (a.block content)).foldlM Loading.step l = .ok l' ∧ l'.program = p) ↔
      Program.GainsAll content order l.program p := by
  induction order generalizing l with
  | nil => simp [Program.GainsAll, pure, Except.pure]
  | cons sec order ih =>
    obtain ⟨hsec, hnodup⟩ := List.nodup_cons.mp hnodup
    obtain ⟨hfresh, hnew⟩ := List.forall_mem_cons.mp hnew
    have hnew' : ∀ sec' ∈ order, sec' ∉ sec :: l.seen := by
      intro sec' hmem
      rw [List.mem_cons, not_or]
      exact ⟨fun heq => hsec (heq ▸ hmem), hnew sec' hmem⟩
    have hrest := fun q => ih (l := {
      program := q
      current := if a.ending sec = [] then some sec else none
      seen := sec :: l.seen
      lines := l.lines + 1 + (content sec).length + (a.ending sec).length }) hnodup hnew'
    simp only [List.flatMap_cons, Loading.foldlM_append_eq_ok_iff,
      a.foldlM_block_eq_ok_iff hcontent hheader hfresh]
    constructor
    · rintro ⟨l', ⟨m, ⟨q, hq, rfl⟩, hl'⟩, hp⟩
      exact ⟨q, hq, (hrest q).mp ⟨l', hl', hp⟩⟩
    · rintro ⟨q, hq, hgains⟩
      obtain ⟨l', hl', hp⟩ := (hrest q).mpr hgains
      exact ⟨l', ⟨_, ⟨q, hq, rfl⟩, hl'⟩, hp⟩

end Blocks

theorem mem_order (a : Arrangement) (sec : Section) : sec ∈ a.order := by
  rw [a.perm.mem_iff]
  cases sec <;> decide

theorem nodup_order (a : Arrangement) : a.order.Nodup :=
  a.perm.nodup_iff.mpr (by decide)

theorem headers_block (a : Arrangement) (content : Section → List Bytes) (sec : Section) :
    Loading.headers (a.block content sec) =
      sec :: Loading.headers (content sec ++ a.ending sec) :=
  Loading.headers_header_cons sec _

/-- In a file that is read, no line inside a section is a header: that section starts elsewhere. -/
theorem ofHeader?_eq_none_of_foldlM (a : Arrangement)
    (h : (a.lines content).foldlM Loading.step {} = .ok l) (sec : Section) :
    ∀ line ∈ content sec, Section.ofHeader? (trim line) = none := by
  have hnodup := Loading.nodup_headers h
  rw [lines, Loading.headers_flatMap, List.nodup_flatMap] at hnodup
  obtain ⟨hblock, hdisjoint⟩ := hnodup
  intro line hline
  cases hsec : Section.ofHeader? (trim line) with
  | none => rfl
  | some sec' =>
    have hmem : sec' ∈ Loading.headers (content sec ++ a.ending sec) :=
      List.mem_filterMap.mpr ⟨line, List.mem_append_left _ hline, hsec⟩
    -- it would repeat the header of this section, or that of another
    by_cases heq : sec = sec'
    · have htwice := hblock sec (a.mem_order sec)
      rw [headers_block, List.nodup_cons] at htwice
      exact absurd (heq ▸ hmem) htwice.1
    · have : Std.Symm (Function.onFun List.Disjoint fun sec =>
          Loading.headers (a.block content sec)) := ⟨fun _ _ h _ hx hy => h hy hx⟩
      have hin : sec' ∈ Loading.headers (a.block content sec) := by
        rw [headers_block]
        exact List.mem_cons_of_mem _ hmem
      have hown : sec' ∈ Loading.headers (a.block content sec') := by
        rw [headers_block]
        exact List.mem_cons_self
      exact (hdisjoint.forall (a.mem_order sec) (a.mem_order sec') heq hin hown).elim

theorem text_mem_seen (a : Arrangement)
    (h : (a.lines content).foldlM Loading.step {} = .ok l) : .text ∈ l.seen := by
  rw [Loading.seen_of_foldlM h, List.append_nil, List.mem_reverse, lines, Loading.headers_flatMap]
  refine List.mem_flatMap.mpr ⟨.text, a.mem_order .text, ?_⟩
  rw [headers_block]
  exact List.mem_cons_self

/-- The lines of a file are read exactly if those inside the sections make a program. -/
theorem exists_foldlM_lines_iff (hcontent : ∀ sec, ∀ line ∈ content sec, IsContent line)
    (a : Arrangement) :
    (∃ l, (a.lines content).foldlM Loading.step {} = .ok l ∧ .text ∈ l.seen ∧ l.program = p) ↔
      p.MadeOf content := by
  rw [← Program.gainsAll_iff_madeOf]
  constructor
  · rintro ⟨l, hl, -, hp⟩
    have hheader := a.ofHeader?_eq_none_of_foldlM hl
    have hgains := (a.exists_foldlM_blocks_iff (l := {}) hcontent hheader a.nodup_order
      fun _ _ => List.not_mem_nil).mp ⟨l, hl, hp⟩
    exact hgains.perm a.perm a.nodup_order
  · intro hgains
    have hheader := (Program.gainsAll_iff_madeOf.mp hgains).ofHeader?_eq_none
    obtain ⟨l, hl, hp⟩ := (a.exists_foldlM_blocks_iff (l := {}) hcontent hheader a.nodup_order
      fun _ _ => List.not_mem_nil).mpr (hgains.perm a.perm.symm (by decide))
    exact ⟨l, hl, a.text_mem_seen hl, hp⟩

/-- What holds of headers, of the lines inside the sections and of the blank lines holds of every
line of a file. -/
theorem forall_mem_lines_iff (a : Arrangement) {P : Bytes → Prop}
    (hheader : ∀ sec : Section, P sec.header) :
    (∀ line ∈ a.lines content, P line) ↔
      (∀ sec, ∀ line ∈ a.ending sec, P line) ∧ ∀ sec, ∀ line ∈ content sec, P line := by
  simp only [lines, List.forall_mem_flatMap, block, List.forall_mem_cons, List.forall_mem_append,
    a.mem_order, hheader, true_and, true_imp_iff, forall_and]
  exact and_comm

/-- The line feed behind the last line makes no difference. -/
theorem read_text_eq_ok_iff (a : Arrangement) (content : Section → List Bytes) :
    Program.read ⟨a.text content, none⟩ = .ok p ↔
      Program.read ⟨unlines (a.lines content), none⟩ = .ok p := by
  rw [text]
  split
  · rfl
  · have hne : a.lines content ≠ [] := by
      refine List.ne_nil_of_mem (a := Section.text.header) ?_
      exact List.mem_flatMap.mpr ⟨.text, a.mem_order .text, List.mem_cons_self⟩
    obtain ⟨init, line, hlines⟩ := (List.eq_nil_or_concat' _).resolve_left hne
    have hend : unlines (a.lines content) = (unlines init ++ line) ++ [Ascii.newline] := by
      simp [hlines]
    rw [hend, List.dropLast_concat, Program.read_append_newline]

/-- **What an object file holds**: it is read exactly if its lines fit the scanner's buffer and make
a program, in whatever order the sections come and whatever ends them. -/
theorem read_eq_ok_iff (hcontent : ∀ sec, ∀ line ∈ content sec, IsContent line)
    (a : Arrangement) :
    Program.read ⟨a.text content, none⟩ = .ok p ↔
      a.BlanksFit ∧ (∀ sec, ∀ line ∈ content sec, line.length ≤ maxLineLength) ∧
        p.MadeOf content := by
  have hnewline : ∀ line ∈ a.lines content, Ascii.newline ∉ line := by
    refine (a.forall_mem_lines_iff fun sec => ?_).mpr ⟨fun sec line hline => ?_,
      fun sec line hline => ?_⟩
    · cases sec <;> decide
    · exact (a.blank sec line hline).1
    · exact (hcontent sec line hline).1
  have hfits : LinesFit (unlines (a.lines content)) ↔
      a.BlanksFit ∧ ∀ sec, ∀ line ∈ content sec, line.length ≤ maxLineLength := by
    rw [linesFit_unlines hnewline]
    refine a.forall_mem_lines_iff fun sec => ?_
    cases sec <;> decide
  have hlines : linePieces (unlines (a.lines content)) = a.lines content := by
    simp [linePieces, pieces_unlines hnewline]
  rw [read_text_eq_ok_iff, Program.read_eq_ok_iff]
  dsimp only
  rw [hfits, hlines, a.exists_foldlM_lines_iff hcontent, eq_self_iff_true, true_and, and_assoc]

end Arrangement

/-- **Sections may come in any order**: all files with the same lines inside their sections are read
as the same program, or none is. They are read exactly if the lines fit and make a program. -/
theorem sections_in_any_order {content : Section → List Bytes}
    (hcontent : ∀ sec, ∀ line ∈ content sec, IsContent line) :
    ((∃ p, ∀ a : Arrangement, a.BlanksFit → Program.read ⟨a.text content, none⟩ = .ok p) ∨
      ∀ a : Arrangement, a.BlanksFit → ∃ e, Program.read ⟨a.text content, none⟩ = .error e) ∧
    ∀ (a : Arrangement) (p : Program), Program.read ⟨a.text content, none⟩ = .ok p ↔
      a.BlanksFit ∧ (∀ sec, ∀ line ∈ content sec, line.length ≤ maxLineLength) ∧
        p.MadeOf content := by
  refine ⟨?_, fun a p => a.read_eq_ok_iff hcontent⟩
  -- whether the lines fit and make a program does not depend on the arrangement
  by_cases h : ∃ p : Program,
      (∀ sec, ∀ line ∈ content sec, line.length ≤ maxLineLength) ∧ p.MadeOf content
  · obtain ⟨p, hp⟩ := h
    exact .inl ⟨p, fun a ha => (a.read_eq_ok_iff hcontent).mpr ⟨ha, hp⟩⟩
  · refine .inr fun a _ => ?_
    cases hread : Program.read ⟨a.text content, none⟩ with
    | error e => exact ⟨e, rfl⟩
    | ok p => exact absurd ⟨p, ((a.read_eq_ok_iff hcontent).mp hread).2⟩ h

/-- Lines inside the sections of a small file. -/
def smallContent : Section → List Bytes
  | .text => [ascii " 00000010"]
  | .symbol => [ascii "4\tmain"]
  | .relocation => []

/-- The program in it. -/
def smallProgram : Program :=
  ⟨#[0x10], SymbolTable.symbols.push (ascii "main") 4, .relocations⟩

/-- The sections in the order they are written in, with a blank line between them. -/
def Arrangement.written (blank : Bytes) (h : Ascii.newline ∉ blank ∧ trim blank = []) :
    Arrangement where
  order := [.text, .symbol, .relocation]
  perm := .rfl
  ending
    | .relocation => []
    | _ => [blank]
  blank := by
    rintro (_ | _ | _)
    · simpa using h
    · simpa using h
    · exact nofun
  closed := true

/-- The sections the other way round, with two blank lines behind the first. -/
def Arrangement.reversed : Arrangement where
  order := [.relocation, .symbol, .text]
  perm := by decide
  ending
    | .relocation => [ascii " \t", []]
    | _ => []
  blank := by rintro (_ | _ | _) <;> decide +kernel
  closed := false

theorem isContent_smallContent : ∀ sec, ∀ line ∈ smallContent sec, IsContent line := by
  unfold IsContent
  rintro (_ | _ | _) <;> decide +kernel

theorem length_smallContent : ∀ sec, ∀ line ∈ smallContent sec, line.length ≤ maxLineLength := by
  rintro (_ | _ | _) <;> decide

theorem madeOf_smallProgram : smallProgram.MadeOf smallContent := by
  have hnew : SymbolTable.symbols.refusal? (ascii "main") 4 = none :=
    (SymbolTable.indexed_empty true).refusal?_eq_none_iff.mpr ⟨by decide, nofun⟩
  constructor
  · unfold Hold
    decide +kernel
  · refine ⟨[⟨ascii "main", 4⟩], by unfold Hold; decide +kernel, ?_⟩
    exact SymbolTable.addAll_cons_eq_ok_iff.mpr ⟨_, SymbolTable.add_eq_ok_iff.mpr ⟨hnew, rfl⟩, rfl⟩
  · exact ⟨[], rfl, rfl⟩

/-- The same program, in two arrangements. -/
theorem sections_in_any_order_reversed :
    (∀ sec, ∀ line ∈ smallContent sec, IsContent line) ∧
    Program.read ⟨ascii ".relocation\n \t\n\n.symbol\n4\tmain\n.text\n 00000010", none⟩ =
      .ok smallProgram ∧
    Program.read ⟨ascii ".text\n 00000010\n\n.symbol\n4\tmain\n\n.relocation\n", none⟩ =
      .ok smallProgram := by
  have hread := (sections_in_any_order isContent_smallContent).2
  refine ⟨isContent_smallContent, ?_, ?_⟩
  · exact (hread .reversed smallProgram).mpr
      ⟨by rintro (_ | _ | _) <;> decide, length_smallContent, madeOf_smallProgram⟩
  · exact (hread (.written [] (by decide +kernel)) smallProgram).mpr
      ⟨by rintro (_ | _ | _) <;> decide, length_smallContent, madeOf_smallProgram⟩

/-- A line of spaces only, longer than the scanner's buffer. -/
def longBlank : Bytes := List.replicate 65536 Ascii.space

theorem longBlank_spec : Ascii.newline ∉ longBlank ∧ trim longBlank = [] := by
  constructor
  · intro hmem
    exact absurd (List.eq_of_mem_replicate hmem) (by decide)
  · have hblanks : ∀ blank ∈ List.replicate 65536 [Ascii.space], blank ∈ blanks := by
      intro blank hblank
      rw [List.eq_of_mem_replicate hblank]
      decide
    have htrim := trim_flatten hblanks
    rwa [List.flatten_replicate_singleton] at htrim

/-- A blank line that does not fit the scanner's buffer makes a file unreadable, where an empty line
in its place does not. -/
theorem long_blank_line_refused :
    (∀ sec, ∀ line ∈ smallContent sec, IsContent line) ∧
    (∀ sec, ∀ line ∈ smallContent sec, Section.ofHeader? (trim line) = none) ∧
    Program.read ⟨(Arrangement.written [] (by decide +kernel)).text smallContent, none⟩ =
      .ok smallProgram ∧
    ∃ e, Program.read ⟨(Arrangement.written longBlank longBlank_spec).text smallContent, none⟩ =
      .error e := by
  refine ⟨isContent_smallContent, madeOf_smallProgram.ofHeader?_eq_none, ?_, ?_⟩
  · exact (Arrangement.read_eq_ok_iff isContent_smallContent _).mpr
      ⟨by rintro (_ | _ | _) <;> decide, length_smallContent, madeOf_smallProgram⟩
  · cases hread : Program.read
      ⟨(Arrangement.written longBlank longBlank_spec).text smallContent, none⟩ with
    | error e => exact ⟨e, rfl⟩
    | ok p =>
      have hblanks := ((Arrangement.read_eq_ok_iff isContent_smallContent _).mp hread).1
      have hlength := hblanks .text longBlank List.mem_cons_self
      rw [longBlank, List.length_replicate, maxLineLength] at hlength
      omega

end MipsAssembler
