import MipsAssembler.Proofs.Literals
import MipsAssembler.Proofs.ObjectFile

/-!
# What reading an object file can do

`Loading.Step` says what one line of an object file can do to what was read before: it ends a
section, starts one, or adds a word or an entry to the one that is open. Nothing else is accepted
(`Loading.step_eq_ok_iff`), so what holds of every step holds of every file that is read
(`Loading.foldlM_step_induction`).

`Program.read_eq_ok_iff` says when a file is read: every line fits the scanner's buffer, every line
is accepted, and there is a text section. The line feed behind the last line makes no difference
(`Program.read_append_newline`).
-/

namespace MipsAssembler

/-! ## Headers, words and entries -/

theorem Section.ofHeader?_eq_some_iff {line : Bytes} {sec : Section} :
    ofHeader? line = some sec ↔ line = sec.header := by
  constructor
  · intro h
    have hfound := List.find?_some h
    exact (eq_of_beq hfound).symm
  · rintro rfl
    cases sec <;> decide

/-- No header is as long as a word. -/
theorem Section.ofHeader?_of_readWord {line : Bytes} {w : Word} (h : readWord line = .ok w) :
    line ≠ [] ∧ ofHeader? line = none := by
  have hlength : line.length = 8 := by
    by_contra hlength
    rw [readWord, if_pos hlength] at h
    cases h
  constructor
  · rintro rfl
    cases hlength
  · cases hof : ofHeader? line with
    | none => rfl
    | some sec =>
      obtain rfl := ofHeader?_eq_some_iff.mp hof
      cases sec <;> exact absurd hlength (by decide)

/-- An entry is an address, a tab and a name that is not empty. -/
theorem exists_of_readEntry {line : Bytes} {e : Entry} (h : readEntry line = .ok e) :
    ∃ address value, line = address ++ Ascii.tab :: e.name ∧ e.name ≠ [] ∧
      Numeral.parse 10 0xffffffff address = .ok value ∧ e.address = BitVec.ofNat 32 value := by
  rw [readEntry, List.span_eq_takeWhile_dropWhile] at h
  have hline := List.takeWhile_append_dropWhile (p := (· != Ascii.tab)) (l := line)
  cases hrest : line.dropWhile (· != Ascii.tab) with
  | nil =>
    rw [hrest] at h
    cases h
  | cons b name =>
    have hb : b = Ascii.tab := by
      have hhead := List.head_dropWhile_not (· != Ascii.tab) (l := line) (by simp [hrest])
      simpa [hrest] using hhead
    rw [hrest] at h hline
    dsimp only at h
    split at h
    · cases h
    · next hname =>
      split at h
      · next value hvalue =>
        obtain rfl := Except.ok.inj h
        rw [hb] at hline
        exact ⟨_, value, hline.symm, by simpa using hname, hvalue, rfl⟩
      · cases h

/-- No header holds a tab. -/
theorem Section.ofHeader?_of_readEntry {line : Bytes} {e : Entry} (h : readEntry line = .ok e) :
    line ≠ [] ∧ ofHeader? line = none := by
  obtain ⟨address, -, rfl, -⟩ := exists_of_readEntry h
  refine ⟨by simp, ?_⟩
  cases hof : ofHeader? (address ++ Ascii.tab :: e.name) with
  | none => rfl
  | some sec =>
    have hmem : Ascii.tab ∈ sec.header := by
      rw [← ofHeader?_eq_some_iff.mp hof]
      simp
    cases sec <;> exact absurd hmem (by decide)

/-! ## Steps -/

namespace Loading

/-- What a line can do to what was read before it. -/
inductive Step (l : Loading) (line : Bytes) : Loading → Prop
  /-- A blank line ends a section. -/
  | blank (h : trim line = []) : Step l line { l with lines := l.lines + 1, current := none }
  /-- A header starts a section that was not met before. -/
  | header {sec : Section} (h : trim line = sec.header) (hnew : sec ∉ l.seen) :
      Step l line { l with lines := l.lines + 1, current := some sec, seen := sec :: l.seen }
  /-- A line of the text section is a word. -/
  | word {w : Word} (hcurrent : l.current = some .text) (h : readWord (trim line) = .ok w) :
      Step l line { l with
        lines := l.lines + 1, program := { l.program with text := l.program.text.push w } }
  /-- A line of another section is an entry that its table takes. -/
  | entry {sec : Section} {t : SymbolTable} {e : Entry} (hcurrent : l.current = some sec)
      (ht : l.program.table? sec = some t) (h : readEntry (trim line) = .ok e)
      (hnew : t.refusal? e.name e.address = none) :
      Step l line { l with
        lines := l.lines + 1, program := l.program.setTable (t.push e.name e.address) sec }

variable {l l' : Loading}

theorem Step.of_content {line : Bytes}
    (h : content { l with lines := l.lines + 1 } (trim line) = .ok l') : l.Step line l' := by
  rw [content] at h
  split at h
  · cases h
  · next hcurrent =>
    split at h
    · cases h
    · next w hw =>
      obtain rfl := Except.ok.inj h
      exact Step.word (l := l) hcurrent hw
  · next hcurrent =>
    split at h
    · cases h
    · next e he =>
      split at h
      · cases h
      · next t ht =>
        obtain rfl := Except.ok.inj h
        obtain ⟨hnew, rfl⟩ := SymbolTable.add_eq_ok_iff.mp ht
        exact Step.entry (l := l) hcurrent rfl he hnew
  · next hcurrent =>
    split at h
    · cases h
    · next e he =>
      split at h
      · cases h
      · next t ht =>
        obtain rfl := Except.ok.inj h
        obtain ⟨hnew, rfl⟩ := SymbolTable.add_eq_ok_iff.mp ht
        exact Step.entry (l := l) hcurrent rfl he hnew

theorem content_of_entry {sec : Section} {t : SymbolTable} {line : Bytes} {e : Entry}
    (hcurrent : l.current = some sec) (ht : l.program.table? sec = some t)
    (h : readEntry line = .ok e) (hnew : t.refusal? e.name e.address = none) :
    l.content line =
      .ok { l with program := l.program.setTable (t.push e.name e.address) sec } := by
  cases sec with
  | text => cases ht
  | symbol =>
    obtain rfl := Option.some.inj ht
    simp only [content, hcurrent, h, SymbolTable.add, hnew]
    rfl
  | relocation =>
    obtain rfl := Option.some.inj ht
    simp only [content, hcurrent, h, SymbolTable.add, hnew]
    rfl

/-- A line is accepted exactly if it is one of these. -/
theorem step_eq_ok_iff {line : Bytes} : l.step line = .ok l' ↔ l.Step line l' := by
  constructor
  · intro h
    rw [step] at h
    dsimp only at h
    split at h
    · next hblank =>
      obtain rfl := Except.ok.inj h
      exact .blank (by simpa using hblank)
    · split at h
      · next sec hsec =>
        split at h
        · cases h
        · next hnew =>
          obtain rfl := Except.ok.inj h
          exact .header (Section.ofHeader?_eq_some_iff.mp hsec) hnew
      · split at h
        · next hcontent =>
          obtain rfl := Except.ok.inj h
          exact .of_content hcontent
        · cases h
  · rintro (h | ⟨h, hnew⟩ | ⟨hcurrent, h⟩ | ⟨hcurrent, ht, h, hnew⟩)
    · exact step_of_blank h
    · exact step_of_header h hnew
    · obtain ⟨hne, hheader⟩ := Section.ofHeader?_of_readWord h
      exact step_of_content hne hheader (by simp only [content, hcurrent, h])
    · obtain ⟨hne, hheader⟩ := Section.ofHeader?_of_readEntry h
      exact step_of_content hne hheader (content_of_entry hcurrent ht h hnew)

theorem foldlM_cons_eq_ok_iff {line : Bytes} {lines : List Bytes} :
    (line :: lines).foldlM step l = .ok l' ↔
      ∃ m, l.Step line m ∧ lines.foldlM step m = .ok l' := by
  simp only [List.foldlM_cons, bind_eq_ok_iff, step_eq_ok_iff]

theorem foldlM_append_eq_ok_iff {lines more : List Bytes} :
    (lines ++ more).foldlM step l = .ok l' ↔
      ∃ m, lines.foldlM step l = .ok m ∧ more.foldlM step m = .ok l' := by
  rw [List.foldlM_append, bind_eq_ok_iff]

/-- What every accepted line keeps is kept by all of them. -/
theorem foldlM_step_induction {p : Loading → Prop} {lines : List Bytes}
    (hstep : ∀ m m' line, line ∈ lines → p m → m.Step line m' → p m') (hstart : p l)
    (h : lines.foldlM step l = .ok l') : p l' := by
  induction lines generalizing l with
  | nil =>
    obtain rfl := Except.ok.inj h
    exact hstart
  | cons line lines ih =>
    obtain ⟨m, hm, hrest⟩ := foldlM_cons_eq_ok_iff.mp h
    refine ih (fun m m' line hmem => hstep m m' line (List.mem_cons_of_mem _ hmem)) ?_ hrest
    exact hstep _ _ _ List.mem_cons_self hstart hm

/-- A carriage return at the end of a line does not count. -/
theorem foldlM_step_dropCarriageReturn (lines : List Bytes) :
    (lines.map dropCarriageReturn).foldlM step l = lines.foldlM step l := by
  rw [List.foldlM_map]
  congr 1
  funext m line
  rw [step, step, trim_dropCarriageReturn]

end Loading

/-! ## Files -/

theorem mem_pieces_of_mem_linePieces {text line : Bytes} (h : line ∈ linePieces text) :
    line ∈ pieces (· == Ascii.newline) text := by
  rw [linePieces] at h
  split at h
  · exact List.dropLast_subset _ h
  · exact h

/-- A text is scanned to its end exactly if the reader does not fail and every line fits. -/
theorem Source.scan_failure_eq_none_iff {source : Source} :
    source.scan.failure = none ↔ source.failure = none ∧ LinesFit source.text := by
  by_cases hfit : LinesFit source.text
  · simp [scan_failure_of_linesFit hfit, hfit]
  · have hrest : (fittingPieces source.text).2 ≠ [] := by
      rw [fittingPieces, List.span_eq_takeWhile_dropWhile]
      intro hnil
      exact hfit fun line hline => by simpa using List.dropWhile_eq_nil_iff.mp hnil line hline
    obtain ⟨long, rest, hlong⟩ := List.exists_cons_of_ne_nil hrest
    have hscan : source.scan.failure = some .tooLong := by
      rw [scan]
      split
      · rfl
      · next hnil =>
        rw [hnil] at hlong
        cases hlong
    simp [hscan, hfit]

theorem Source.scan_lines_of_linesFit {source : Source} (h : LinesFit source.text) :
    source.scan.lines = (linePieces source.text).map dropCarriageReturn := by
  rw [scan_lines_eq, List.takeWhile_eq_self_iff.mpr]
  intro line hline
  exact decide_eq_true (h line (mem_pieces_of_mem_linePieces hline))

namespace Program

/-- A file is read exactly if its lines fit the scanner's buffer and are accepted, and it has a text
section. -/
theorem read_eq_ok_iff {source : Source} {p : Program} :
    read source = .ok p ↔ source.failure = none ∧ LinesFit source.text ∧
      ∃ l, (linePieces source.text).foldlM Loading.step {} = .ok l ∧ .text ∈ l.seen ∧
        l.program = p := by
  rw [← and_assoc, ← Source.scan_failure_eq_none_iff, read, bind_eq_ok_iff]
  cases hfailure : source.scan.failure with
  | some failure => simp [throw, throwThe, MonadExceptOf.throw]
  | none =>
    have hfit := (Source.scan_failure_eq_none_iff.mp hfailure).2
    rw [Source.scan_lines_of_linesFit hfit, Loading.foldlM_step_dropCarriageReturn]
    rw [eq_self_iff_true, true_and]
    refine exists_congr fun l => and_congr_right fun _ => ?_
    by_cases hseen : Section.text ∈ l.seen
    · simp [hseen, pure, Except.pure]
    · simp [hseen, throw, throwThe, MonadExceptOf.throw]

/-- A line feed at the end of a file makes no difference. -/
theorem read_append_newline {text : Bytes} {p : Program} :
    read ⟨text ++ [Ascii.newline], none⟩ = .ok p ↔ read ⟨text, none⟩ = .ok p := by
  have hpieces : pieces (· == Ascii.newline) (text ++ [Ascii.newline]) =
      pieces (· == Ascii.newline) text ++ [[]] := by
    rw [pieces_append_cons (by simp), pieces_nil]
  have hfit : LinesFit (text ++ [Ascii.newline]) ↔ LinesFit text := by
    simp [LinesFit, hpieces, or_imp, forall_and]
  have hlines : linePieces (text ++ [Ascii.newline]) = pieces (· == Ascii.newline) text := by
    simp [linePieces, hpieces]
  rw [read_eq_ok_iff, read_eq_ok_iff, hfit, hlines, linePieces]
  dsimp only
  split
  · -- the line feed adds a blank line, which adds nothing to the program
    next hlast =>
    obtain ⟨lines, hlines⟩ := List.getLast?_eq_some_iff.mp hlast
    rw [hlines, List.dropLast_concat]
    refine and_congr_right fun _ => and_congr_right fun _ => ?_
    constructor
    · rintro ⟨l, hl, hseen, hp⟩
      obtain ⟨m, hm, hend⟩ := Loading.foldlM_append_eq_ok_iff.mp hl
      rw [List.foldlM_cons, Loading.step_of_blank trim_nil] at hend
      obtain rfl := Except.ok.inj hend
      exact ⟨m, hm, hseen, hp⟩
    · rintro ⟨m, hm, hseen, hp⟩
      refine ⟨{ m with lines := m.lines + 1, current := none },
        Loading.foldlM_append_eq_ok_iff.mpr ⟨m, hm, ?_⟩, hseen, hp⟩
      rw [List.foldlM_cons, Loading.step_of_blank trim_nil]
      rfl
  · rfl

end Program

end MipsAssembler
