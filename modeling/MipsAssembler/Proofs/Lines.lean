import Mathlib.Data.List.TakeDrop
import Mathlib.Data.List.TakeWhile
import MipsAssembler.Text.Line

/-!
# Lines written and read back

Both texts that the assembler writes, the one between its passes and the object file, are lists of
lines with a line feed behind each (`unlines`). Reading such a text gives the lines back
(`scan_unlines`), up to the first that does not fit the scanner's buffer (`scan_unlines_of_long`).

Any text that ends with a line feed keeps its lines when more is written behind it
(`scan_lines_append`).
-/

namespace MipsAssembler

/-- Lines with a line feed behind each. -/
def unlines (lines : List Bytes) : Bytes :=
  lines.flatMap (· ++ [Ascii.newline])

/-- Every line of a text fits the scanner's buffer. -/
def LinesFit (text : Bytes) : Prop :=
  ∀ line ∈ pieces (· == Ascii.newline) text, line.length ≤ maxLineLength

instance (text : Bytes) : Decidable (LinesFit text) :=
  inferInstanceAs (Decidable (∀ line ∈ _, _))

@[simp] theorem unlines_nil : unlines [] = [] := rfl

@[simp] theorem unlines_cons (line : Bytes) (lines : List Bytes) :
    unlines (line :: lines) = line ++ Ascii.newline :: unlines lines := by
  simp [unlines]

@[simp] theorem unlines_append (lines more : List Bytes) :
    unlines (lines ++ more) = unlines lines ++ unlines more := by
  simp [unlines]

/-! ## Pieces -/

/-- The text up to the first separator is the first piece. -/
theorem pieces_append_separator {p : UInt8 → Bool} {line : Bytes} {sep : UInt8}
    (hline : ∀ b ∈ line, p b = false) (hsep : p sep) (rest : Bytes) :
    pieces p (line ++ sep :: rest) = line :: pieces p rest := by
  induction line with
  | nil => exact pieces_cons_of_separator hsep rest
  | cons b line ih =>
    rw [List.cons_append, pieces_cons_of_not_separator (hline b (by simp))]
    simp [ih fun c hc => hline c (by simp [hc])]

/-- The pieces on the two sides of a separator are found independently. -/
theorem pieces_append_cons {p : UInt8 → Bool} {sep : UInt8} (hsep : p sep) (text rest : Bytes) :
    pieces p (text ++ sep :: rest) = pieces p text ++ pieces p rest := by
  induction text with
  | nil => exact pieces_cons_of_separator hsep rest
  | cons b text ih =>
    cases hb : p b with
    | true =>
      rw [List.cons_append, pieces_cons_of_separator hb, pieces_cons_of_separator hb, ih,
        List.cons_append]
    | false =>
      have hne : pieces p text ≠ [] := by simp [pieces]
      rw [List.cons_append, pieces_cons_of_not_separator hb, pieces_cons_of_not_separator hb]
      simp only [ih, List.head_append_of_ne_nil hne, List.tail_append_of_ne_nil hne,
        List.cons_append]

theorem length_pieces (p : UInt8 → Bool) (text : Bytes) :
    (pieces p text).length = text.countP p + 1 := by
  induction text with
  | nil => rfl
  | cons b text ih =>
    cases hb : p b with
    | true => rw [pieces_cons_of_separator hb, List.length_cons, ih, List.countP_cons_of_pos hb]
    | false =>
      have hne : (pieces p text).length ≠ 0 := by simp [pieces]
      rw [pieces_cons_of_not_separator hb, List.length_cons, List.length_tail, ih,
        List.countP_cons_of_neg (by simp [hb])]
      omega

/-- A piece is made of bytes of the text that are no separators. -/
theorem mem_of_mem_pieces {p : UInt8 → Bool} {text piece : Bytes} (h : piece ∈ pieces p text)
    {b : UInt8} (hb : b ∈ piece) : b ∈ text ∧ p b = false := by
  induction text generalizing piece with
  | nil =>
    obtain rfl : piece = [] := by simpa using h
    cases hb
  | cons c text ih =>
    cases hc : p c with
    | true =>
      rw [pieces_cons_of_separator hc] at h
      rcases List.mem_cons.mp h with rfl | h
      · cases hb
      · exact ⟨List.mem_cons_of_mem _ (ih h hb).1, (ih h hb).2⟩
    | false =>
      rw [pieces_cons_of_not_separator hc] at h
      rcases List.mem_cons.mp h with rfl | h
      · rcases List.mem_cons.mp hb with rfl | hb
        · exact ⟨List.mem_cons_self, hc⟩
        · have := ih (List.head_mem _) hb
          exact ⟨List.mem_cons_of_mem _ this.1, this.2⟩
      · have := ih (List.mem_of_mem_tail h) hb
        exact ⟨List.mem_cons_of_mem _ this.1, this.2⟩

/-- The pieces of written lines are these lines, and an empty one behind the last line feed. -/
theorem pieces_unlines {lines : List Bytes} (h : ∀ line ∈ lines, Ascii.newline ∉ line) :
    pieces (· == Ascii.newline) (unlines lines) = lines ++ [[]] := by
  induction lines with
  | nil => rfl
  | cons line lines ih =>
    have hline : ∀ b ∈ line, (b == Ascii.newline) = false := by
      intro b hb
      rw [beq_eq_false_iff_ne]
      rintro rfl
      exact h line List.mem_cons_self hb
    rw [unlines_cons, pieces_append_separator hline (by simp),
      ih fun l hl => h l (List.mem_cons_of_mem _ hl), List.cons_append]

theorem linesFit_unlines {lines : List Bytes} (h : ∀ line ∈ lines, Ascii.newline ∉ line) :
    LinesFit (unlines lines) ↔ ∀ line ∈ lines, line.length ≤ maxLineLength := by
  rw [LinesFit, pieces_unlines h]
  constructor
  · intro hall line hl
    exact hall line (List.mem_append_left _ hl)
  · intro hall line hl
    rcases List.mem_append.mp hl with hl | hl
    · exact hall line hl
    · obtain rfl : line = [] := by simpa using hl
      exact Nat.zero_le _

/-! ## Scanning -/

/-- Where every line fits, no piece is left over. -/
theorem fittingPieces_of_linesFit {text : Bytes} (h : LinesFit text) :
    fittingPieces text = (pieces (· == Ascii.newline) text, []) := by
  have hall : ∀ line ∈ pieces (· == Ascii.newline) text,
      decide (line.length ≤ maxLineLength) = true := fun line hl => decide_eq_true (h line hl)
  rw [fittingPieces, List.span_eq_takeWhile_dropWhile, List.takeWhile_eq_self_iff.mpr hall,
    List.dropWhile_eq_nil_iff.mpr hall]

/-- Where every line fits, only the reader can end the text before its time. -/
theorem scan_failure_of_linesFit {source : Source} (h : LinesFit source.text) :
    source.scan.failure = source.failure.map .device := by
  rw [Source.scan, fittingPieces_of_linesFit h]

/-- The lines of a scan fit the scanner's buffer. -/
theorem length_le_of_mem_scan {source : Source} {line : Bytes} (h : line ∈ source.scan.lines) :
    line.length ≤ maxLineLength := by
  have hfitting : ∀ piece ∈ (fittingPieces source.text).1, piece.length ≤ maxLineLength := by
    intro piece hpiece
    rw [fittingPieces, List.span_eq_takeWhile_dropWhile] at hpiece
    simpa using List.mem_takeWhile_imp hpiece
  -- a line is one of these pieces, perhaps without the carriage return at its end
  have hpiece : ∃ piece ∈ (fittingPieces source.text).1, dropCarriageReturn piece = line := by
    rw [Source.scan] at h
    split at h
    · next fitting _ _ hsplit =>
      rw [hsplit]
      exact List.mem_map.mp h
    · next fitting hsplit =>
      rw [hsplit]
      obtain ⟨piece, hmem, hline⟩ := List.mem_map.mp h
      refine ⟨piece, ?_, hline⟩
      split at hmem
      · exact List.dropLast_subset _ hmem
      · exact hmem
  obtain ⟨piece, hmem, rfl⟩ := hpiece
  have hlength := hfitting piece hmem
  rw [dropCarriageReturn]
  split
  · rw [List.length_dropLast]
    omega
  · exact hlength

/-- Written lines are read back if they all fit. -/
theorem scan_unlines {lines : List Bytes} (h : ∀ line ∈ lines, Ascii.newline ∉ line)
    (hfit : ∀ line ∈ lines, line.length ≤ maxLineLength) (failure : Option Bytes) :
    (Source.mk (unlines lines) failure).scan =
      ⟨lines.map dropCarriageReturn, failure.map .device⟩ := by
  have hfitting : fittingPieces (unlines lines) = (lines ++ [[]], []) := by
    rw [fittingPieces_of_linesFit ((linesFit_unlines h).mpr hfit), pieces_unlines h]
  simp [Source.scan, hfitting]

/-- Written lines are read back up to the first that does not fit. -/
theorem scan_unlines_of_long {lines : List Bytes} (h : ∀ line ∈ lines, Ascii.newline ∉ line)
    (hlong : ∃ line ∈ lines, maxLineLength < line.length) (failure : Option Bytes) :
    (Source.mk (unlines lines) failure).scan =
      ⟨(lines.takeWhile (·.length ≤ maxLineLength)).map dropCarriageReturn, some .tooLong⟩ := by
  obtain ⟨long, hmem, hlen⟩ := hlong
  have hne : lines.dropWhile (·.length ≤ maxLineLength) ≠ [] := by
    rw [Ne, List.dropWhile_eq_nil_iff]
    intro hall
    have := of_decide_eq_true (hall long hmem)
    omega
  -- the long line comes before the empty piece at the end, so the cut is inside `lines`
  have hsplit : (lines ++ [[]]).span (·.length ≤ maxLineLength) =
      (lines.takeWhile (·.length ≤ maxLineLength),
        lines.dropWhile (·.length ≤ maxLineLength) ++ [[]]) := by
    have hshort : (lines.takeWhile (·.length ≤ maxLineLength)).length ≠ lines.length := by
      intro hlen
      apply hne
      have := congrArg List.length
        (List.takeWhile_append_dropWhile (p := (·.length ≤ maxLineLength)) (l := lines))
      rw [List.length_append] at this
      exact List.length_eq_zero_iff.mp (by omega)
    rw [List.span_eq_takeWhile_dropWhile, List.takeWhile_append, if_neg hshort,
      List.dropWhile_append, if_neg (by simpa using hne)]
  obtain ⟨first, rest, hrest⟩ := List.exists_cons_of_ne_nil hne
  have hfitting : fittingPieces (unlines lines) =
      (lines.takeWhile (·.length ≤ maxLineLength), first :: (rest ++ [[]])) := by
    rw [fittingPieces, pieces_unlines h, hsplit, hrest, List.cons_append]
  rw [Source.scan, hfitting]

/-! ## Texts one behind the other -/

/-- A cut behind some elements is behind all of them, or among them. -/
theorem takeWhile_append_cases {α : Type} (p : α → Bool) (xs ys : List α) :
    (∀ x ∈ xs, p x) ∧ (xs ++ ys).takeWhile p = xs.takeWhile p ++ ys.takeWhile p ∨
      ¬ (∀ x ∈ xs, p x) ∧ (xs ++ ys).takeWhile p = xs.takeWhile p := by
  by_cases hall : ∀ x ∈ xs, p x
  · refine .inl ⟨hall, ?_⟩
    rw [List.takeWhile_append_of_pos hall, List.takeWhile_eq_self_iff.mpr hall]
  · refine .inr ⟨hall, ?_⟩
    rw [List.takeWhile_append, if_neg]
    intro hlength
    exact hall (List.takeWhile_eq_self_iff.mp ((List.takeWhile_prefix p).eq_of_length hlength))

/-- The pieces of a text that are lines: what is left behind the last line feed is one unless it is
empty. -/
def linePieces (text : Bytes) : List Bytes :=
  let all := pieces (· == Ascii.newline) text
  if all.getLast? = some [] then all.dropLast else all

/-- A scan delivers the lines up to the first that does not fit. -/
theorem scan_lines_eq (source : Source) :
    source.scan.lines =
      ((linePieces source.text).takeWhile (·.length ≤ maxLineLength)).map dropCarriageReturn := by
  rw [Source.scan, fittingPieces, List.span_eq_takeWhile_dropWhile, linePieces]
  generalize pieces (· == Ascii.newline) source.text = all
  cases hrest : all.dropWhile (·.length ≤ maxLineLength) with
  | nil =>
    have hfit := List.dropWhile_eq_nil_iff.mp hrest
    dsimp only
    rw [List.takeWhile_eq_self_iff.mpr hfit]
    split
    · rw [List.takeWhile_eq_self_iff.mpr fun line hl => hfit line (List.dropLast_subset _ hl)]
    · rw [List.takeWhile_eq_self_iff.mpr hfit]
  | cons long rest =>
    dsimp only
    split
    · next hlast =>
      -- the empty piece at the end fits, so the long one comes before it
      obtain ⟨before, rfl⟩ := List.getLast?_eq_some_iff.mp hlast
      rw [List.dropLast_concat]
      rcases takeWhile_append_cases (·.length ≤ maxLineLength) before [[]] with
        ⟨hall, -⟩ | ⟨-, hcut⟩
      · rw [List.dropWhile_append_of_pos hall] at hrest
        cases hrest
      · rw [hcut]
    · rfl

/-- The lines of a text that ends with a line feed come first, whatever follows it. -/
theorem linePieces_append {text : Bytes} (h : text = [] ∨ text.getLast? = some Ascii.newline)
    (rest : Bytes) : linePieces (text ++ rest) = linePieces text ++ linePieces rest := by
  rcases h with rfl | hlast
  · rfl
  · obtain ⟨before, rfl⟩ := List.getLast?_eq_some_iff.mp hlast
    have hpieces : ∀ rest, pieces (· == Ascii.newline) (before ++ [Ascii.newline] ++ rest) =
        pieces (· == Ascii.newline) before ++ pieces (· == Ascii.newline) rest := by
      intro rest
      rw [List.append_assoc, List.singleton_append, pieces_append_cons (by simp)]
    have hfirst : linePieces (before ++ [Ascii.newline]) = pieces (· == Ascii.newline) before := by
      have hend := hpieces []
      rw [List.append_nil, pieces_nil] at hend
      simp [linePieces, hend]
    have hne : pieces (· == Ascii.newline) rest ≠ [] := by simp [pieces]
    obtain ⟨init, last, hrest⟩ : ∃ init last, pieces (· == Ascii.newline) rest = init ++ [last] :=
      ⟨_, _, (List.dropLast_concat_getLast hne).symm⟩
    rw [hfirst, linePieces, linePieces, hpieces, hrest, ← List.append_assoc, List.getLast?_concat,
      List.getLast?_concat, List.dropLast_concat, List.dropLast_concat]
    split
    · rfl
    · rw [List.append_assoc]

/-- A text that ends with a line feed has as many lines as line feeds. -/
theorem length_linePieces {text : Bytes} (h : text = [] ∨ text.getLast? = some Ascii.newline) :
    (linePieces text).length = text.count Ascii.newline := by
  rcases h with rfl | hlast
  · rfl
  · have hend : (pieces (· == Ascii.newline) text).getLast? = some [] := by
      obtain ⟨before, rfl⟩ := List.getLast?_eq_some_iff.mp hlast
      rw [pieces_append_cons (by simp), pieces_nil, List.getLast?_concat]
    rw [linePieces, if_pos hend, List.length_dropLast, length_pieces, List.count_eq_countP]
    rfl

/-- What is appended behind a line feed adds lines behind those of the text; and if there are more
then those of the text all fit. -/
theorem scan_lines_append {text : Bytes} (h : text = [] ∨ text.getLast? = some Ascii.newline)
    (rest : Bytes) (failure failure' : Option Bytes) :
    ∃ more, (Source.mk (text ++ rest) failure).scan.lines =
        (Source.mk text failure').scan.lines ++ more ∧
      (more = [] ∨ (Source.mk text failure').scan.lines.length = text.count Ascii.newline) := by
  rw [scan_lines_eq, scan_lines_eq]
  dsimp only
  rw [linePieces_append h]
  rcases takeWhile_append_cases (·.length ≤ maxLineLength) (linePieces text) (linePieces rest) with
    ⟨hall, hcut⟩ | ⟨-, hcut⟩
  · rw [hcut, List.map_append]
    refine ⟨_, rfl, .inr ?_⟩
    rw [List.length_map, List.takeWhile_eq_self_iff.mpr hall, length_linePieces h]
  · rw [hcut]
    exact ⟨[], by rw [List.append_nil], .inl rfl⟩

end MipsAssembler
