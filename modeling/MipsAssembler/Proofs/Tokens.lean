import MipsAssembler.Proofs.Lines
import MipsAssembler.Pseudo

/-!
# Tokens and canonical instructions

What the first pass writes, the second reads back: `tokens` undoes the joining by single spaces
(`tokens_spaced`) for every list of tokens, whatever bytes they hold besides the delimiters and the
number sign. The instructions of the first pass are made of such tokens: those of a statement come
from the source line (`Statement.wellFormed_of_parse`), and expanding a pseudo-instruction only adds
mnemonics, `$zero` and numbers (`RawInstruction.wellFormed_of_expand`).
-/

namespace MipsAssembler

/-- A byte that belongs to a token wherever it stands. -/
def isTokenByte (b : UInt8) : Bool :=
  !isDelimiter b && b != Ascii.hash

/-- A token: not empty, without delimiters and without the start of a comment. -/
structure IsToken (token : Bytes) : Prop where
  ne_nil : token ≠ []
  all : ∀ b ∈ token, isTokenByte b

/-- Every part of the instruction is a token. -/
def RawInstruction.WellFormed (i : RawInstruction) : Prop :=
  ∀ token ∈ i.name :: i.args, IsToken token

/-- What holds of the 256 bytes by their numbers holds of every byte. -/
theorem forall_byte {p : UInt8 → Prop} (h : ∀ n : Fin 256, p (.ofFin n)) (b : UInt8) : p b :=
  h b.toFin

theorem isTokenByte_iff {b : UInt8} :
    isTokenByte b ↔ isDelimiter b = false ∧ b ≠ Ascii.hash := by
  simp [isTokenByte]

/-! ## Reading tokens -/

/-- What `tokens` gives are tokens. -/
theorem isToken_of_mem_tokens {line token : Bytes} (h : token ∈ tokens line) : IsToken token := by
  obtain ⟨hpiece, hne⟩ := List.mem_filter.mp h
  refine ⟨by simpa using hne, fun b hb => isTokenByte_iff.mpr ?_⟩
  obtain ⟨hmem, hdelim⟩ := mem_of_mem_pieces hpiece hb
  exact ⟨hdelim, by simpa using List.mem_takeWhile_imp hmem⟩

theorem stripComment_of_forall {line : Bytes} (h : ∀ b ∈ line, b ≠ Ascii.hash) :
    stripComment line = line :=
  List.takeWhile_eq_self_iff.mpr fun b hb => by simpa using h b hb

/-! ## Joining tokens -/

@[simp] theorem spaced_singleton (part : Bytes) : spaced [part] = part := by
  simp [spaced]

theorem spaced_cons {parts : List Bytes} (h : parts ≠ []) (part : Bytes) :
    spaced (part :: parts) = part ++ Ascii.space :: spaced parts := by
  rw [spaced, List.intercalate_cons_of_ne_nil h, List.append_assoc]
  rfl

/-- The bytes of joined parts are those of the parts and the space. -/
theorem mem_spaced {parts : List Bytes} {b : UInt8} (h : b ∈ spaced parts) :
    b = Ascii.space ∨ ∃ part ∈ parts, b ∈ part := by
  induction parts with
  | nil => cases h
  | cons part parts ih =>
    by_cases hne : parts = []
    · subst hne
      rw [spaced_singleton] at h
      exact .inr ⟨part, List.mem_cons_self, h⟩
    · rw [spaced_cons hne, List.mem_append, List.mem_cons] at h
      rcases h with h | h | h
      · exact .inr ⟨part, List.mem_cons_self, h⟩
      · exact .inl h
      · exact (ih h).imp_right fun ⟨q, hq, hb⟩ => ⟨q, List.mem_cons_of_mem _ hq, hb⟩

/-- Joined tokens are cut apart at the spaces between them. -/
theorem pieces_spaced {parts : List Bytes} (hne : parts ≠ []) (h : ∀ t ∈ parts, IsToken t) :
    pieces isDelimiter (spaced parts) = parts := by
  induction parts with
  | nil => exact absurd rfl hne
  | cons part parts ih =>
    have hpart : ∀ b ∈ part, isDelimiter b = false := fun b hb =>
      (isTokenByte_iff.mp ((h part List.mem_cons_self).all b hb)).1
    by_cases hp : parts = []
    · subst hp
      rw [spaced_singleton]
      exact pieces_eq_singleton hpart
    · rw [spaced_cons hp, pieces_append_separator hpart (by decide),
        ih hp fun t ht => h t (List.mem_cons_of_mem _ ht)]

/-- Tokens joined by single spaces are read back. -/
theorem tokens_spaced {parts : List Bytes} (h : ∀ t ∈ parts, IsToken t) :
    tokens (spaced parts) = parts := by
  by_cases hne : parts = []
  · subst hne
    rfl
  have hstrip : stripComment (spaced parts) = spaced parts := by
    refine stripComment_of_forall fun b hb => ?_
    rcases mem_spaced hb with rfl | ⟨part, hp, hb⟩
    · decide
    · exact (isTokenByte_iff.mp ((h part hp).all b hb)).2
  rw [tokens, hstrip, pieces_spaced hne h, List.filter_eq_self]
  intro t ht
  simpa using (h t ht).ne_nil

theorem tokens_of_isToken {token : Bytes} (h : IsToken token) : tokens token = [token] := by
  have htokens : tokens (spaced [token]) = [token] :=
    tokens_spaced (List.forall_mem_singleton.mpr h)
  rwa [spaced_singleton] at htokens

/-- A token ends at a delimiter. -/
theorem tokens_append_delimiter {token : Bytes} (htoken : IsToken token) {d : UInt8}
    (hd : isDelimiter d) (rest : Bytes) : tokens (token ++ d :: rest) = token :: tokens rest := by
  have hbytes : ∀ b ∈ token, isDelimiter b = false ∧ b ≠ Ascii.hash :=
    fun b hb => isTokenByte_iff.mp (htoken.all b hb)
  have hstrip : stripComment (token ++ d :: rest) = token ++ d :: stripComment rest := by
    have hhash : (d != Ascii.hash) = true := by
      rw [bne_iff_ne]
      rintro rfl
      exact absurd hd (by decide)
    rw [stripComment, List.takeWhile_append_of_pos fun b hb => by simpa using (hbytes b hb).2,
      List.takeWhile_cons_of_pos (p := (· != Ascii.hash)) hhash]
    rfl
  rw [tokens, hstrip, pieces_append_separator (fun b hb => (hbytes b hb).1) hd,
    List.filter_cons_of_pos (by simpa using htoken.ne_nil)]
  rfl

/-! ## Canonical instructions -/

namespace RawInstruction

/-- A byte of a rendered instruction is the space or belongs to a token. -/
theorem WellFormed.mem_render {i : RawInstruction} (h : i.WellFormed) {b : UInt8}
    (hb : b ∈ i.render) : b = Ascii.space ∨ isTokenByte b :=
  (mem_spaced hb).imp_right fun ⟨t, ht, hbt⟩ => (h t ht).all b hbt

theorem WellFormed.newline_notMem_render {i : RawInstruction} (h : i.WellFormed) :
    Ascii.newline ∉ i.render := by
  intro hmem
  rcases h.mem_render hmem with h | h <;> exact absurd h (by decide)

/-- No carriage return is dropped from a rendered instruction. -/
theorem WellFormed.dropCarriageReturn_render {i : RawInstruction} (h : i.WellFormed) :
    dropCarriageReturn i.render = i.render := by
  rw [dropCarriageReturn, if_neg]
  intro hlast
  rcases h.mem_render (List.mem_of_getLast? hlast) with h | h <;> exact absurd h (by decide)

/-- The tokens of a rendered instruction are its parts. -/
theorem WellFormed.tokens_render {i : RawInstruction} (h : i.WellFormed) :
    tokens i.render = i.name :: i.args :=
  tokens_spaced h

/-- A rendered instruction reads back as itself. -/
theorem WellFormed.ofTokens?_tokens_render {i : RawInstruction} (h : i.WellFormed) :
    ofTokens? (tokens i.render) = some i := by
  rw [h.tokens_render]
  rfl

end RawInstruction

section Rendered

variable {instructions : List RawInstruction} (h : ∀ i ∈ instructions, i.WellFormed)

include h

theorem newline_notMem_of_mem_render :
    ∀ line ∈ instructions.map RawInstruction.render, Ascii.newline ∉ line := by
  intro line hline
  obtain ⟨i, hi, rfl⟩ := List.mem_map.mp hline
  exact (h i hi).newline_notMem_render

theorem dropCarriageReturn_of_mem_render :
    ∀ line ∈ instructions.map RawInstruction.render, dropCarriageReturn line = line := by
  intro line hline
  obtain ⟨i, hi, rfl⟩ := List.mem_map.mp hline
  exact (h i hi).dropCarriageReturn_render

/-- Rendered instructions are read back as lines, if they all fit. -/
theorem scan_unlines_render
    (hfit : ∀ line ∈ instructions.map RawInstruction.render, line.length ≤ maxLineLength) :
    (Source.mk (unlines (instructions.map RawInstruction.render)) none).scan =
      ⟨instructions.map RawInstruction.render, none⟩ := by
  rw [scan_unlines (newline_notMem_of_mem_render h) hfit,
    List.map_congr_left (dropCarriageReturn_of_mem_render h), List.map_id']
  rfl

/-- Rendered instructions are read back as lines up to the first that does not fit. -/
theorem scan_unlines_render_of_long
    (hlong : ∃ line ∈ instructions.map RawInstruction.render, maxLineLength < line.length) :
    (Source.mk (unlines (instructions.map RawInstruction.render)) none).scan =
      ⟨(instructions.map RawInstruction.render).takeWhile (·.length ≤ maxLineLength),
        some .tooLong⟩ := by
  rw [scan_unlines_of_long (newline_notMem_of_mem_render h) hlong, List.map_congr_left, List.map_id']
  intro line hline
  exact dropCarriageReturn_of_mem_render h line ((List.takeWhile_prefix _).subset hline)

end Rendered

/-! ## Instructions of a source line -/

/-- The instruction on a list of tokens has these tokens for its parts. -/
theorem RawInstruction.wellFormed_of_ofTokens? {toks : List Bytes} {i : RawInstruction}
    (htoks : ∀ t ∈ toks, IsToken t) (h : ofTokens? toks = some i) : i.WellFormed := by
  cases toks with
  | nil => cases h
  | cons name args =>
    obtain rfl := Option.some.inj h
    exact htoks

section Colon

variable {label : Bytes} (h : Ascii.colon ∉ label)

include h

theorem bne_colon_of_mem : ∀ b ∈ label, (b != Ascii.colon) = true := by
  intro b hb
  rw [bne_iff_ne]
  rintro rfl
  exact h hb

theorem takeWhile_colon (rest : Bytes) :
    (label ++ Ascii.colon :: rest).takeWhile (· != Ascii.colon) = label := by
  rw [List.takeWhile_append_of_pos (bne_colon_of_mem h), List.takeWhile_cons_of_neg (by simp),
    List.append_nil]

/-- Without a colon the first token is the mnemonic. -/
theorem Statement.ofTokens_of_no_colon (tail : List Bytes) :
    ofTokens (label :: tail) = .ok { instruction := some ⟨label, tail⟩ } := by
  rw [ofTokens, List.span_eq_takeWhile_dropWhile,
    List.dropWhile_eq_nil_iff.mpr (bne_colon_of_mem h)]

/-- The first colon ends the label, and what stands behind it is the mnemonic, unless it is
empty. -/
theorem Statement.ofTokens_of_colon (rest : Bytes) (tail : List Bytes) :
    ofTokens ((label ++ Ascii.colon :: rest) :: tail) =
      if isLabel label then
        .ok { label := some label,
              instruction :=
                RawInstruction.ofTokens? (if rest.isEmpty then tail else rest :: tail) }
      else .error (.invalidLabel label) := by
  rw [ofTokens, List.span_eq_takeWhile_dropWhile, takeWhile_colon h,
    List.dropWhile_append_of_pos (bne_colon_of_mem h), List.dropWhile_cons_of_neg (by simp)]

end Colon

theorem RawInstruction.WellFormed.parse_render {i : RawInstruction} (h : i.WellFormed) :
    Statement.parse i.render = Statement.ofTokens (i.name :: i.args) := by
  rw [Statement.parse, h.tokens_render]

/-- Without a colon in its mnemonic, a rendered instruction is all there is on its line. -/
theorem RawInstruction.WellFormed.parse_render_of_no_colon {i : RawInstruction}
    (h : i.WellFormed) (hcolon : Ascii.colon ∉ i.name) :
    Statement.parse i.render = .ok { instruction := some i } := by
  rw [h.parse_render, Statement.ofTokens_of_no_colon hcolon]

/-- The instruction of a statement is made of tokens, and its label is a label. What stands behind
the colon of a label is part of a token, so it is one itself unless it is empty. -/
theorem Statement.wellFormed_of_ofTokens {toks : List Bytes} {st : Statement}
    (htoks : ∀ t ∈ toks, IsToken t) (h : ofTokens toks = .ok st) :
    (∀ i, st.instruction = some i → i.WellFormed) ∧ ∀ l, st.label = some l → isLabel l := by
  cases toks with
  | nil =>
    obtain rfl := Except.ok.inj h
    exact ⟨nofun, nofun⟩
  | cons head tail =>
    by_cases hcolon : Ascii.colon ∈ head
    · obtain ⟨label, rest, rfl, hnot⟩ := List.eq_append_cons_of_mem hcolon
      rw [ofTokens_of_colon hnot] at h
      split at h
      · next hlabel =>
        obtain rfl := Except.ok.inj h
        refine ⟨fun i hi => RawInstruction.wellFormed_of_ofTokens? ?_ hi, fun l hl => ?_⟩
        · have htail : ∀ t ∈ tail, IsToken t := fun t ht => htoks t (List.mem_cons_of_mem _ ht)
          split
          · exact htail
          · next hne =>
            intro t ht
            rcases List.mem_cons.mp ht with rfl | ht
            · refine ⟨by simpa using hne, fun b hb => ?_⟩
              exact (htoks _ List.mem_cons_self).all b (by simp [hb])
            · exact htail t ht
        · obtain rfl := Option.some.inj hl
          exact hlabel
      · cases h
    · rw [ofTokens_of_no_colon hcolon] at h
      obtain rfl := Except.ok.inj h
      refine ⟨fun i hi => ?_, nofun⟩
      obtain rfl := Option.some.inj hi
      exact htoks

theorem Statement.wellFormed_of_parse {text : Bytes} {st : Statement} {i : RawInstruction}
    (h : parse text = .ok st) (hi : st.instruction = some i) : i.WellFormed :=
  (wellFormed_of_ofTokens (fun _ ht => isToken_of_mem_tokens ht) h).1 i hi

theorem Statement.isLabel_of_parse {text label : Bytes} {st : Statement}
    (h : parse text = .ok st) (hl : st.label = some label) : isLabel label :=
  (wellFormed_of_ofTokens (fun _ ht => isToken_of_mem_tokens ht) h).2 label hl

/-- A line is refused only for what stands before the first colon of its first token. -/
theorem Statement.parse_eq_error_iff {line : Bytes} {e : Rejection} :
    parse line = .error e ↔ ∃ head, (tokens line).head? = some head ∧ Ascii.colon ∈ head ∧
      isLabel (head.takeWhile (· != Ascii.colon)) = false ∧
      e = .invalidLabel (head.takeWhile (· != Ascii.colon)) := by
  rw [parse]
  cases tokens line with
  | nil => simp [ofTokens]
  | cons head tail =>
    simp only [List.head?_cons, Option.some.injEq, exists_eq_left']
    by_cases hcolon : Ascii.colon ∈ head
    · obtain ⟨label, rest, rfl, hnot⟩ := List.eq_append_cons_of_mem hcolon
      rw [ofTokens_of_colon hnot, takeWhile_colon hnot]
      by_cases hlabel : isLabel label
      · simp [hlabel]
      · simp [hlabel, eq_comm]
    · simp [ofTokens_of_no_colon hcolon, hcolon]

theorem Statement.exists_parse_iff {line : Bytes} :
    (∃ st, parse line = .ok st) ↔ ∀ head, (tokens line).head? = some head → Ascii.colon ∈ head →
      isLabel (head.takeWhile (· != Ascii.colon)) := by
  cases hparse : parse line with
  | ok st =>
    refine ⟨fun _ head hhead hcolon => ?_, fun _ => ⟨st, rfl⟩⟩
    by_contra hlabel
    have herror := parse_eq_error_iff.mpr ⟨head, hhead, hcolon, by simpa using hlabel, rfl⟩
    rw [hparse] at herror
    cases herror
  | error e =>
    obtain ⟨head, hhead, hcolon, hlabel, -⟩ := parse_eq_error_iff.mp hparse
    constructor
    · nofun
    · intro hall
      rw [hall head hhead hcolon] at hlabel
      cases hlabel

theorem isLabelByte_of_mem {label : Bytes} (h : isLabel label) {b : UInt8} (hb : b ∈ label) :
    isLabelByte b := by
  cases label with
  | nil => cases hb
  | cons first rest =>
    obtain ⟨hfirst, hrest⟩ := Bool.and_eq_true_iff.mp h
    rcases List.mem_cons.mp hb with rfl | hb
    · rw [isLabelByte, hfirst]
      rfl
    · exact List.all_eq_true.mp hrest b hb

theorem isTokenByte_of_isLabelByte {b : UInt8} (h : isLabelByte b) :
    isTokenByte b ∧ b ≠ Ascii.colon :=
  forall_byte (p := fun b => isLabelByte b → isTokenByte b ∧ b ≠ Ascii.colon) (by decide +kernel)
    b h

theorem colon_notMem_of_isLabel {label : Bytes} (h : isLabel label) : Ascii.colon ∉ label :=
  fun hmem => (isTokenByte_of_isLabelByte (isLabelByte_of_mem h hmem)).2 rfl

/-- A label with its colon, and the start of a mnemonic right behind it, are one token. -/
theorem isToken_labelled {label : Bytes} (h : isLabel label) (rest : Bytes)
    (hrest : ∀ b ∈ rest, isTokenByte b) : IsToken (label ++ Ascii.colon :: rest) := by
  refine ⟨by simp, fun b hb => ?_⟩
  rcases List.mem_append.mp hb with hb | hb
  · exact (isTokenByte_of_isLabelByte (isLabelByte_of_mem h hb)).1
  · rcases List.mem_cons.mp hb with rfl | hb
    · decide
    · exact hrest b hb

/-! ## Expansions -/

theorem isDigit_digitChar : ∀ d < 10, Ascii.isDigit d.digitChar.toUInt8 := by
  decide

/-- A number in decimal is made of digits. -/
theorem isDigit_of_mem_decimal {n : Nat} {b : UInt8} (h : b ∈ decimal n) : Ascii.isDigit b := by
  induction n using Nat.strongRecOn with
  | ind n ih =>
    rcases Nat.lt_or_ge n 10 with hn | hn
    · rw [decimal_of_lt_ten hn, List.mem_singleton] at h
      rw [h]
      exact isDigit_digitChar n hn
    · rw [decimal_of_ten_le hn, List.mem_append, List.mem_singleton] at h
      rcases h with h | rfl
      · exact ih (n / 10) (by omega) h
      · exact isDigit_digitChar _ (by omega)

theorem isTokenByte_of_isDigit {b : UInt8} (h : Ascii.isDigit b) : isTokenByte b :=
  forall_byte (p := fun b => Ascii.isDigit b → isTokenByte b) (by decide +kernel) b h

theorem isToken_decimal (n : Nat) : IsToken (decimal n) :=
  ⟨decimal_ne_nil n, fun _ hb => isTokenByte_of_isDigit (isDigit_of_mem_decimal hb)⟩

theorem isToken_decimalInt (i : Int) : IsToken (decimalInt i) := by
  unfold decimalInt
  split
  · refine ⟨List.cons_ne_nil _ _, fun b hb => ?_⟩
    rcases List.mem_cons.mp hb with rfl | hb
    · decide
    · exact (isToken_decimal _).all b hb
  · exact isToken_decimal _

theorem isToken_operationName (op : Operation) : IsToken op.name := by
  cases op <;> exact ⟨by decide, List.all_eq_true.mp (by decide)⟩

theorem isToken_zeroName : IsToken Register.zero.name :=
  ⟨by decide, List.all_eq_true.mp (by decide)⟩

/-- A real instruction is made of tokens if its operands are. -/
theorem Pseudo.wellFormed_real {op : Operation} {args : List Bytes} (h : ∀ t ∈ args, IsToken t) :
    (real op args).WellFormed := by
  intro t ht
  rcases List.mem_cons.mp ht with rfl | ht
  · exact isToken_operationName op
  · exact h t ht

/-- The instructions that a constant is loaded by are made of tokens. -/
theorem Pseudo.wellFormed_of_mem_loadConstant {rd : Bytes} (hrd : IsToken rd) {value : Int}
    {i : RawInstruction} (h : i ∈ loadConstant rd value) : i.WellFormed := by
  unfold loadConstant at h
  split at h
  · obtain rfl := List.mem_singleton.mp h
    exact wellFormed_real (by simp [hrd, isToken_zeroName, isToken_decimalInt])
  · simp only [List.mem_cons, List.not_mem_nil, or_false] at h
    rcases h with rfl | rfl <;> exact wellFormed_real (by simp [hrd, isToken_decimal])

/-- Expanding an instruction made of tokens gives instructions made of tokens. -/
theorem RawInstruction.wellFormed_of_expand {i j : RawInstruction} {is : List RawInstruction}
    (hi : i.WellFormed) (h : i.expand = .ok is) (hj : j ∈ is) : j.WellFormed := by
  unfold expand at h
  cases hp : Pseudo.ofName? i.name with
  | none =>
    rw [hp] at h
    obtain rfl := Except.ok.inj h
    rwa [List.mem_singleton.mp hj]
  | some pseudo =>
    rw [hp] at h
    dsimp only at h
    split at h
    · next a b hargs =>
      -- the operands stay tokens, and what an expansion adds are tokens too
      have ha : IsToken a := hi a (by simp [hargs])
      have hb : IsToken b := hi b (by simp [hargs])
      cases pseudo with
      | li =>
        rw [Pseudo.expansion] at h
        cases hv : Literal.parse b (-0x80000000) 0x7fffffff with
        | error e => rw [hv] at h; cases h
        | ok value =>
          rw [hv] at h
          obtain rfl := Except.ok.inj h
          exact Pseudo.wellFormed_of_mem_loadConstant ha hj
      | neg =>
        obtain rfl := Except.ok.inj h
        rw [List.mem_singleton.mp hj]
        exact Pseudo.wellFormed_real (by simp [ha, hb, isToken_zeroName])
      | mfhilo =>
        obtain rfl := Except.ok.inj h
        simp only [List.mem_cons, List.not_mem_nil, or_false] at hj
        rcases hj with rfl | rfl <;> exact Pseudo.wellFormed_real (by simp [ha, hb])
    · cases h

end MipsAssembler
