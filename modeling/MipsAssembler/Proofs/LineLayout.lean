import MipsAssembler.Proofs.Tokens

/-!
# The layout of a line

A line of source text can be laid out in many ways: delimiters stand around its tokens and between
them, and a comment may follow. `Statement.LaidOut` says which texts are layouts of a statement,
without reading them.

- `tokens_eq_iff`: the tokens of a line are the ones it is a layout of.
- `Statement.parse_eq_ok_iff`: a line is read as a statement exactly if it is a layout of it, so
  reading forgets the layout and nothing else.
- `line_parse_exact`: that, and when a line is refused.
-/

namespace MipsAssembler

/-! ## Layouts -/

/-- A run of delimiters, perhaps an empty one. -/
def IsGap (run : Bytes) : Prop :=
  ∀ b ∈ run, isDelimiter b

/-- What may stand at the end of a line: nothing, or a comment. -/
def IsComment (tail : Bytes) : Prop :=
  tail = [] ∨ ∃ text, tail = Ascii.hash :: text

/-- `Behind toks text`: what may stand behind a token. Each further token has a delimiter before it,
or more, and there may be some behind the last. -/
inductive Behind : List Bytes → Bytes → Prop
  | done {run : Bytes} (hrun : IsGap run) : Behind [] run
  | token {gap token rest : Bytes} {toks : List Bytes} (hgap : IsGap gap) (hne : gap ≠ [])
      (hrest : Behind toks rest) : Behind (token :: toks) (gap ++ token ++ rest)

/-- `Spread toks text`: the text is a layout of the tokens. -/
inductive Spread : List Bytes → Bytes → Prop
  | none {run : Bytes} (hrun : IsGap run) : Spread [] run
  | first {gap token rest : Bytes} {toks : List Bytes} (hgap : IsGap gap)
      (hrest : Behind toks rest) : Spread (token :: toks) (gap ++ token ++ rest)

namespace Statement

/-- A label with its colon. -/
def labelText : Option Bytes → Bytes
  | none => []
  | some label => label ++ [Ascii.colon]

/-- The tokens of an instruction. -/
def instructionTokens : Option RawInstruction → List Bytes
  | none => []
  | some i => i.name :: i.args

/-- A statement that a line can hold: its label is one, its instruction is made of tokens, and
without a label no colon in the mnemonic makes it look as if there was one. -/
structure Writable (st : Statement) : Prop where
  isLabel : ∀ label ∈ st.label, MipsAssembler.isLabel label
  wellFormed : ∀ i ∈ st.instruction, i.WellFormed
  colon_notMem : st.label = none → ∀ i ∈ st.instruction, Ascii.colon ∉ i.name

/-- The line is a layout of the statement: the label and its colon, then the tokens of the
instruction, which may follow at once or behind delimiters, then perhaps a comment. -/
def LaidOut (st : Statement) (line : Bytes) : Prop :=
  ∃ lead body comment, IsGap lead ∧ Spread (instructionTokens st.instruction) body ∧
    IsComment comment ∧ line = lead ++ labelText st.label ++ body ++ comment

end Statement

/-! ## Tokens of a layout -/

theorem ne_hash_of_isDelimiter {d : UInt8} (h : isDelimiter d) : d ≠ Ascii.hash := by
  rintro rfl
  exact absurd h (by decide)

theorem isGap_nil : IsGap [] := nofun

theorem tokens_cons_delimiter {d : UInt8} (hd : isDelimiter d) (rest : Bytes) :
    tokens (d :: rest) = tokens rest := by
  have hstrip : stripComment (d :: rest) = d :: stripComment rest :=
    List.takeWhile_cons_of_pos (by simpa using ne_hash_of_isDelimiter hd)
  rw [tokens, hstrip, pieces_cons_of_separator hd]
  rfl

/-- Delimiters in front of a line do not count. -/
theorem IsGap.tokens_append {gap : Bytes} (h : IsGap gap) (rest : Bytes) :
    tokens (gap ++ rest) = tokens rest := by
  induction gap with
  | nil => rfl
  | cons d gap ih =>
    rw [List.cons_append, tokens_cons_delimiter (h d List.mem_cons_self),
      ih fun b hb => h b (List.mem_cons_of_mem _ hb)]

theorem IsGap.tokens_eq_nil {gap : Bytes} (h : IsGap gap) : tokens gap = [] := by
  have hnil := h.tokens_append []
  rwa [List.append_nil] at hnil

/-- A comment does not count. -/
theorem IsComment.tokens_append {comment : Bytes} (h : IsComment comment) {text : Bytes}
    (htext : Ascii.hash ∉ text) : tokens (text ++ comment) = tokens text := by
  have hne : ∀ b ∈ text, b ≠ Ascii.hash := by
    rintro b hb rfl
    exact htext hb
  have hstrip : stripComment (text ++ comment) = stripComment text := by
    rw [stripComment_of_forall hne, stripComment,
      List.takeWhile_append_of_pos fun b hb => by simpa using hne b hb]
    rcases h with rfl | ⟨rest, rfl⟩
    · simp
    · rw [List.takeWhile_cons_of_neg (by simp), List.append_nil]
  rw [tokens, hstrip, tokens]

/-- A token and what stands behind it. -/
theorem Behind.tokens_append {toks : List Bytes} {rest : Bytes} (h : Behind toks rest)
    (htoks : ∀ t ∈ toks, IsToken t) {token : Bytes} (htoken : IsToken token) :
    tokens (token ++ rest) = token :: toks := by
  induction h generalizing token with
  | @done run hrun =>
    cases run with
    | nil => rw [List.append_nil, tokens_of_isToken htoken]
    | cons d run =>
      have hrun' : IsGap run := fun b hb => hrun b (List.mem_cons_of_mem _ hb)
      rw [tokens_append_delimiter htoken (hrun d List.mem_cons_self), hrun'.tokens_eq_nil]
  | @token gap next rest toks hgap hne _ ih =>
    obtain ⟨d, gap, rfl⟩ := List.exists_cons_of_ne_nil hne
    have hgap' : IsGap gap := fun b hb => hgap b (List.mem_cons_of_mem _ hb)
    have hnext := ih (fun t ht => htoks t (List.mem_cons_of_mem _ ht))
      (htoks next List.mem_cons_self)
    rw [List.cons_append, List.cons_append,
      tokens_append_delimiter htoken (hgap d List.mem_cons_self), List.append_assoc,
      hgap'.tokens_append, hnext]

theorem Spread.tokens_eq {toks : List Bytes} {text : Bytes} (h : Spread toks text)
    (htoks : ∀ t ∈ toks, IsToken t) : tokens text = toks := by
  cases h with
  | none hrun => exact hrun.tokens_eq_nil
  | first hgap hrest =>
    rw [List.append_assoc, hgap.tokens_append,
      hrest.tokens_append (fun t ht => htoks t (List.mem_cons_of_mem _ ht))
        (htoks _ List.mem_cons_self)]

/-! ## The layout of a line -/

theorem Behind.spread {toks : List Bytes} {rest : Bytes} (h : Behind toks rest) :
    Spread toks rest := by
  cases h with
  | done hrun => exact .none hrun
  | token hgap _ hrest => exact .first hgap hrest

theorem Spread.behind {toks : List Bytes} {text : Bytes} (h : Spread toks text) {d : UInt8}
    (hd : isDelimiter d) : Behind toks (d :: text) := by
  have hcons : ∀ {gap : Bytes}, IsGap gap → IsGap (d :: gap) := by
    intro gap hgap b hb
    rcases List.mem_cons.mp hb with rfl | hb
    · exact hd
    · exact hgap b hb
  cases h with
  | none hrun => exact .done (hcons hrun)
  | first hgap hrest => exact .token (hcons hgap) (List.cons_ne_nil _ _) hrest

/-- A text without a comment is a layout of some tokens. Read from its end, a byte either joins the
token that starts behind it, or starts one, or stands before all tokens. -/
theorem exists_spread {text : Bytes} (h : Ascii.hash ∉ text) :
    ∃ toks, (∀ t ∈ toks, IsToken t) ∧ Spread toks text := by
  induction text with
  | nil => exact ⟨[], List.forall_mem_nil _, .none isGap_nil⟩
  | cons b text ih =>
    obtain ⟨toks, htoks, hspread⟩ := ih fun hmem => h (List.mem_cons_of_mem _ hmem)
    by_cases hb : isDelimiter b
    · exact ⟨toks, htoks, (hspread.behind hb).spread⟩
    have hbyte : isTokenByte b := by
      refine isTokenByte_iff.mpr ⟨by simpa using hb, ?_⟩
      rintro rfl
      exact h List.mem_cons_self
    have hsingle : IsToken [b] := ⟨List.cons_ne_nil _ _, by simpa using hbyte⟩
    -- what stands behind the byte begins with a delimiter, or ends, or is a token
    have hstart : ∀ {toks}, (∀ t ∈ toks, IsToken t) → Behind toks text →
        ∃ toks, (∀ t ∈ toks, IsToken t) ∧ Spread toks (b :: text) := by
      intro toks htoks hbehind
      exact ⟨[b] :: toks, List.forall_mem_cons.mpr ⟨hsingle, htoks⟩, .first isGap_nil hbehind⟩
    cases hspread with
    | none hrun => exact hstart htoks (.done hrun)
    | @first gap token rest toks hgap hrest =>
      cases gap with
      | cons d gap => exact hstart htoks (.token hgap (List.cons_ne_nil _ _) hrest)
      | nil =>
        obtain ⟨htoken, htoks⟩ := List.forall_mem_cons.mp htoks
        refine ⟨(b :: token) :: toks, List.forall_mem_cons.mpr ⟨⟨List.cons_ne_nil _ _, ?_⟩, htoks⟩,
          .first isGap_nil hrest⟩
        exact List.forall_mem_cons.mpr ⟨hbyte, htoken.all⟩

/-- A line is a text without a number sign, and perhaps a comment behind it. -/
theorem exists_comment (line : Bytes) :
    ∃ text comment, line = text ++ comment ∧ Ascii.hash ∉ text ∧ IsComment comment := by
  by_cases h : Ascii.hash ∈ line
  · obtain ⟨text, rest, rfl, hnot⟩ := List.eq_append_cons_of_mem h
    exact ⟨text, _, rfl, hnot, .inr ⟨rest, rfl⟩⟩
  · exact ⟨line, [], (List.append_nil line).symm, h, .inl rfl⟩

/-- The tokens of a line without a comment are the ones it is a layout of. -/
theorem tokens_eq_iff {text : Bytes} (h : Ascii.hash ∉ text) {toks : List Bytes} :
    tokens text = toks ↔ (∀ t ∈ toks, IsToken t) ∧ Spread toks text := by
  constructor
  · rintro rfl
    obtain ⟨toks, htoks, hspread⟩ := exists_spread h
    rw [hspread.tokens_eq htoks]
    exact ⟨htoks, hspread⟩
  · rintro ⟨htoks, hspread⟩
    exact hspread.tokens_eq htoks

/-! ## No comment in a layout -/

theorem IsGap.hash_notMem {gap : Bytes} (h : IsGap gap) : Ascii.hash ∉ gap :=
  fun hmem => ne_hash_of_isDelimiter (h _ hmem) rfl

theorem IsToken.hash_notMem {token : Bytes} (h : IsToken token) : Ascii.hash ∉ token :=
  fun hmem => (isTokenByte_iff.mp (h.all _ hmem)).2 rfl

theorem Behind.hash_notMem {toks : List Bytes} {rest : Bytes} (h : Behind toks rest)
    (htoks : ∀ t ∈ toks, IsToken t) : Ascii.hash ∉ rest := by
  induction h with
  | done hrun => exact hrun.hash_notMem
  | token hgap _ _ ih =>
    obtain ⟨htoken, htoks⟩ := List.forall_mem_cons.mp htoks
    simp only [List.mem_append, not_or]
    exact ⟨⟨hgap.hash_notMem, htoken.hash_notMem⟩, ih htoks⟩

theorem Spread.hash_notMem {toks : List Bytes} {text : Bytes} (h : Spread toks text)
    (htoks : ∀ t ∈ toks, IsToken t) : Ascii.hash ∉ text := by
  cases h with
  | none hrun => exact hrun.hash_notMem
  | first hgap hrest =>
    obtain ⟨htoken, htoks⟩ := List.forall_mem_cons.mp htoks
    simp only [List.mem_append, not_or]
    exact ⟨⟨hgap.hash_notMem, htoken.hash_notMem⟩, hrest.hash_notMem htoks⟩

/-! ## Statements -/

namespace Statement

@[simp] theorem ofTokens?_instructionTokens (i : Option RawInstruction) :
    RawInstruction.ofTokens? (instructionTokens i) = i := by
  cases i <;> rfl

@[simp] theorem instructionTokens_ofTokens? (toks : List Bytes) :
    instructionTokens (RawInstruction.ofTokens? toks) = toks := by
  cases toks <;> rfl

theorem Writable.isToken {st : Statement} (h : st.Writable) :
    ∀ t ∈ instructionTokens st.instruction, IsToken t := by
  intro t ht
  cases hi : st.instruction with
  | none =>
    rw [hi] at ht
    cases ht
  | some i =>
    rw [hi] at ht
    exact h.wellFormed i hi t ht

/-- Without a label the tokens are those of the instruction. -/
theorem ofTokens_instructionTokens {i : Option RawInstruction}
    (h : ∀ j ∈ i, Ascii.colon ∉ j.name) :
    ofTokens (instructionTokens i) = .ok { instruction := i } := by
  cases i with
  | none => rfl
  | some i => exact ofTokens_of_no_colon (h i rfl) i.args

/-- A label reads back from a layout of it and of what stands behind it. -/
theorem ofTokens_tokens_labelled {label body : Bytes} (h : isLabel label) {toks : List Bytes}
    (hbody : Spread toks body) (htoks : ∀ t ∈ toks, IsToken t) :
    ofTokens (tokens (label ++ Ascii.colon :: body)) =
      .ok { label := some label, instruction := RawInstruction.ofTokens? toks } := by
  have hcolon := colon_notMem_of_isLabel h
  -- a delimiter, or the end, behind the colon: the label is a token of its own
  have happart : Behind toks body →
      ofTokens (tokens (label ++ Ascii.colon :: body)) =
        .ok { label := some label, instruction := RawInstruction.ofTokens? toks } := by
    intro hbehind
    have htokens := hbehind.tokens_append htoks (isToken_labelled h [] (List.forall_mem_nil _))
    rw [List.append_assoc] at htokens
    rw [show label ++ Ascii.colon :: body = label ++ ([Ascii.colon] ++ body) from rfl, htokens,
      ofTokens_of_colon hcolon, if_pos h]
    rfl
  cases hbody with
  | none hrun => exact happart (.done hrun)
  | @first gap token rest toks hgap hrest =>
    cases gap with
    | cons d gap => exact happart (.token hgap (List.cons_ne_nil _ _) hrest)
    | nil =>
      -- the first token of the instruction adjoins the colon
      obtain ⟨htoken, htoks⟩ := List.forall_mem_cons.mp htoks
      have htokens := hrest.tokens_append htoks (isToken_labelled h token htoken.all)
      rw [List.append_assoc] at htokens
      rw [show label ++ Ascii.colon :: ([] ++ token ++ rest) =
          label ++ (Ascii.colon :: token ++ rest) from rfl, htokens,
        ofTokens_of_colon hcolon, if_pos h, if_neg (by simpa using htoken.ne_nil)]

/-- Every layout of a statement is read as the statement. -/
theorem parse_of_laidOut {st : Statement} {line : Bytes} (hst : st.Writable)
    (h : st.LaidOut line) : parse line = .ok st := by
  obtain ⟨lead, body, comment, hlead, hbody, hcomment, rfl⟩ := h
  obtain ⟨label, instruction⟩ := st
  have htoks := hst.isToken
  have hhash := hbody.hash_notMem htoks
  cases label with
  | none =>
    have htext : Ascii.hash ∉ lead ++ body := by
      simp only [List.mem_append, not_or]
      exact ⟨hlead.hash_notMem, hhash⟩
    rw [labelText, List.append_nil, parse, hcomment.tokens_append htext, hlead.tokens_append,
      hbody.tokens_eq htoks]
    exact ofTokens_instructionTokens (hst.colon_notMem rfl)
  | some label =>
    have hlabel : isLabel label := hst.isLabel label rfl
    have htoken := isToken_labelled hlabel [] (List.forall_mem_nil _)
    have htext : Ascii.hash ∉ lead ++ labelText (some label) ++ body := by
      simp only [List.mem_append, not_or]
      exact ⟨⟨hlead.hash_notMem, htoken.hash_notMem⟩, hhash⟩
    have hread := ofTokens_tokens_labelled hlabel hbody htoks
    rw [parse, hcomment.tokens_append htext, List.append_assoc, hlead.tokens_append, labelText,
      List.append_assoc, List.singleton_append, hread, ofTokens?_instructionTokens]

/-- Every line that is read is a layout of what it is read as. -/
theorem laidOut_of_parse {st : Statement} {line : Bytes} (h : parse line = .ok st) :
    st.Writable ∧ st.LaidOut line := by
  obtain ⟨text, comment, rfl, hhash, hcomment⟩ := exists_comment line
  rw [parse, hcomment.tokens_append hhash] at h
  obtain ⟨htoks, hspread⟩ := (tokens_eq_iff hhash).mp rfl
  obtain ⟨hinstruction, hlabel⟩ := wellFormed_of_ofTokens htoks h
  generalize tokens text = toks at h htoks hspread
  cases hspread with
  | none hrun =>
    obtain rfl := Except.ok.inj h
    exact ⟨⟨by simp, by simp, by simp⟩, [], text, comment, isGap_nil, .none hrun, hcomment, rfl⟩
  | @first gap head rest tail hgap hrest =>
    by_cases hcolon : Ascii.colon ∈ head
    · -- what stands behind the colon is the first token of the instruction, unless it is empty
      obtain ⟨label, name, rfl, hnot⟩ := List.eq_append_cons_of_mem hcolon
      rw [ofTokens_of_colon hnot] at h
      split at h
      · obtain rfl := Except.ok.inj h
        refine ⟨⟨hlabel, hinstruction, by simp⟩, gap, name ++ rest, comment, hgap, ?_, hcomment, ?_⟩
        · rw [instructionTokens_ofTokens?]
          split
          · next hname =>
            obtain rfl : name = [] := by simpa using hname
            exact hrest.spread
          · exact .first isGap_nil hrest
        · simp [labelText]
      · cases h
    · rw [ofTokens_of_no_colon hcolon] at h
      obtain rfl := Except.ok.inj h
      refine ⟨⟨hlabel, hinstruction, fun _ i hi => ?_⟩, [], _, comment, isGap_nil, .first hgap hrest,
        hcomment, rfl⟩
      obtain rfl := Option.some.inj hi
      exact hcolon

theorem parse_eq_ok_iff {st : Statement} {line : Bytes} :
    parse line = .ok st ↔ st.Writable ∧ st.LaidOut line :=
  ⟨laidOut_of_parse, fun ⟨hst, hline⟩ => parse_of_laidOut hst hline⟩

end Statement

/-- **Reading a line forgets its layout and nothing else.** Its tokens are not empty and hold
neither delimiters nor a number sign. It is read as a statement exactly if it is a layout of that
statement, and refused exactly if its first token has a colon and what stands before the first is no
label. -/
theorem line_parse_exact (line : Bytes) :
    (∀ token ∈ tokens line,
      token ≠ [] ∧ ∀ b ∈ token, isDelimiter b = false ∧ b ≠ Ascii.hash) ∧
    (∀ st, Statement.parse line = .ok st ↔ st.Writable ∧ st.LaidOut line) ∧
    ∀ e, Statement.parse line = .error e ↔ ∃ head, (tokens line).head? = some head ∧
      Ascii.colon ∈ head ∧ isLabel (head.takeWhile (· != Ascii.colon)) = false ∧
      e = .invalidLabel (head.takeWhile (· != Ascii.colon)) := by
  refine ⟨fun token htoken => ?_, fun _ => Statement.parse_eq_ok_iff,
    fun _ => Statement.parse_eq_error_iff⟩
  have h := isToken_of_mem_tokens htoken
  exact ⟨h.ne_nil, fun b hb => isTokenByte_iff.mp (h.all b hb)⟩

/-- A line with nothing between the colon and the mnemonic, no blank between the offset and the base
of its memory operand, and a comment. -/
def loadLine : Bytes :=
  ascii "\tloop:lw $t0,4($sp) # next: word"

theorem line_parse_exact_load :
    let st : Statement :=
      { label := some (ascii "loop"),
        instruction := some ⟨ascii "lw", [ascii "$t0", ascii "4", ascii "$sp"]⟩ }
    Statement.parse loadLine = .ok st ∧ st.Writable ∧ st.LaidOut loadLine ∧
      ascii "4" ∈ tokens loadLine ∧
      ∀ b ∈ ascii "4", isDelimiter b = false ∧ b ≠ Ascii.hash := by
  intro st
  have hparse : Statement.parse loadLine = .ok st := by decide
  have hmem : ascii "4" ∈ tokens loadLine := by decide
  obtain ⟨htokens, hread, -⟩ := line_parse_exact loadLine
  obtain ⟨hst, hline⟩ := (hread st).mp hparse
  exact ⟨hparse, hst, hline, hmem, (htokens _ hmem).2⟩

end MipsAssembler
