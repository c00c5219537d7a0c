import MipsAssembler.Json.Value
import MipsAssembler.Proofs.Tokens
import MipsAssembler.Proofs.Utf8

/-!
# JSON text and its tokens

How tokens are written, and that they are read back from it.

- `Spells`, `SpellsAll`: how the characters of a string can be written between its quotes.
- `unescape?_spelling`, `delivers_string`: a string is read back from any such spelling.
- `isNumber_decimal`, `isNumber_decimalInt`: numbers in decimal are numbers of JSON.
- `Delivers`, `Reads`: what texts between tokens are read as. The end of a number is seen only at
  the byte behind it, so a text that ends with one is complete only there (`Reads.append_delivers`).
- `reads_intercalate`: texts with commas between them are read one after another.
-/

namespace MipsAssembler.Json

/-- What holds of every line of a table holds of what is found there. -/
theorem forall_of_lookup {α β : Type} [BEq α] [LawfulBEq α] {table : List (α × β)}
    {p : α → β → Prop} (hall : ∀ line ∈ table, p line.1 line.2) {a : α} {b : β}
    (h : table.lookup a = some b) : p a b := by
  obtain ⟨before, behind, rfl, -⟩ := List.lookup_eq_some_iff.mp h
  exact hall (a, b) (by simp)

/-! ## Spelling -/

/-- How a character can be written inside a string. -/
inductive Spells (c : Char) : List Char → Prop
  /-- As itself, unless that would end the string, start an escape or break the line. -/
  | plain (hquote : c ≠ '"') (hbackslash : c ≠ '\\') (hcontrol : 0x20 ≤ c.toNat) : Spells c [c]
  /-- As a letter behind a backslash. -/
  | letter {l : Char} (h : simpleEscape? l = some c) : Spells c ['\\', l]
  /-- As its code. -/
  | unit {p q r s : Char} (h : unit? p q r s = some c.toNat) : Spells c ['\\', 'u', p, q, r, s]

/-- How characters can be written one after another. -/
inductive SpellsAll : List Char → List Char → Prop
  | nil : SpellsAll [] []
  | cons {c : Char} {cs spelling rest : List Char} (h : Spells c spelling)
      (hrest : SpellsAll cs rest) : SpellsAll (c :: cs) (spelling ++ rest)

theorem unitChar_toNat (c : Char) : unitChar c.toNat = c := by
  have hvalid := Utf8.toNat_valid c
  rw [unitChar, if_neg (by omega), Char.ofNat_toNat]

theorem surrogatePair?_toNat (c : Char) (low : Nat) : surrogatePair? c.toNat low = none := by
  have hvalid := Utf8.toNat_valid c
  rw [surrogatePair?, if_neg (by omega)]

/-- A spelled character is read, and what follows it is left. -/
theorem unescapeOnto_spelling {c : Char} {spelling : List Char} (h : Spells c spelling)
    (read rest : List Char) :
    unescapeOnto read (spelling ++ rest) = unescapeOnto (c :: read) rest := by
  cases h with
  | plain _ hbackslash hcontrol =>
    have hnot : ¬ (c = '\\' ∨ c.toNat < 0x20) := by
      rw [not_or]
      exact ⟨hbackslash, by omega⟩
    rw [List.singleton_append, unescapeOnto, if_neg hnot]
    all_goals intros; contradiction
  | @letter l h =>
    -- no letter is mistaken for the mark of a code
    have hl : l ≠ 'u' := by
      rintro rfl
      cases h
    rw [List.cons_append, List.singleton_append, unescapeOnto, h]
    · rfl
    all_goals intros; contradiction
  | @unit p q r s h =>
    -- another code may follow, but the two are no surrogate pair
    by_cases hnext : ∃ e f g k rest', rest = '\\' :: 'u' :: e :: f :: g :: k :: rest'
    · obtain ⟨e, f, g, k, rest, rfl⟩ := hnext
      have hnone : (unit? e f g k >>= surrogatePair? c.toNat) = none := by
        cases unit? e f g k with
        | none => rfl
        | some low => exact surrogatePair?_toNat c low
      simp only [List.cons_append, List.nil_append]
      rw [unescapeOnto, h, Option.bind_eq_bind, Option.bind_some, hnone]
      dsimp only
      rw [unitChar_toNat]
    · simp only [List.cons_append, List.nil_append]
      rw [unescapeOnto, h, Option.bind_eq_bind, Option.bind_some, unitChar_toNat]
      exact fun e f g k rest' heq => hnext ⟨e, f, g, k, rest', heq⟩

/-- **A string is read back** from any spelling of it. -/
theorem unescape?_spelling {cs spelling : List Char} (h : SpellsAll cs spelling) :
    unescape? (Utf8.encodeAll spelling) = some cs := by
  have honto : ∀ read, unescapeOnto read spelling = some (cs.reverse ++ read) := by
    induction h with
    | nil => exact fun read => rfl
    | cons h _ ih =>
      intro read
      rw [unescapeOnto_spelling h, ih]
      simp
  -- the spelling is valid UTF-8, so nothing in it is replaced
  have hchars : (Utf8.glyphs (Utf8.encodeAll spelling)).map (·.toChar) = spelling := by
    rw [Utf8.glyphs_encodeAll, List.map_map]
    exact List.map_id spelling
  rw [unescape?, hchars, honto]
  simp

/-! ## Texts between tokens -/

/-- The text is read as these tokens, and nothing is left to collect. -/
def Delivers (text : Bytes) (tokens : List Token) : Prop :=
  ∀ before, text.foldlM Lexing.step ⟨.between, before⟩ =
    some ⟨.between, tokens.reverse ++ before⟩

/-- The text is read as these tokens, once it is seen that the last of them is complete. -/
def Reads (text : Bytes) (tokens : List Token) : Prop :=
  ∀ before, ∃ l, text.foldlM Lexing.step ⟨.between, before⟩ = some l ∧
    l.finish = some ⟨.between, tokens.reverse ++ before⟩

/-- The byte ends a number or a word in front of it. -/
def isCloser (b : UInt8) : Bool :=
  isWhite b || b == Ascii.quote || (punctuation? b).isSome

variable {text more : Bytes} {tokens others : List Token}

theorem Delivers.reads (h : Delivers text tokens) : Reads text tokens :=
  fun before => ⟨_, h before, rfl⟩

theorem Delivers.append (h : Delivers text tokens) (hmore : Delivers more others) :
    Delivers (text ++ more) (tokens ++ others) := by
  intro before
  rw [List.foldlM_append, h before, Option.bind_eq_bind, Option.bind_some, hmore]
  simp

theorem Delivers.append_reads (h : Delivers text tokens) (hmore : Reads more others) :
    Reads (text ++ more) (tokens ++ others) := by
  intro before
  obtain ⟨l, hl, hfinish⟩ := hmore (tokens.reverse ++ before)
  refine ⟨l, ?_, by rw [hfinish]; simp⟩
  rw [List.foldlM_append, h before, Option.bind_eq_bind, Option.bind_some, hl]

theorem Lexing.finish_eq_some {l l' : Lexing} (h : l.finish = some l') :
    l'.finish = some l' ∧ l.step = l.outside ∧ l'.step = l'.outside := by
  rcases l with ⟨mode, tokens⟩
  cases mode with
  | between =>
    obtain rfl := Option.some.inj h
    exact ⟨rfl, rfl, rfl⟩
  | bare collected =>
    obtain ⟨token, -, rfl⟩ : ∃ token, bare? collected.reverse = some token ∧
        ⟨.between, token :: tokens⟩ = l' := by
      simpa [finish, Option.bind_eq_some_iff] using h
    exact ⟨rfl, rfl, rfl⟩
  | string => cases h

/-- A byte that ends what is being collected does what it would do behind it. -/
theorem Lexing.step_of_finish {l l' : Lexing} {b : UInt8} (hfinish : l.finish = some l')
    (hb : isCloser b) : l.step b = l'.step b := by
  obtain ⟨hagain, hstep, hstep'⟩ := finish_eq_some hfinish
  rw [hstep, hstep', outside, outside]
  split
  · rw [hfinish, hagain]
  · next hwhite =>
    split
    · rw [hfinish, hagain]
    · next hquote =>
      cases hpunctuation : punctuation? b with
      | some token => simp only [hfinish, hagain]
      | none => simp [isCloser, hwhite, hquote, hpunctuation] at hb

/-- What is read is complete at the byte behind it. -/
theorem Reads.append_delivers (h : Reads text tokens) {b : UInt8} (hb : isCloser b)
    (hmore : Delivers (b :: more) others) :
    Delivers (text ++ b :: more) (tokens ++ others) := by
  intro before
  obtain ⟨l, hl, hfinish⟩ := h before
  have hclosed := hmore (tokens.reverse ++ before)
  rw [List.foldlM_cons] at hclosed
  rw [List.foldlM_append, hl, Option.bind_eq_bind, Option.bind_some, List.foldlM_cons,
    Lexing.step_of_finish hfinish hb, hclosed]
  simp

/-- Texts are read one after another, if what stands between them ends what comes before. -/
theorem reads_intercalate {α : Type} {write : α → Bytes} {read : α → List Token} {b : UInt8}
    {gap : Bytes} {between : List Token} (hb : isCloser b) (hgap : Delivers (b :: gap) between)
    {items : List α} (hne : items ≠ []) (h : ∀ item ∈ items, Reads (write item) (read item)) :
    Reads ((b :: gap).intercalate (items.map write)) (between.intercalate (items.map read)) := by
  induction items with
  | nil => exact absurd rfl hne
  | cons item items ih =>
    obtain ⟨hitem, hitems⟩ := List.forall_mem_cons.mp h
    cases items with
    | nil =>
      simp only [List.map_cons, List.map_nil, List.intercalate_singleton]
      exact hitem
    | cons next items =>
      simp only [List.map_cons, List.intercalate_cons_cons]
      exact (hitem.append_delivers hb hgap).append_reads (ih (by simp) hitems)

/-- A text that is read is cut into its tokens. -/
theorem Reads.lex? (h : Reads text tokens) : lex? text = some tokens := by
  obtain ⟨l, hl, hfinish⟩ := h []
  rw [Json.lex?, hl, Option.bind_eq_bind, Option.bind_some, hfinish]
  simp

/-! ## Strings -/

/-- Bytes that are neither quotes nor backslashes are collected. -/
theorem foldlM_step_plain {collected : Bytes} {before : List Token} {bytes : Bytes}
    (h : ∀ b ∈ bytes, b ≠ Ascii.quote ∧ b ≠ Ascii.backslash) :
    bytes.foldlM Lexing.step ⟨.string collected .false, before⟩ =
      some ⟨.string (bytes.reverse ++ collected) .false, before⟩ := by
  induction bytes generalizing collected with
  | nil => rfl
  | cons b bytes ih =>
    obtain ⟨⟨hquote, hbackslash⟩, hbytes⟩ := List.forall_mem_cons.mp h
    have hstep : Lexing.step ⟨.string collected .false, before⟩ b =
        some ⟨.string (b :: collected) .false, before⟩ := by
      simp [Lexing.step, hquote, hbackslash]
    rw [List.foldlM_cons, hstep, Option.bind_eq_bind, Option.bind_some, ih hbytes]
    simp

theorem notMem_encode {c : Char} {mark : UInt8} (hmark : mark.toNat < 0x80)
    (hne : c.toNat ≠ mark.toNat) : mark ∉ Utf8.encode c :=
  fun hmem => hne (Utf8.toNat_eq_of_mem_encode hmem hmark).symm

/-- So are characters that are neither. -/
theorem foldlM_step_chars {collected : Bytes} {before : List Token} {cs : List Char}
    (h : ∀ c ∈ cs, c ≠ '"' ∧ c ≠ '\\') :
    (Utf8.encodeAll cs).foldlM Lexing.step ⟨.string collected .false, before⟩ =
      some ⟨.string ((Utf8.encodeAll cs).reverse ++ collected) .false, before⟩ := by
  refine foldlM_step_plain fun b hb => ?_
  obtain ⟨c, hc, hb⟩ := List.mem_flatMap.mp hb
  obtain ⟨hquote, hbackslash⟩ := h c hc
  constructor
  · rintro rfl
    exact notMem_encode (by decide) (fun heq => hquote (Char.toNat_inj.mp heq)) hb
  · rintro rfl
    exact notMem_encode (by decide) (fun heq => hbackslash (Char.toNat_inj.mp heq)) hb

theorem ne_of_hexValue? {c : Char} {n : Nat} (h : hexValue? c = some n) : c ≠ '"' ∧ c ≠ '\\' := by
  constructor
  · rintro rfl
    cases h
  · rintro rfl
    cases h

/-- The digits of a code are such characters. -/
theorem ne_of_unit? {p q r s : Char} {n : Nat} (h : unit? p q r s = some n) :
    ∀ c ∈ [p, q, r, s], c ≠ '"' ∧ c ≠ '\\' := by
  simp only [unit?, Option.bind_eq_bind, Option.bind_eq_some_iff] at h
  obtain ⟨_, hp, _, hq, _, hr, _, hs, -⟩ := h
  simp only [List.mem_cons, List.not_mem_nil, or_false]
  rintro c (rfl | rfl | rfl | rfl)
  · exact ne_of_hexValue? hp
  · exact ne_of_hexValue? hq
  · exact ne_of_hexValue? hr
  · exact ne_of_hexValue? hs

/-- The letters behind backslashes are ASCII. -/
theorem encode_of_simpleEscape? {l c : Char} (h : simpleEscape? l = some c) :
    ∃ b, Utf8.encode l = [b] :=
  ⟨_, Utf8.encode_of_lt (forall_of_lookup (p := fun l _ => l.toNat < 0x80) (by decide) h)⟩

/-- A spelled character is collected, and does not end the string. -/
theorem foldlM_step_spelling {collected : Bytes} {before : List Token} {c : Char}
    {spelling : List Char} (h : Spells c spelling) :
    (Utf8.encodeAll spelling).foldlM Lexing.step ⟨.string collected .false, before⟩ =
      some ⟨.string ((Utf8.encodeAll spelling).reverse ++ collected) .false, before⟩ := by
  cases h with
  | plain hquote hbackslash => exact foldlM_step_chars (by simp [hquote, hbackslash])
  | letter h =>
    obtain ⟨b, hb⟩ := encode_of_simpleEscape? h
    -- the backslash keeps the byte behind it from ending the string
    rw [Utf8.encodeAll_cons, Utf8.encodeAll_cons, hb]
    rfl
  | unit h =>
    rw [Utf8.encodeAll_cons, Utf8.encodeAll_cons, Utf8.encode_of_lt (c := '\\') (by decide),
      Utf8.encode_of_lt (c := 'u') (by decide)]
    exact (foldlM_step_chars (ne_of_unit? h)).trans (by simp)

theorem foldlM_step_spellings {collected : Bytes} {before : List Token} {cs spelling : List Char}
    (h : SpellsAll cs spelling) :
    (Utf8.encodeAll spelling).foldlM Lexing.step ⟨.string collected .false, before⟩ =
      some ⟨.string ((Utf8.encodeAll spelling).reverse ++ collected) .false, before⟩ := by
  induction h generalizing collected with
  | nil => rfl
  | cons h _ ih =>
    rw [Utf8.encodeAll_append, List.foldlM_append, foldlM_step_spelling h, Option.bind_eq_bind,
      Option.bind_some, ih]
    simp

/-- **A string is a token**, however it is spelled. -/
theorem delivers_string {cs spelling : List Char} (h : SpellsAll cs spelling) :
    Delivers (Ascii.quote :: Utf8.encodeAll spelling ++ [Ascii.quote]) [.string cs] := by
  intro before
  have hopen : Lexing.step ⟨.between, before⟩ Ascii.quote =
      some ⟨.string [] .false, before⟩ := rfl
  rw [List.cons_append, List.foldlM_cons, hopen, Option.bind_eq_bind, Option.bind_some,
    List.foldlM_append, foldlM_step_spellings h, Option.bind_eq_bind, Option.bind_some]
  simp [Lexing.step, unescape?_spelling h]

theorem spellsAll_self {cs : List Char}
    (h : ∀ c ∈ cs, c ≠ '"' ∧ c ≠ '\\' ∧ 0x20 ≤ c.toNat) : SpellsAll cs cs := by
  induction cs with
  | nil => exact .nil
  | cons c cs ih =>
    obtain ⟨⟨hquote, hbackslash, hcontrol⟩, hcs⟩ := List.forall_mem_cons.mp h
    exact .cons (.plain hquote hbackslash hcontrol) (ih hcs)

/-! ## Numbers -/

theorem span_eq_self {p : UInt8 → Bool} {text : Bytes} (h : ∀ b ∈ text, p b) :
    text.span p = (text, []) := by
  rw [List.span_eq_takeWhile_dropWhile, List.takeWhile_eq_self_iff.mpr h,
    List.dropWhile_eq_nil_iff.mpr h]

/-- A number but zero does not start with a zero. -/
theorem head?_decimal {n : Nat} (h : n ≠ 0) : (decimal n).head? ≠ some 0x30 := by
  induction n using Nat.strongRecOn with
  | ind n ih =>
    rcases Nat.lt_or_ge n 10 with hn | hn
    · have hdigit : ∀ d < 10, d ≠ 0 → some (d.digitChar.toUInt8) ≠ some 0x30 := by decide
      rw [decimal_of_lt_ten hn]
      exact hdigit n hn h
    · obtain ⟨d, digits, hdigits⟩ := List.exists_cons_of_ne_nil (decimal_ne_nil (n / 10))
      have hfirst := ih (n / 10) (by omega) (by omega)
      rw [hdigits] at hfirst
      rw [decimal_of_ten_le hn, hdigits]
      exact hfirst

theorem isMagnitude_decimal (n : Nat) : isMagnitude (decimal n) := by
  have hdigits : ∀ b ∈ decimal n, Ascii.isDigit b := fun b hb => isDigit_of_mem_decimal hb
  have hwhole : isWhole (decimal n) := by
    by_cases hn : n = 0
    · subst hn
      decide
    · simpa [isWhole, isDigits, decimal_ne_nil, head?_decimal hn] using hdigits
  have hmark : ∀ b, Ascii.isDigit b → b ≠ 0x65 ∧ b ≠ 0x45 ∧ b ≠ 0x2e :=
    forall_byte (by decide +kernel)
  have hmantissa : (decimal n).span (· != 0x2e) = (decimal n, []) :=
    span_eq_self fun b hb => by simpa using (hmark b (hdigits b hb)).2.2
  have hmagnitude : (decimal n).span (fun b => b != 0x65 && b != 0x45) = (decimal n, []) :=
    span_eq_self fun b hb => by
      obtain ⟨he, hE, -⟩ := hmark b (hdigits b hb)
      simp [he, hE]
  rw [isMagnitude, hmagnitude]
  dsimp only
  rw [isMantissa, hmantissa]
  exact hwhole

/-- There is no sign in front of a natural number. -/
theorem decimal_ne_minus (n : Nat) (digits : Bytes) : decimal n ≠ 0x2d :: digits := by
  intro hdigits
  have hmem : (0x2d : UInt8) ∈ decimal n := by simp [hdigits]
  exact absurd (isDigit_of_mem_decimal hmem) (by decide)

theorem isNumber_decimal (n : Nat) : isNumber (decimal n) := by
  rw [isNumber]
  · exact isMagnitude_decimal n
  · exact decimal_ne_minus n

theorem isNumber_decimalInt (i : Int) : isNumber (decimalInt i) := by
  rw [decimalInt]
  split
  · exact isMagnitude_decimal _
  · exact isNumber_decimal _

theorem isCloser_eq_false_iff {b : UInt8} :
    isCloser b = false ↔ isWhite b = false ∧ b ≠ Ascii.quote ∧ punctuation? b = none := by
  simp [isCloser, and_assoc]

/-- Bytes that end nothing are collected. -/
theorem foldlM_step_bare {collected : Bytes} {before : List Token} {bytes : Bytes}
    (h : ∀ b ∈ bytes, isCloser b = false) :
    bytes.foldlM Lexing.step ⟨.bare collected, before⟩ =
      some ⟨.bare (bytes.reverse ++ collected), before⟩ := by
  induction bytes generalizing collected with
  | nil => rfl
  | cons b bytes ih =>
    obtain ⟨hb, hbytes⟩ := List.forall_mem_cons.mp h
    have hstep : Lexing.step ⟨.bare collected, before⟩ b =
        some ⟨.bare (b :: collected), before⟩ := by
      simp [Lexing.step, Lexing.outside, isCloser_eq_false_iff.mp hb]
    rw [List.foldlM_cons, hstep, Option.bind_eq_bind, Option.bind_some, ih hbytes]
    simp

/-- **A number is a token**, once it is complete. -/
theorem reads_number {literal : Bytes} (h : isNumber literal)
    (hbytes : ∀ b ∈ literal, isCloser b = false) : Reads literal [.number literal] := by
  have hbare : bare? literal = some (.number literal) := by
    have hword : ∀ word, isNumber word = false → literal ≠ word := by
      rintro word hword rfl
      rw [h] at hword
      cases hword
    rw [bare?, if_neg (hword _ (by decide)), if_neg (hword _ (by decide)),
      if_neg (hword _ (by decide)), if_pos h]
  intro before
  cases literal with
  | nil => cases h
  | cons b rest =>
    obtain ⟨hb, hrest⟩ := List.forall_mem_cons.mp hbytes
    have hstep : Lexing.step ⟨.between, before⟩ b = some ⟨.bare [b], before⟩ := by
      simp [Lexing.step, Lexing.outside, isCloser_eq_false_iff.mp hb]
    refine ⟨⟨.bare (rest.reverse ++ [b]), before⟩, ?_, ?_⟩
    · rw [List.foldlM_cons, hstep, Option.bind_eq_bind, Option.bind_some, foldlM_step_bare hrest]
    · simp [Lexing.finish, hbare]

theorem isCloser_of_isDigit : ∀ b, Ascii.isDigit b → isCloser b = false :=
  forall_byte (by decide +kernel)

theorem reads_decimal (n : Nat) : Reads (decimal n) [.number (decimal n)] :=
  reads_number (isNumber_decimal n) fun b hb => isCloser_of_isDigit b (isDigit_of_mem_decimal hb)

theorem reads_decimalInt (i : Int) : Reads (decimalInt i) [.number (decimalInt i)] := by
  refine reads_number (isNumber_decimalInt i) fun b hb => ?_
  rw [decimalInt] at hb
  split at hb
  · rcases List.mem_cons.mp hb with rfl | hb
    · decide
    · exact isCloser_of_isDigit b (isDigit_of_mem_decimal hb)
  · exact isCloser_of_isDigit b (isDigit_of_mem_decimal hb)

end MipsAssembler.Json
