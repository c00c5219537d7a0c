import Mathlib.Data.List.Forall2
import Mathlib.Data.List.Nodup
import Mathlib.Data.Nat.Digits.Lemmas
import MipsAssembler.Listing
import MipsAssembler.Proofs.AssembledObject
import MipsAssembler.Proofs.Disassembly
import MipsAssembler.Proofs.ImageAgreement
import MipsAssembler.Proofs.Jumps

/-!
# Disassembly of assembled programs

An object file says nothing about the address of a word, so a disassembly counts addresses itself,
and finds the labels and the references of a row by the address it counted.

- `ShowsHex`: a cell shows 32 bits in hexadecimal digits, said without the formats that listings
  use. There is one such cell for each case of the letters (`ShowsHex.unique`), and listings show it
  (`exists_listedAddress_eq`, `showsHex_hex`).
- `getD_namesByAddress`: the names that are found at an address are those of its entries, in the
  order of the table.
- `labels_of_no_faults`: for the symbols of an assembly without faults, these are the labels of the
  source at the address, in the order they are defined in.
- `references_of_no_faults`: for its references, it is the label of the jump at the address, if there
  is one, since no two words share an address.
- `disassembly_lists_words`: so the disassembly of a loaded assembly lists its words.
-/

namespace MipsAssembler

/-! ## Numbers in cells -/

/-- The hexadecimal digits in the order of their values, with letters in upper case. -/
def upperDigits : Bytes :=
  ascii "0123456789ABCDEF"

/-- The hexadecimal digits in the order of their values, with letters in lower case. -/
def lowerDigits : Bytes :=
  ascii "0123456789abcdef"

/-- A text of digits stands for a number, the most significant digit first. -/
def DenotesHex (digits text : Bytes) (n : Nat) : Prop :=
  ∃ values, List.Forall₂ (fun b value => digits[value]? = some b) text values ∧
    n = Nat.ofDigits 16 values.reverse

/-- A cell shows 32 bits in eight digits. -/
structure ShowsHex (digits cell : Bytes) (w : BitVec 32) : Prop where
  length_eq : cell.length = 8
  denotes : DenotesHex digits cell w.toNat

theorem lt_of_forall₂_digits {digits text : Bytes} {values : List Nat}
    (hdigits : digits.length = 16)
    (h : List.Forall₂ (fun b value => digits[value]? = some b) text values) :
    ∀ value ∈ values.reverse, value < 16 := by
  intro value hvalue
  rw [List.mem_reverse] at hvalue
  induction h with
  | nil => cases hvalue
  | cons hdigit _ ih =>
    rcases List.mem_cons.mp hvalue with rfl | hvalue
    · rw [← hdigits]
      exact (List.getElem?_eq_some_iff.mp hdigit).1
    · exact ih hvalue

/-- In a given number of digits, there is one way to write a number. -/
theorem DenotesHex.unique {digits text text' : Bytes} {n : Nat} (hdigits : digits.length = 16)
    (h : DenotesHex digits text n) (h' : DenotesHex digits text' n)
    (hlength : text.length = text'.length) : text = text' := by
  obtain ⟨values, hvalues, hn⟩ := h
  obtain ⟨values', hvalues', hn'⟩ := h'
  have hsame : values.reverse = values'.reverse := by
    refine Nat.ofDigits_inj_of_len_eq (by omega) ?_ (lt_of_forall₂_digits hdigits hvalues)
      (lt_of_forall₂_digits hdigits hvalues') (hn.symm.trans hn')
    rw [List.length_reverse, List.length_reverse, ← hvalues.length_eq, ← hvalues'.length_eq,
      hlength]
  obtain rfl := List.reverse_injective hsame
  refine List.left_unique_forall₂' ?_ hvalues hvalues'
  intro b value c hb hc
  exact Option.some.inj (hb.symm.trans hc)

theorem ShowsHex.unique {digits cell cell' : Bytes} {w : BitVec 32} (hdigits : digits.length = 16)
    (h : ShowsHex digits cell w) (h' : ShowsHex digits cell' w) : cell = cell' :=
  h.denotes.unique hdigits h'.denotes (h.length_eq.trans h'.length_eq.symm)

/-- The last digits of a number, in either case of the letters. -/
theorem denotesHex_map_hex {digits : Bytes} {f : UInt8 → UInt8}
    (hf : ∀ d < 16, digits[d]? = some (f (hexDigit d))) (width n : Nat) :
    DenotesHex digits ((hex width n).map f) (n % 16 ^ width) := by
  induction width generalizing n with
  | zero => exact ⟨[], .nil, Nat.mod_one n⟩
  | succ width ih =>
    obtain ⟨values, hvalues, hn⟩ := ih (n / 16)
    have hlast := hf (n % 16) (Nat.mod_lt n (by omega))
    refine ⟨values ++ [n % 16], ?_, ?_⟩
    · rw [hex, List.map_append]
      exact List.rel_append hvalues (.cons hlast .nil)
    · rw [List.reverse_concat, Nat.ofDigits_cons, ← hn, pow_succ', Nat.mod_mul]

theorem showsHex_map_hex {digits : Bytes} {f : UInt8 → UInt8}
    (hf : ∀ d < 16, digits[d]? = some (f (hexDigit d))) (w : BitVec 32) :
    ShowsHex digits ((hex 8 w.toNat).map f) w where
  length_eq := by rw [List.length_map, length_hex]
  denotes := by
    have hlt : w.toNat < 16 ^ 8 := w.isLt
    have hdenotes := denotesHex_map_hex hf 8 w.toNat
    rwa [Nat.mod_eq_of_lt hlt] at hdenotes

/-- A word is listed in lower case. -/
theorem showsHex_hex (w : Word) : ShowsHex lowerDigits (hex 8 w.toNat) w := by
  have hcell : ShowsHex lowerDigits ((hex 8 w.toNat).map id) w := showsHex_map_hex (by decide) w
  rwa [List.map_id] at hcell

/-- An address is listed in upper case, behind a mark. -/
theorem exists_listedAddress_eq (address : Address) :
    ∃ cell, listedAddress address = ascii "0x" ++ cell ∧ ShowsHex upperDigits cell address :=
  ⟨hexUpper 8 address.toNat, rfl, showsHex_map_hex (by decide) address⟩

/-! ## Names by address -/

/-- The names that are found at an address are those of its entries. -/
theorem getD_namesByAddress (t : SymbolTable) (address : Address) :
    (namesByAddress t).getD address [] =
      (t.entries.toList.filter (·.address = address)).map (·.name) := by
  rw [namesByAddress]
  induction t.entries.toList with
  | nil => simp
  | cons e entries ih =>
    rw [List.foldr_cons, Std.HashMap.getD_insert]
    by_cases hsame : e.address = address
    · subst hsame
      simp [ih]
    · simp [ih, hsame]

/-- The labels that a source defines, in order. -/
def Source.labels (source : Source) : List Bytes :=
  source.scan.lines.filterMap definedLabel?

/-- A label that is not rejected is defined. -/
theorem names_definitionAt {settings : Settings} {before : List Bytes} {line : Bytes}
    (h : labelRejections before line = []) :
    (definitionAt settings before line).map (·.name) = [line].filterMap definedLabel? := by
  cases hlabel : definedLabel? line with
  | none => simp [definitionAt, hlabel]
  | some label =>
    have hnew : label ∉ before.filterMap definedLabel? := by
      intro hmem
      have hcause := mem_labelRejections.mpr ⟨label, hlabel, hmem, rfl⟩
      rw [h] at hcause
      cases hcause
    simp only [definitionAt, hlabel, if_neg (mt List.contains_iff_mem.mp hnew)]
    simp [hlabel]

/-- Where the first pass rejects nothing, every label of a text is a symbol. -/
theorem names_definitionsOf {settings : Settings} {lines : List Bytes}
    (h : firstFaultsOf settings lines = []) :
    (definitionsOf settings lines).map (·.name) = lines.filterMap definedLabel? := by
  induction lines using List.reverseRecOn with
  | nil => rfl
  | append_singleton lines line ih =>
    rw [firstFaultsOf, contributions_concat, List.append_eq_nil_iff, firstFaultsAt,
      List.map_eq_nil_iff] at h
    obtain ⟨hlines, hline⟩ := h
    have hlabel : labelRejections lines line = [] := (List.append_eq_nil_iff.mp hline).1
    rw [definitionsOf, contributions_concat, List.map_append, ← definitionsOf, ih hlines,
      names_definitionAt hlabel, List.filterMap_append]

namespace Assembly.IsOf

variable {settings : Settings} {source : Source} {a : Assembly}

/-- A symbol is looked up as it stands in the table. -/
theorem lookup?_of_mem (h : a.IsOf settings source) {e : Entry}
    (he : e ∈ a.symbols.entries.toList) : a.symbols.lookup? e.name = some e.address := by
  obtain ⟨address, haddress⟩ := h.reads.indexed.exists_lookup?_of_mem he
  have hmem := h.reads.indexed.mem_of_lookup? haddress
  have hsame : ⟨e.name, address⟩ = e := List.inj_on_of_nodup_map h.nodup_symbols hmem he rfl
  rw [← hsame]
  exact haddress

/-- The symbols at an address are the labels of the source there, in the order of their
definitions. -/
theorem labels_of_no_faults (h : a.IsOf settings source) (hf : a.faults = []) (address : Address) :
    (a.symbols.entries.toList.filter (·.address = address)).map (·.name) =
      source.labels.filter fun label => a.symbols.lookup? label = some address := by
  obtain ⟨⟨-, hfirst⟩, -⟩ := h.faults_eq_nil.mp hf
  have hnames : source.labels = a.symbols.entries.toList.map (·.name) := by
    rw [Assembly.symbols, h.reads.entries_eq, names_definitionsOf hfirst]
    rfl
  rw [hnames, List.filter_map]
  congr 1
  refine List.filter_congr fun e he => ?_
  rw [Function.comp_apply, h.lookup?_of_mem he]
  simp

/-- The references at the address of a word are its own. -/
theorem references_of_no_faults (h : a.IsOf settings source) (hf : a.faults = [])
    (hcount : a.words.length ≤ 0x40000000) {w : PlacedWord} (hw : w ∈ a.words) :
    (a.relocations.entries.toList.filter (·.address = w.address)).map (·.name) =
      if w.isJump then [w.reference.name] else [] := by
  obtain ⟨-, -, hstored⟩ := h.faults_eq_nil.mp hf
  rw [h.length_words hf] at hcount
  have halone : a.words.filter (·.address = w.address) = [w] :=
    filter_eq_singleton (h.nodup_addresses hstored hcount) hw
  have hjump : (a.words.filter PlacedWord.isJump).filter (·.address = w.address) =
      [w].filter PlacedWord.isJump := by
    rw [← halone, List.filter_filter, List.filter_filter]
    exact List.filter_congr fun v _ => Bool.and_comm ..
  rw [h.relocations_eq_filter, List.filter_map]
  show (((a.words.filter PlacedWord.isJump).filter (·.address = w.address)).map _).map _ = _
  rw [hjump]
  by_cases hown : w.isJump
  · simp [hown]
  · simp [hown]

/-- An object file whose entries fit is loaded with the text and the tables of its assembly. -/
theorem exists_read_object (h : a.IsOf settings source) (hfit : EntriesFit a.entries) :
    ∃ p, Program.read ⟨a.object, none⟩ = .ok p ∧ p.text.toList = a.text ∧
      p.symbols.entries = a.symbols.entries ∧ p.relocations.entries = a.relocations.entries := by
  have hread := h.read_object
  rw [if_pos hfit] at hread
  exact ⟨_, hread, rfl, Array.toList_inj.mp (SymbolTable.entries_pushAll ..),
    Array.toList_inj.mp (SymbolTable.entries_pushAll ..)⟩

/-- The rows of the disassembly of a program that has the text and the tables of an assembly. -/
theorem disassemblyRows_of_no_faults (h : a.IsOf settings source) (hf : a.faults = [])
    (hcount : a.words.length ≤ 0x40000000) {p : Program} (htext : p.text.toList = a.text)
    (hsymbols : p.symbols.entries = a.symbols.entries)
    (hrelocations : p.relocations.entries = a.relocations.entries) :
    disassemblyRows p settings.textBase = a.words.map fun w =>
      ⟨source.labels.filter fun label => a.symbols.lookup? label = some w.address,
        w.address, w.value, if w.isJump then [w.reference.name] else []⟩ := by
  refine List.ext_getElem? fun i => ?_
  rw [disassemblyRows, List.getElem?_mapIdx, htext, text, List.getElem?_map, List.getElem?_map,
    Option.map_map]
  cases hi : a.words[i]? with
  | none => rfl
  | some w =>
    have haddress : settings.textBase + BitVec.ofNat 32 (4 * i) = w.address :=
      (h.address_of_no_faults hf hi).symm
    rw [Option.map_some, Option.map_some, Function.comp_apply, haddress]
    dsimp only
    rw [getD_namesByAddress, getD_namesByAddress, hsymbols, hrelocations,
      h.labels_of_no_faults hf, h.references_of_no_faults hf hcount (List.mem_of_getElem? hi)]

/-- The text of a word is an instruction with the mnemonic of its source. -/
theorem disassemble_of_mem_words (h : a.IsOf settings source) {w : PlacedWord} (hw : w ∈ a.words) :
    ∃ (op : Operation) (args : List Bytes) (operands : Bytes),
      tokens w.source = op.name :: args ∧
      disassemble w.value = op.name ++ Ascii.space :: operands ∧
      (w.isJump ↔ op = .j ∨ op = .jal) ∧ (w.isJump → args = [w.reference.name]) := by
  obtain ⟨n, l, resolved, hl, hresolve, rfl⟩ := h.mem_words hw
  have hwf := wellFormed_of_mem_instructionsOf (List.mem_of_getElem? hl)
  have hname := Operation.ofName?_eq_some_iff.mp (RawInstruction.resolve_eq_ok_iff.mp hresolve).1
  have hsource := instruction?_of_render hwf (settings.addressOf n) resolved.encode
  have hfamily := RawInstruction.isJump_iff_of_resolve hresolve
  refine ⟨resolved.operation, l.instruction.args, resolved.operands.render, ?_, ?_, ?_, ?_⟩
  · show tokens l.instruction.render = _
    rw [hwf.tokens_render, hname]
  · show disassemble resolved.encode = _
    rw [disassemble_of_decode? resolved.decode?_encode, Instruction.render_eq]
  · rw [PlacedWord.isJump, hsource, ← Operation.family_eq_jump_iff]
    exact hfamily
  · intro hjump
    rw [PlacedWord.isJump, hsource] at hjump
    obtain ⟨label, hargs, -⟩ := RawInstruction.args_of_resolve_jump hresolve (hfamily.mp hjump)
    rw [PlacedWord.reference, hsource, Option.bind_some, hargs]
    rfl

end Assembly.IsOf

theorem Operation.name_ne_word (op : Operation) : op.name ≠ ascii ".word" := by
  cases op <;> decide

/-- A row shows a word of an assembly: the labels of its address in the order of the source, its
address, its value, its instruction, and its label if it is a jump. -/
def Assembly.ShowsWord (a : Assembly) (source : Source) (row : List Bytes) (w : PlacedWord) :
    Prop :=
  ∃ address value,
    row = [(ascii " ").intercalate
        (source.labels.filter fun label => a.symbols.lookup? label = some w.address),
      ascii "0x" ++ address, value, disassemble w.value,
      if w.isJump then w.reference.name else []] ∧
    ShowsHex upperDigits address w.address ∧ ShowsHex lowerDigits value w.value

/-- There is one row that shows a word. -/
theorem Assembly.showsWord_iff {a : Assembly} {source : Source} {row : List Bytes}
    {w : PlacedWord} : a.ShowsWord source row w ↔
      row = [spaced (source.labels.filter fun label => a.symbols.lookup? label = some w.address),
        listedAddress w.address, hex 8 w.value.toNat, disassemble w.value,
        if w.isJump then w.reference.name else []] := by
  obtain ⟨cell, hcell, hshows⟩ := exists_listedAddress_eq w.address
  rw [hcell]
  constructor
  · rintro ⟨address, value, rfl, haddress, hvalue⟩
    rw [haddress.unique rfl hshows, hvalue.unique rfl (showsHex_hex w.value)]
    rfl
  · rintro rfl
    exact ⟨cell, _, rfl, hshows, showsHex_hex w.value⟩

/-- So the rows that show words are these. -/
theorem Assembly.forall₂_showsWord_iff {a : Assembly} {source : Source} {rows : List (List Bytes)}
    {words : List PlacedWord} : List.Forall₂ (a.ShowsWord source) rows words ↔
      rows = words.map fun w =>
        [spaced (source.labels.filter fun label => a.symbols.lookup? label = some w.address),
          listedAddress w.address, hex 8 w.value.toNat, disassemble w.value,
          if w.isJump then w.reference.name else []] := by
  rw [← List.forall₂_eq_eq_eq, List.forall₂_map_right_iff]
  simp only [← showsWord_iff]

/-- **The disassembly of a loaded assembly lists its words.** Without faults, with no more words than
there are addresses and with tables that fit the lines of an object file, there is one row for each
word, in order: with the labels of its address as they are defined, its address, its value, its
instruction, and its label if it is a jump. The instruction is a known one and shows the mnemonic of
the source. -/
theorem disassembly_lists_words {settings : Settings} {source : Source} {a : Assembly}
    (h : assemble settings source = .ok a) (hf : a.faults = [])
    (hcount : a.words.length ≤ 0x40000000) (hfit : EntriesFit a.entries) :
    (∃ p, Program.read ⟨a.object, none⟩ = .ok p ∧
      List.Forall₂ (a.ShowsWord source) (disassemblyGrid p settings.textBase).rows a.words) ∧
    ∀ w ∈ a.words, ∃ (op : Operation) (args : List Bytes) (operands : Bytes),
      tokens w.source = op.name :: args ∧
      disassemble w.value = op.name ++ Ascii.space :: operands ∧ op.name ≠ ascii ".word" ∧
      (w.isJump ↔ op = .j ∨ op = .jal) ∧ (w.isJump → args = [w.reference.name]) := by
  have hof := isOf_of_assemble h
  constructor
  · obtain ⟨p, hread, htext, hsymbols, hrelocations⟩ := hof.exists_read_object hfit
    refine ⟨p, hread, ?_⟩
    rw [disassemblyGrid, hof.disassemblyRows_of_no_faults hf hcount htext hsymbols hrelocations,
      List.map_map, Assembly.forall₂_showsWord_iff]
    refine List.map_congr_left fun w _ => ?_
    show [_, _, _, _, spaced (if w.isJump then [w.reference.name] else [])] = _
    by_cases hjump : w.isJump
    · rw [if_pos hjump, if_pos hjump, spaced_singleton]
      rfl
    · rw [if_neg hjump, if_neg hjump]
      rfl
  · intro w hw
    obtain ⟨op, args, operands, hsource, htext, hjump⟩ := hof.disassemble_of_mem_words hw
    exact ⟨op, args, operands, hsource, htext, op.name_ne_word, hjump⟩

/-- Two labels of one jump, an instruction without labels, and the target of the jump. -/
def sharedLabelsSource : Source :=
  ⟨ascii "a:\nb: j c\nori $t0 $t1 171\nc: jr $ra\n", none⟩

/-- A text base with letters among its digits. -/
def sharedLabelsSettings : Settings :=
  { textBase := 0x00400ff8 }

theorem disassembly_lists_words_shared :
    ∃ a p, assemble sharedLabelsSettings sharedLabelsSource = .ok a ∧ a.faults = [] ∧
      Program.read ⟨a.object, none⟩ = .ok p ∧
      (disassemblyGrid p sharedLabelsSettings.textBase).rows =
        [[ascii "a b", ascii "0x00400FF8", ascii "08000000", ascii "j 0x0000000", ascii "c"],
          [[], ascii "0x00400FFC", ascii "352800ab", ascii "ori $t0 $t1 171", []],
          [ascii "c", ascii "0x00401000", ascii "03e00008", ascii "jr $ra", []]] := by
  obtain ⟨a, ha⟩ := exists_assemble sharedLabelsSettings rfl sharedLabelsSource
  have hof := isOf_of_assemble ha
  have hprogram : program sharedLabelsSettings sharedLabelsSource =
      [⟨2, ⟨ascii "j", [ascii "c"]⟩⟩,
        ⟨3, ⟨ascii "ori", [ascii "$t0", ascii "$t1", ascii "171"]⟩⟩,
        ⟨4, ⟨ascii "jr", [ascii "$ra"]⟩⟩] := by
    decide +kernel
  have hdefinitions : definitionsOf sharedLabelsSettings sharedLabelsSource.scan.lines =
      [⟨ascii "a", 0x00400ff8⟩, ⟨ascii "b", 0x00400ff8⟩, ⟨ascii "c", 0x00401000⟩] := by
    decide +kernel
  have hwords : a.words = [⟨0x00400ff8, 0x08000000, ascii "j c", 2⟩,
      ⟨0x00400ffc, 0x352800ab, ascii "ori $t0 $t1 171", 3⟩,
      ⟨0x00401000, 0x03e00008, ascii "jr $ra", 4⟩] := by
    rw [Assembly.words, Encoding.words, hof.events_eq, hprogram]
    rfl
  have hf : a.faults = [] := by
    refine hof.faults_eq_nil_iff.mpr ⟨by decide +kernel, by decide +kernel, ?_⟩
    rw [hprogram]
    rintro (_ | _ | _ | n) l hl
    · obtain rfl := Option.some.inj hl
      exact ⟨by decide, ⟨_, rfl⟩, ⟨_, rfl⟩⟩
    · obtain rfl := Option.some.inj hl
      exact ⟨by decide, ⟨_, rfl⟩, ⟨_, rfl⟩⟩
    · obtain rfl := Option.some.inj hl
      exact ⟨by decide, ⟨_, rfl⟩, ⟨_, rfl⟩⟩
    · cases hl
  have hfit : EntriesFit a.entries := by
    rw [Assembly.entries, Assembly.symbols, hof.reads.entries_eq, hdefinitions,
      hof.relocations_eq_filter, hwords]
    decide +kernel
  have hcount : a.words.length ≤ 0x40000000 := by
    rw [hwords]
    decide
  obtain ⟨⟨p, hp, hrows⟩, -⟩ := disassembly_lists_words ha hf hcount hfit
  refine ⟨a, p, ha, hf, hp, (Assembly.forall₂_showsWord_iff.mp hrows).trans ?_⟩
  simp only [hwords, hof.lookup?_eq, hdefinitions]
  decide +kernel

end MipsAssembler
