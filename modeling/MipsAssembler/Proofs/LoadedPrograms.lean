import MipsAssembler.Proofs.Loading
import MipsAssembler.Proofs.ObjectCodec

/-!
# Loaded programs are written back

An object file may spell its contents in many ways: sections in any order, blanks around lines,
digits of either case, zeros in front of addresses, and names of any bytes but line feeds. Once it
is read, it can be written in the one canonical way, and reading that gives the same program.

- `Entry.readable_of_readEntry`, `length_line_of_readEntry`: an entry that was read can be read back
  from the line it is written as, which is no longer than the line it came from.
- `Program.rewritable_of_read`: so every entry of a program that was read fits a line.
- `loaded_program_rewrites`: a program that was read is read again from what it is written as.
-/

namespace MipsAssembler

/-! ## Entries -/

theorem Numeral.Denotes.lt_pow {base : Nat} {text : Bytes} {n : Nat} (h : Denotes base text n) :
    n < Nat.pow base text.length := by
  induction h with
  | digit _ hlt => simpa using hlt
  | @snoc text n b d _ _ hlt ih =>
    have hstep : n * base + d < (n + 1) * base := by
      rw [Nat.succ_mul]
      omega
    have hbound : (n + 1) * base ≤ Nat.pow base text.length * base := Nat.mul_le_mul_right base ih
    rw [List.length_append, List.length_singleton, Nat.pow_eq, Nat.pow_succ]
    exact Nat.lt_of_lt_of_le hstep hbound

/-- No numeral is shorter than its number in decimal. -/
theorem length_decimal_of_denotes {text : Bytes} {n : Nat} (h : Numeral.Denotes 10 text n) :
    (decimal n).length ≤ text.length := by
  rw [decimal, List.length_map]
  exact (Nat.length_toDigits_le_iff (by decide) (List.length_pos_iff.mpr h.ne_nil)).mpr h.lt_pow

/-- The address of an entry that was read is in decimal no longer than it was. -/
theorem length_line_of_readEntry {line : Bytes} {e : Entry} (h : readEntry line = .ok e) :
    e.line.length ≤ line.length := by
  obtain ⟨address, value, rfl, -, hvalue, haddress⟩ := exists_of_readEntry h
  obtain ⟨hdenotes, hle⟩ := Numeral.parse_eq_ok_iff.mp hvalue
  have hexact : e.address.toNat = value := by
    rw [haddress, BitVec.toNat_ofNat]
    exact Nat.mod_eq_of_lt (by omega)
  have hdigits := length_decimal_of_denotes hdenotes
  rw [Entry.line, hexact, List.length_append, List.length_append]
  omega

/-- A blank at the end of an entry would stand at the end of its name. -/
theorem not_blank_suffix_line {line : Bytes} {e : Entry} (h : readEntry (trim line) = .ok e) :
    ∀ blank ∈ blanks, ¬ blank <:+ e.line := by
  obtain ⟨address, -, hline, hname, -⟩ := exists_of_readEntry h
  intro blank hblank hsuffix
  have hend : Ascii.tab :: e.name <:+ e.line := List.suffix_append _ _
  rcases List.suffix_or_suffix_of_suffix hsuffix hend with hinside | haround
  · refine not_blank_suffix_trim line blank hblank (hinside.trans ?_)
    rw [hline]
    exact List.suffix_append _ _
  · -- the tab is part of no blank but itself
    have hown : ∀ blank ∈ blanks, Ascii.tab ∈ blank → blank.length = 1 := by decide +kernel
    have hlength := haround.length_le
    rw [hown blank hblank (haround.subset List.mem_cons_self), List.length_cons] at hlength
    exact hname (List.length_eq_zero_iff.mp (by omega))

/-- An entry that was read from a line, whatever stood around it, can be read back. -/
theorem Entry.readable_of_readEntry {line : Bytes} {e : Entry} (h : readEntry (trim line) = .ok e)
    (hnewline : Ascii.newline ∉ line) (ha : e.address.toNat % 4 = 0) : e.Readable := by
  have hlast := not_blank_suffix_line h
  obtain ⟨address, -, hline, hname, -⟩ := exists_of_readEntry h
  have hfirst : ∀ b ∈ e.line.head?, isGraphic b := fun b hb =>
    (isGraphic_of_isDigit (isDigit_of_mem_head? hb)).1
  refine ⟨ha, hname, ?_, ?_, trim_eq_self_of_ends (not_blank_prefix_of_isGraphic hfirst) hlast⟩
  · intro hmem
    simp only [Entry.line, List.mem_append, List.mem_cons] at hmem
    rcases hmem with hmem | hmem | hmem
    · exact absurd (isDigit_of_mem_decimal hmem) (by decide)
    · exact absurd hmem (by decide)
    · have htrim : Ascii.newline ∈ trim line := by
        rw [hline]
        simp [hmem]
      exact hnewline ((trim_isInfix line).subset htrim)
  · rw [dropCarriageReturn, if_neg]
    intro hreturn
    obtain ⟨init, hinit⟩ := List.getLast?_eq_some_iff.mp hreturn
    exact hlast [Ascii.carriageReturn] (by decide) ⟨init, hinit.symm⟩

/-! ## Tables -/

/-- A table whose entries can all be read back from lines. -/
structure SymbolTable.Rewritable (t : SymbolTable) : Prop where
  kept : t.Kept
  readable : ∀ e ∈ t.entries.toList, e.Readable
  fits : EntriesFit t.entries.toList

theorem SymbolTable.rewritable_empty (unique : Bool) : (empty unique).Rewritable :=
  ⟨kept_empty unique, nofun, nofun⟩

theorem SymbolTable.Rewritable.push {t : SymbolTable} (h : t.Rewritable) {e : Entry}
    (hnew : t.refusal? e.name e.address = none)
    (he : e.Readable) (hfits : e.line.length ≤ maxLineLength) :
    (t.push e.name e.address).Rewritable := by
  have htry : t.tryAdd e = t.push e.name e.address := by
    rw [tryAdd, add, hnew]
  have hmem : ∀ other ∈ (t.push e.name e.address).entries.toList,
      other ∈ t.entries.toList ∨ other = e := by
    intro other hother
    rw [entries_push, Array.toList_push, List.mem_append, List.mem_singleton] at hother
    exact hother
  refine ⟨htry ▸ h.kept.tryAdd e, fun other hother => ?_, fun other hother => ?_⟩
  · rcases hmem other hother with hold | rfl
    · exact h.readable other hold
    · exact he
  · rcases hmem other hother with hold | rfl
    · exact h.fits other hold
    · exact hfits

theorem Program.table?_setTable_of_ne {p : Program} {sec other : Section} (h : other ≠ sec)
    (t : SymbolTable) : (p.setTable t sec).table? other = p.table? other := by
  cases sec with
  | text => rfl
  | symbol =>
    cases other with
    | symbol => exact absurd rfl h
    | text | relocation => rfl
  | relocation =>
    cases other with
    | relocation => exact absurd rfl h
    | text | symbol => rfl

namespace Loading

/-- Both tables can be written as lines, and the names of one stand once. -/
def Rewritable (l : Loading) : Prop :=
  ∀ sec t, l.program.table? sec = some t → t.Rewritable ∧ t.unique = decide (sec = .symbol)

theorem Step.rewritable {l l' : Loading} {line : Bytes} (hstep : l.Step line l')
    (hnewline : Ascii.newline ∉ line) (hfit : line.length ≤ maxLineLength) (h : l.Rewritable) :
    l'.Rewritable := by
  cases hstep with
  | blank => exact h
  | header => exact h
  | word =>
    intro sec t ht
    refine h sec t ?_
    cases sec <;> exact ht
  | @entry sec t e hcurrent ht hread hnew =>
    obtain ⟨hwrite, hunique⟩ := h sec t ht
    have haligned := (hwrite.kept.indexed.refusal?_eq_none_iff.mp hnew).1
    have hlength : e.line.length ≤ maxLineLength :=
      calc e.line.length ≤ (trim line).length := length_line_of_readEntry hread
        _ ≤ line.length := (trim_isInfix line).length_le
        _ ≤ maxLineLength := hfit
    intro other t' ht'
    by_cases hsame : other = sec
    · subst hsame
      obtain rfl : t.push e.name e.address = t' := by
        simpa [Program.table?_setTable ht] using ht'
      have hreadable := Entry.readable_of_readEntry hread hnewline haligned
      exact ⟨hwrite.push hnew hreadable hlength, hunique⟩
    · exact h other t' (by rwa [Program.table?_setTable_of_ne hsame] at ht')

theorem rewritable_start : Rewritable {} := by
  intro sec t ht
  cases sec with
  | text => cases ht
  | symbol =>
    obtain rfl := Option.some.inj ht
    exact ⟨SymbolTable.rewritable_empty true, rfl⟩
  | relocation =>
    obtain rfl := Option.some.inj ht
    exact ⟨SymbolTable.rewritable_empty false, rfl⟩

end Loading

/-- The tables of a program that was read can be written as lines. -/
theorem Program.rewritable_of_read {source : Source} {p : Program} (h : read source = .ok p) :
    p.symbols.Rewritable ∧ p.symbols.unique = true ∧ p.relocations.Rewritable := by
  obtain ⟨-, hfit, l, hlines, -, rfl⟩ := read_eq_ok_iff.mp h
  have hrewritable : l.Rewritable := by
    refine Loading.foldlM_step_induction (fun m m' line hline hm hstep => ?_)
      Loading.rewritable_start hlines
    have hpiece := mem_pieces_of_mem_linePieces hline
    refine hstep.rewritable (fun hmem => ?_) (hfit line hpiece) hm
    exact absurd (mem_of_mem_pieces hpiece hmem).2 (by simp)
  obtain ⟨hsymbols, hunique⟩ := hrewritable .symbol _ rfl
  exact ⟨hsymbols, hunique, (hrewritable .relocation _ rfl).1⟩

/-- **A loaded program is written back.** Whatever file a program was read from, its words and its
two tables can be written to an object file, and reading that file gives the same words and the same
entries in the same order. -/
theorem loaded_program_rewrites {source : Source} {p : Program} (h : Program.read source = .ok p) :
    ∃ sink q,
      writeObject {} (renderObject p.text.toList (some p.symbols) (some p.relocations)) =
        (sink, .ok ()) ∧
      Program.read ⟨sink.contents.toList, none⟩ = .ok q ∧ q.text = p.text ∧
      q.symbols.entries = p.symbols.entries ∧ q.relocations.entries = p.relocations.entries := by
  obtain ⟨hsymbols, hunique, hrelocations⟩ := Program.rewritable_of_read h
  have hfit : EntriesFit (p.symbols.entries.toList ++ p.relocations.entries.toList) :=
    List.forall_mem_append.mpr ⟨hsymbols.fits, hrelocations.fits⟩
  have hread := read_objectLines p.text.toList hsymbols.readable hrelocations.readable
    (hsymbols.kept.nodup hunique)
  rw [if_pos hfit, ← renderObject_eq] at hread
  refine ⟨_, _, writeObject_unlimited _, hread, rfl, ?_, ?_⟩
  · exact Array.toList_inj.mp (SymbolTable.entries_pushAll ..)
  · exact Array.toList_inj.mp (SymbolTable.entries_pushAll ..)

/-- Sections out of order and without a blank line between them, zeros in front of addresses, blanks
around lines, and a name with a tab, a carriage return and a byte that is no UTF-8. -/
def looseSource : Source :=
  ⟨ascii ".relocation\r\n 00012\tfar\taway\r" ++ [0xff, 0xe2, 0x80, 0xa8] ++
    ascii "\n.symbol\n0\tmain\n\t.text\nDEADbeef", none⟩

/-- What it holds. -/
def looseProgram : Program where
  text := #[0xdeadbeef]
  symbols := SymbolTable.symbols.push (ascii "main") 0
  relocations := SymbolTable.relocations.push (ascii "far\taway\r" ++ [0xff]) 12

theorem read_looseSource : Program.read looseSource = .ok looseProgram := by
  have hlines : linePieces looseSource.text =
      [ascii ".relocation\r", ascii " 00012\tfar\taway\r" ++ [0xff, 0xe2, 0x80, 0xa8],
        ascii ".symbol", ascii "0\tmain", ascii "\t.text", ascii "DEADbeef"] := by
    decide +kernel
  have hnew : SymbolTable.symbols.refusal? (ascii "main") 0 = none :=
    (SymbolTable.indexed_empty true).refusal?_eq_none_iff.mpr ⟨by decide, fun _ => nofun⟩
  have hfit : LinesFit looseSource.text := by decide +kernel
  let last : Loading :=
    { program := looseProgram, current := some .text, seen := [.text, .symbol, .relocation],
      lines := 6 }
  refine Program.read_eq_ok_iff.mpr ⟨rfl, hfit, last, ?_, List.mem_cons_self, rfl⟩
  rw [hlines]
  refine Loading.foldlM_cons_eq_ok_iff.mpr
    ⟨_, .header (show _ = Section.relocation.header by decide +kernel) nofun, ?_⟩
  refine Loading.foldlM_cons_eq_ok_iff.mpr ⟨_, .entry rfl rfl
    (show readEntry _ = .ok ⟨ascii "far\taway\r" ++ [0xff], 12⟩ by decide +kernel) (by decide), ?_⟩
  refine Loading.foldlM_cons_eq_ok_iff.mpr
    ⟨_, .header (show _ = Section.symbol.header by decide +kernel) (by decide), ?_⟩
  refine Loading.foldlM_cons_eq_ok_iff.mpr ⟨_, .entry rfl rfl
    (show readEntry _ = .ok ⟨ascii "main", 0⟩ by decide +kernel) hnew, ?_⟩
  refine Loading.foldlM_cons_eq_ok_iff.mpr
    ⟨_, .header (show _ = Section.text.header by decide +kernel) (by decide), ?_⟩
  exact Loading.foldlM_cons_eq_ok_iff.mpr ⟨_, .word rfl
    (show readWord _ = .ok 0xdeadbeef by decide +kernel), rfl⟩

theorem loaded_program_rewrites_loose :
    Program.read looseSource = .ok looseProgram ∧ ∃ sink q,
      writeObject {} (renderObject looseProgram.text.toList (some looseProgram.symbols)
        (some looseProgram.relocations)) = (sink, .ok ()) ∧
      Program.read ⟨sink.contents.toList, none⟩ = .ok q ∧ q.text = looseProgram.text ∧
      q.symbols.entries = looseProgram.symbols.entries ∧
      q.relocations.entries = looseProgram.relocations.entries :=
  ⟨read_looseSource, loaded_program_rewrites read_looseSource⟩

end MipsAssembler
