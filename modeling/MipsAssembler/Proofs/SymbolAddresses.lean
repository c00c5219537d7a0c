import MipsAssembler.Proofs.Placement

/-!
# Symbols are exact below the top of the address space

A label stands for the text base and four bytes for each instruction from the lines before it. The
sum is kept in 32 bits, and nothing is stored at the address of a label behind the last instruction,
so no check of the image finds out when it wraps.

- `symbolsExact_iff`: the symbols of a program without faults are exact as long as no label comes to
  stand at the top of the address space, and always if the image ends below it.
- `symbol_wraps_at_top`: behind an image that reaches the top, a label wraps to zero.
-/

namespace MipsAssembler

/-- The number of instructions that the first pass wrote for lines before the one with a number. -/
def Assembly.emittedBefore (a : Assembly) (line : Nat) : Nat :=
  a.expansion.origins.toList.countP (· < (line : Int))

/-- Every symbol is the label of one line and stands, over the numbers, four bytes for each
instruction from the lines before it behind the text base. -/
def Assembly.SymbolsExact (a : Assembly) (settings : Settings) (source : Source) : Prop :=
  ∀ e ∈ a.symbols.entries.toList, ∃ j, (∀ i, source.DefinesAt i e.name ↔ i = j) ∧
    e.address.toNat = settings.textBase.toNat + 4 * a.emittedBefore (j + 1) ∧
    settings.textBase.toNat ≤ e.address.toNat ∧
    e.address.toNat ≤ settings.textBase.toNat + 4 * a.words.length

namespace Assembly.IsOf

variable {settings : Settings} {source : Source} {a : Assembly}

theorem emittedBefore_eq (h : a.IsOf settings source) (j : Nat) :
    a.emittedBefore (j + 1) = source.instructionsBefore settings j := by
  obtain ⟨later, hsplit, hearly, hlater⟩ :=
    instructionsOf_take settings.maxArgs source.scan.lines j
  have hcounted : ∀ l ∈ instructionsOf settings.maxArgs (source.scan.lines.take j),
      decide ((l.line : Int) < (j + 1 : Nat)) = true := by
    intro l hl
    have := hearly l hl
    exact decide_eq_true (by omega)
  have hnone : ∀ l ∈ later, ¬ decide ((l.line : Int) < (j + 1 : Nat)) = true := by
    intro l hl
    have := hlater l hl
    rw [decide_eq_true_eq]
    omega
  rw [emittedBefore, h.origins_eq, program, hsplit, List.countP_map, List.countP_append]
  show List.countP (fun l : Located => decide ((l.line : Int) < (j + 1 : Nat))) _ +
    List.countP (fun l : Located => decide ((l.line : Int) < (j + 1 : Nat))) _ = _
  rw [List.countP_eq_length.mpr hcounted, List.countP_eq_zero.mpr hnone, Nat.add_zero,
    Source.instructionsBefore]

/-- In an image that ends below the top of the address space, no label of a program without faults
stands at the top. -/
theorem lt_top_of_no_faults (h : a.IsOf settings source) (hf : a.faults = [])
    (hend : settings.textBase.toNat + settings.imageSize.toNat < 0x100000000) (j : Nat) :
    settings.textBase.toNat + 4 * source.instructionsBefore settings j < 0x100000000 := by
  obtain ⟨ha, -, ⟨-, hwords⟩, -⟩ := Settings.check_eq_ok_iff.mp h.check_eq
  obtain ⟨-, -, hassembles⟩ := h.faults_eq_nil_iff.mp hf
  have hroom : 4 * (program settings source).length ≤ settings.imageSize.toNat :=
    (Image.has_room_iff ha hend hwords).mp fun n l hl => (hassembles n l hl).has_place
  have hle := source.instructionsBefore_le settings j
  omega

/-- Symbols that do not reach the top are exact, and lie between the text base and the end of the
words. -/
theorem symbolsExact_of_lt (h : a.IsOf settings source) (hf : a.faults = [])
    (hlt : ∀ j label, source.DefinesAt j label →
      settings.textBase.toNat + 4 * a.emittedBefore (j + 1) < 0x100000000) :
    a.SymbolsExact settings source := by
  obtain ⟨-, hfirst, -⟩ := h.faults_eq_nil_iff.mp hf
  intro e he
  obtain ⟨j, hj, haddress⟩ := h.symbol_address hfirst he
  rw [← h.emittedBefore_eq] at haddress
  have hnat : e.address.toNat = settings.textBase.toNat + 4 * a.emittedBefore (j + 1) := by
    rw [haddress, Settings.toNat_addressOf_of_lt (hlt j e.name ((hj j).mpr rfl))]
  have hle := source.instructionsBefore_le settings j
  rw [← h.emittedBefore_eq, ← h.length_words hf] at hle
  exact ⟨j, hj, hnat, by omega, by omega⟩

end Assembly.IsOf

/-- **Symbols are exact below the top of the address space.** In a program without faults every
symbol is the label of one line and stands for the text base and four bytes for each instruction
from the lines before it, modulo the size of the address space. It is exact for all symbols exactly
if this sum never reaches that size; and then the symbols lie between the text base and the end of
the words. An image that ends below the top is enough for it. -/
theorem symbolsExact_iff {settings : Settings} {source : Source} {a : Assembly}
    (h : assemble settings source = .ok a) (hf : a.faults = []) :
    (∀ e ∈ a.symbols.entries.toList, ∃ j, (∀ i, source.DefinesAt i e.name ↔ i = j) ∧
        e.address.toNat =
          (settings.textBase.toNat + 4 * a.emittedBefore (j + 1)) % 0x100000000) ∧
      (a.SymbolsExact settings source ↔ ∀ j label, source.DefinesAt j label →
        settings.textBase.toNat + 4 * a.emittedBefore (j + 1) < 0x100000000) ∧
      (settings.textBase.toNat + settings.imageSize.toNat < 0x100000000 →
        a.SymbolsExact settings source) := by
  have hof := isOf_of_assemble h
  obtain ⟨-, hfirst, -⟩ := hof.faults_eq_nil_iff.mp hf
  refine ⟨?_, ⟨?_, hof.symbolsExact_of_lt hf⟩, ?_⟩
  · intro e he
    obtain ⟨j, hj, haddress⟩ := hof.symbol_address hfirst he
    refine ⟨j, hj, ?_⟩
    rw [haddress, Settings.toNat_addressOf, hof.emittedBefore_eq]
  · intro hall j label hdefines
    obtain ⟨e, he, rfl⟩ := hof.exists_symbol hdefines
    obtain ⟨j', hj', haddress, -⟩ := hall e he
    obtain rfl := (hj' j).mp hdefines
    rw [← haddress]
    exact e.address.isLt
  · intro hend
    refine hof.symbolsExact_of_lt hf fun j _ _ => ?_
    rw [hof.emittedBefore_eq]
    exact hof.lt_top_of_no_faults hf hend j

/-! ## A label behind the last instruction -/

/-- One instruction, and a label behind it. -/
def trailingLabelSource : Source :=
  ⟨ascii "jr $ra\nend:\n", none⟩

theorem faults_trailingLabel {settings : Settings} {a : Assembly} (hargs : settings.maxArgs = 3)
    (hplace : ∃ k, (Image.ofSettings settings).offset (settings.addressOf 0) = .ok k)
    (h : assemble settings trailingLabelSource = .ok a) : a.faults = [] := by
  have hprogram : program settings trailingLabelSource = [⟨1, ⟨ascii "jr", [ascii "$ra"]⟩⟩] := by
    rw [program, hargs]
    decide +kernel
  have hfirst : firstFaultsOf settings trailingLabelSource.scan.lines = [] := by
    show contributions (fun before line => (lineRejections settings.maxArgs before line).map
      (LineFault.mk .one (before.length + 1 : Nat) line)) [] _ = []
    rw [hargs]
    decide +kernel
  refine (isOf_of_assemble h).faults_eq_nil_iff.mpr ⟨by decide +kernel, hfirst, ?_⟩
  rw [hprogram]
  rintro (_ | n) l hl
  · obtain rfl := Option.some.inj hl
    exact ⟨by decide, ⟨_, rfl⟩, hplace⟩
  · cases hl

theorem symbolsExact_iff_trailingLabel :
    ∃ a, assemble {} trailingLabelSource = .ok a ∧ a.faults = [] ∧
      a.SymbolsExact {} trailingLabelSource := by
  obtain ⟨a, ha⟩ := exists_assemble {} rfl trailingLabelSource
  have hf := faults_trailingLabel rfl ⟨_, rfl⟩ ha
  exact ⟨a, ha, hf, (symbolsExact_iff ha hf).2.2 (by decide)⟩

/-- An image of one word that ends with the address space. -/
def topSettings : Settings :=
  { textBase := 0xfffffffc, imageSize := 4 }

/-- Behind the last word there is no address left: the label wraps to zero, below the text base, and
nothing is reported. -/
theorem symbol_wraps_at_top :
    ∃ a, assemble topSettings trailingLabelSource = .ok a ∧ a.faults = [] ∧
      a.symbols.entries.toList = [⟨ascii "end", 0⟩] ∧
      ¬ a.SymbolsExact topSettings trailingLabelSource := by
  obtain ⟨a, ha⟩ := exists_assemble topSettings rfl trailingLabelSource
  have hsymbols : a.symbols.entries.toList = [⟨ascii "end", 0⟩] := by
    rw [Assembly.symbols, (isOf_of_assemble ha).reads.entries_eq]
    decide +kernel
  refine ⟨a, ha, faults_trailingLabel rfl ⟨_, rfl⟩ ha, hsymbols, fun hexact => ?_⟩
  have hmem : ⟨ascii "end", 0⟩ ∈ a.symbols.entries.toList := by
    rw [hsymbols]
    exact List.mem_singleton_self _
  obtain ⟨j, -, -, hbase, -⟩ := hexact _ hmem
  exact absurd hbase (by decide)

end MipsAssembler
