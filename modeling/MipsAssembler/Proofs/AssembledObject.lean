import MipsAssembler.Proofs.Faultless
import MipsAssembler.Proofs.ObjectFile
import MipsAssembler.Proofs.Resolution

/-!
# Object files of assembled programs

The object file of an assembly is to load back as its words and its tables.

- The entries of both tables are labels at aligned addresses (`readable_symbols`,
  `readable_relocations`), and no symbol stands twice.
- So the file loads back if every entry fits the scanner's buffer, and else loading fails for that
  reason alone (`object_reads_back_iff`).
- A label of a source line that fits can make an entry that does not: the address in front of it may
  take more room than the colon behind it (`object_refused_long_label`).
-/

namespace MipsAssembler

namespace Assembly

/-- The entries of both tables of an assembly. -/
def entries (a : Assembly) : List Entry :=
  a.symbols.entries.toList ++ a.relocations.entries.toList

namespace IsOf

variable {settings : Settings} {source : Source} {a : Assembly}

/-- The symbols are labels at aligned addresses. -/
theorem readable_symbols (h : a.IsOf settings source) :
    ∀ e ∈ a.symbols.entries.toList, e.Readable := by
  intro e he
  have hmem : e ∈ definitionsOf settings source.scan.lines := h.reads.entries_eq ▸ he
  obtain ⟨j, line, -, hlabel, haddress⟩ := mem_definitionsOf hmem
  refine Entry.readable_of_isLabel ?_ (isLabel_of_definedLabel? hlabel)
  rw [haddress]
  exact Settings.addressOf_aligned (Settings.aligned_of_check h.check_eq) _

/-- The references are labels at aligned addresses. -/
theorem readable_relocations (h : a.IsOf settings source) :
    ∀ e ∈ a.relocations.entries.toList, e.Readable := by
  intro e he
  rw [h.relocations_eq] at he
  obtain ⟨p, -, hreference⟩ := List.mem_filterMap.mp he
  rw [referenceOf] at hreference
  split at hreference
  · next resolved hresolve =>
    obtain ⟨label, hlabel, rfl⟩ := Option.map_eq_some_iff.mp hreference
    refine Entry.readable_of_isLabel ?_ (RawInstruction.isLabel_of_reference? hresolve hlabel)
    exact Settings.addressOf_aligned (Settings.aligned_of_check h.check_eq) _
  · cases hreference

theorem nodup_symbols (h : a.IsOf settings source) :
    (a.symbols.entries.toList.map (·.name)).Nodup := by
  have hentries : a.symbols.entries.toList = definitionsOf settings source.scan.lines :=
    h.reads.entries_eq
  rw [hentries]
  exact nodup_definitionsOf settings source.scan.lines

/-- What loading the object file of an assembly gives. -/
theorem read_object (h : a.IsOf settings source) :
    Program.read ⟨a.object, none⟩ =
      if EntriesFit a.entries then
        .ok ⟨a.text.toArray, SymbolTable.symbols.pushAll a.symbols.entries.toList,
          SymbolTable.relocations.pushAll a.relocations.entries.toList⟩
      else .error (.unreadable .tooLong) := by
  rw [object, renderObject_eq]
  exact read_objectLines a.text h.readable_symbols h.readable_relocations h.nodup_symbols

end IsOf

end Assembly

/-- **The object file of an assembly loads back** as its words, its symbols and its references,
exactly if every entry fits a line. If one does not, the loader stops at it. -/
theorem object_reads_back_iff {settings : Settings} {source : Source} {a : Assembly}
    (h : assemble settings source = .ok a) :
    ((∃ p, Program.read ⟨a.object, none⟩ = .ok p ∧ p.text.toList = a.text ∧
      p.symbols.entries = a.symbols.entries ∧ p.relocations.entries = a.relocations.entries) ↔
        EntriesFit a.entries) ∧
    (¬ EntriesFit a.entries →
      Program.read ⟨a.object, none⟩ = .error (.unreadable .tooLong)) := by
  have hread := (isOf_of_assemble h).read_object
  by_cases hfit : EntriesFit a.entries
  · rw [if_pos hfit] at hread
    refine ⟨⟨fun _ => hfit, fun _ => ⟨_, hread, rfl, ?_, ?_⟩⟩, fun hlong => absurd hfit hlong⟩
    · exact Array.toList_inj.mp (SymbolTable.entries_pushAll ..)
    · exact Array.toList_inj.mp (SymbolTable.entries_pushAll ..)
  · rw [if_neg hfit] at hread
    refine ⟨⟨?_, fun hfit' => absurd hfit' hfit⟩, fun _ => hread⟩
    rintro ⟨p, hp, -⟩
    rw [hread] at hp
    cases hp

/-- A jump to its own label. -/
def jumpSource : Source :=
  ⟨ascii "x: j x\n", none⟩

theorem object_reads_back_iff_jump :
    ∃ a p, assemble {} jumpSource = .ok a ∧ Program.read ⟨a.object, none⟩ = .ok p ∧
      p.text.toList = a.text ∧ p.symbols.entries = a.symbols.entries ∧
      p.relocations.entries = a.relocations.entries := by
  obtain ⟨a, ha⟩ := exists_assemble {} rfl jumpSource
  have hof := isOf_of_assemble ha
  have hsymbols : a.symbols.entries.toList = [⟨ascii "x", 0⟩] :=
    hof.reads.entries_eq.trans (by decide +kernel)
  have hrelocations : a.relocations.entries.toList = [⟨ascii "x", 0⟩] := by
    have hprogram : (program {} jumpSource).takeWhile Located.fits =
        [⟨1, ⟨ascii "j", [ascii "x"]⟩⟩] := by
      decide +kernel
    rw [hof.relocations_eq, hprogram]
    rfl
  have hfit : EntriesFit a.entries := by
    rw [Assembly.entries, hsymbols, hrelocations]
    decide
  obtain ⟨p, hp⟩ := (object_reads_back_iff ha).1.mpr hfit
  exact ⟨a, p, ha, hp⟩

/-! ## A label that is too long -/

/-- A line that defines a label: one token. -/
def labelLine (label : Bytes) : RawInstruction :=
  ⟨label ++ [Ascii.colon], []⟩

/-- A source of one line, which defines a label. -/
def labelSource (label : Bytes) : Source :=
  ⟨unlines ([labelLine label].map RawInstruction.render), none⟩

section Label

variable {label : Bytes} (h : isLabel label)

include h

theorem wellFormed_labelLine : (labelLine label).WellFormed := by
  intro token htoken
  obtain rfl : token = label ++ [Ascii.colon] := by simpa [labelLine] using htoken
  exact isToken_labelled h [] (List.forall_mem_nil _)

theorem scan_labelSource (hfit : label.length < maxLineLength) :
    (labelSource label).scan = ⟨[(labelLine label).render], none⟩ := by
  refine scan_unlines_render ?_ ?_
  · intro i hi
    obtain rfl := List.mem_singleton.mp hi
    exact wellFormed_labelLine h
  · intro line hline
    obtain rfl : line = label ++ [Ascii.colon] := by
      simpa [labelLine, RawInstruction.render] using hline
    rw [List.length_append]
    exact hfit

theorem parse_labelLine :
    Statement.parse (labelLine label).render = .ok { label := some label } := by
  rw [(wellFormed_labelLine h).parse_render, labelLine,
    Statement.ofTokens_of_colon (colon_notMem_of_isLabel h), if_pos h]
  rfl

/-- The only symbol is the label, at the text base, and there are no instructions. -/
theorem reads_labelSource (hfit : label.length < maxLineLength) :
    definitionsOf {} (labelSource label).scan.lines = [⟨label, 0⟩] ∧
      program {} (labelSource label) = [] ∧
      firstFaultsOf {} (labelSource label).scan.lines = [] := by
  rw [program, scan_labelSource h hfit]
  refine ⟨?_, ?_, ?_⟩
  · simp only [definitionsOf, contributions, definitionAt, definedLabel?, parse_labelLine h]
    rfl
  · simp only [instructionsOf, contributions, locatedAt, lineInstructions, expandLine,
      parse_labelLine h]
    rfl
  · simp only [firstFaultsOf, contributions, firstFaultsAt, lineRejections, labelRejections,
      definedLabel?, expandLine, parse_labelLine h]
    rfl

end Label

theorem isLabel_replicate {b : UInt8} (h : isLabelStart b) (n : Nat) :
    isLabel (List.replicate (n + 1) b) := by
  have hbyte : isLabelByte b := by
    rw [isLabelByte, h]
    rfl
  rw [List.replicate_succ, isLabel, h, Bool.true_and, List.all_eq_true]
  intro c hc
  obtain rfl := List.eq_of_mem_replicate hc
  exact hbyte

/-- A line with a label of this length fits, and an entry with it does not. -/
theorem read_object_labelSource {label : Bytes} (h : isLabel label)
    (hlength : label.length = 65534) :
    ∃ a, assemble {} (labelSource label) = .ok a ∧ a.faults = [] ∧
      Program.read ⟨a.object, none⟩ = .error (.unreadable .tooLong) := by
  obtain ⟨a, ha⟩ := exists_assemble {} rfl (labelSource label)
  have hof := isOf_of_assemble ha
  have hshort : label.length < maxLineLength := by
    rw [hlength]
    decide
  obtain ⟨hdefinitions, hprogram, hfaults⟩ := reads_labelSource h hshort
  have hlong : ¬ EntriesFit a.entries := by
    -- the address takes one digit, and a tab stands where the colon was
    intro hfit
    have hmem : (⟨label, 0⟩ : Entry) ∈ a.entries := by
      refine List.mem_append_left _ ?_
      rw [show a.symbols.entries.toList = _ from hof.reads.entries_eq, hdefinitions]
      exact List.mem_cons_self
    have hline : (⟨label, 0⟩ : Entry).line.length = 65536 := by
      simp [Entry.line, hlength, decimal]
    have hle := hfit _ hmem
    rw [hline] at hle
    exact absurd hle (by decide)
  refine ⟨a, ha, hof.faults_eq_nil_iff.mpr ⟨?_, hfaults, ?_⟩, ?_⟩
  · rw [scan_labelSource h hshort]
  · rw [hprogram]
    intro n l hl
    cases hl
  · rw [hof.read_object, if_neg hlong]

/-- A source that assembles without faults, into an object file that is refused. -/
theorem object_refused_long_label :
    ∃ a, assemble {} (labelSource (List.replicate 65534 0x61)) = .ok a ∧ a.faults = [] ∧
      Program.read ⟨a.object, none⟩ = .error (.unreadable .tooLong) :=
  read_object_labelSource (isLabel_replicate (by decide) 65533) List.length_replicate

end MipsAssembler
