import MipsAssembler.Proofs.ObjectFile

/-!
# Object files as a codec

Any words and any two tables that hold labels can be written to an object file, whether they come
from an assembly or not. `object_codec` says what reading that file gives: the words and the entries
again, or, if some entry is too long for a line, the scanner's failure and nothing else.

The tables are described by their histories (`SymbolTable.BuiltFrom`): additions of labels to an
empty table, each of which may have been refused.
-/

namespace MipsAssembler

/-- A table that additions of labels have made from another. -/
def SymbolTable.BuiltFrom (start t : SymbolTable) : Prop :=
  ∃ calls : List Entry, (∀ c ∈ calls, isLabel c.name) ∧ t = start.addEach calls

/-- The entries of a table that may be missing. -/
def SymbolTable.entriesOf (t : Option SymbolTable) : List Entry :=
  (t.map (·.entries.toList)).getD []

namespace SymbolTable.BuiltFrom

variable {unique : Bool} {t : SymbolTable}

theorem kept (h : (empty unique).BuiltFrom t) : t.Kept := by
  obtain ⟨calls, -, rfl⟩ := h
  exact (kept_empty unique).addEach calls

theorem unique_eq (h : (empty unique).BuiltFrom t) : t.unique = unique := by
  obtain ⟨calls, -, rfl⟩ := h
  exact unique_addEach _ calls

theorem readable (h : (empty unique).BuiltFrom t) : ∀ e ∈ t.entries.toList, e.Readable := by
  intro e he
  have haligned : e.address.toNat % 4 = 0 := h.kept.aligned e he
  obtain ⟨calls, hlabels, rfl⟩ := h
  rcases mem_entries_addEach he with hold | hcall
  · -- the table was empty at first
    cases hold
  · exact Entry.readable_of_isLabel haligned (hlabels e hcall)

/-- A missing table counts as the one that additions start from. -/
theorem getD {start : SymbolTable} {t : Option SymbolTable}
    (h : ∀ built ∈ t, start.BuiltFrom built) : start.BuiltFrom (t.getD start) := by
  cases t with
  | none => exact ⟨[], nofun, rfl⟩
  | some built => exact h built rfl

end SymbolTable.BuiltFrom

theorem SymbolTable.entries_getD_empty (t : Option SymbolTable) (unique : Bool) :
    (t.getD (empty unique)).entries.toList = entriesOf t := by
  cases t with
  | none => rfl
  | some built => rfl

/-- A missing table is written as an empty one. -/
theorem renderObject_getD (words : List Word) (symbols relocations : Option SymbolTable) :
    renderObject words symbols relocations =
      renderObject words (some (symbols.getD .symbols))
        (some (relocations.getD .relocations)) := by
  cases symbols with
  | none => cases relocations <;> rfl
  | some symbols => cases relocations <;> rfl

/-- A sink without a capacity takes the whole file. -/
theorem writeObject_unlimited (object : Bytes) :
    writeObject {} object = ({ contents := object.toArray }, .ok ()) := by
  have hfits : ({} : Sink).fits object.length := rfl
  have hpush : ({} : Sink).push object = { contents := object.toArray } := by
    simp [Sink.push, Sink.stored]
  simp only [writeObject, Sink.write, hfits, hpush, if_true]

/-- **Object files are a codec.** The file of any words and of any two tables of labels is written
whole. If every entry fits a line, reading it gives the words and the entries of both tables, in
order; if one does not, reading fails, because of the length of a line and for no other reason. -/
theorem object_codec (words : List Word) {symbols relocations : Option SymbolTable}
    (hsymbols : ∀ t ∈ symbols, SymbolTable.symbols.BuiltFrom t)
    (hrelocations : ∀ t ∈ relocations, SymbolTable.relocations.BuiltFrom t) :
    ∃ sink, writeObject {} (renderObject words symbols relocations) = (sink, .ok ()) ∧
      (EntriesFit (SymbolTable.entriesOf symbols ++ SymbolTable.entriesOf relocations) →
        ∃ p, Program.read ⟨sink.contents.toList, none⟩ = .ok p ∧ p.text.toList = words ∧
          p.symbols.entries.toList = SymbolTable.entriesOf symbols ∧
          p.relocations.entries.toList = SymbolTable.entriesOf relocations) ∧
      (¬ EntriesFit (SymbolTable.entriesOf symbols ++ SymbolTable.entriesOf relocations) →
        Program.read ⟨sink.contents.toList, none⟩ = .error (.unreadable .tooLong)) := by
  refine ⟨_, writeObject_unlimited _, ?_⟩
  have hS := SymbolTable.BuiltFrom.getD hsymbols
  have hR := SymbolTable.BuiltFrom.getD hrelocations
  have hread := read_objectLines words hS.readable hR.readable (hS.kept.nodup hS.unique_eq)
  have hSentries := SymbolTable.entries_getD_empty symbols true
  have hRentries := SymbolTable.entries_getD_empty relocations false
  rw [renderObject_getD, renderObject_eq]
  rw [SymbolTable.symbols, SymbolTable.relocations, hSentries, hRentries] at hread ⊢
  by_cases hfit : EntriesFit (SymbolTable.entriesOf symbols ++ SymbolTable.entriesOf relocations)
  · rw [if_pos hfit] at hread
    refine ⟨fun _ => ⟨_, hread, rfl, ?_, ?_⟩, fun hlong => absurd hfit hlong⟩
    · exact SymbolTable.entries_pushAll ..
    · exact SymbolTable.entries_pushAll ..
  · rw [if_neg hfit] at hread
    exact ⟨fun hfit' => absurd hfit' hfit, fun _ => hread⟩

/-- A history in which one call repeats a name and one has an unaligned address, and no relocation
table at all. -/
theorem object_codec_refused_calls :
    let calls : List Entry := [⟨ascii "x", 0⟩, ⟨ascii "x", 4⟩, ⟨ascii "y", 2⟩]
    let symbols := SymbolTable.symbols.addEach calls
    ∃ sink p, writeObject {} (renderObject [0xdeadbeef] (some symbols) none) = (sink, .ok ()) ∧
      Program.read ⟨sink.contents.toList, none⟩ = .ok p ∧ p.text.toList = [0xdeadbeef] ∧
      p.symbols.entries.toList = symbols.entries.toList ∧
      p.relocations.entries.toList = [] := by
  intro calls symbols
  have hbuilt : ∀ t ∈ some symbols, SymbolTable.symbols.BuiltFrom t := by
    intro t ht
    obtain rfl := Option.some.inj ht
    exact ⟨calls, by decide, rfl⟩
  have hfit : EntriesFit (SymbolTable.entriesOf (some symbols) ++ SymbolTable.entriesOf none) := by
    intro e he
    have hshort : ∀ c ∈ calls, c.line.length ≤ maxLineLength := by decide
    rcases List.mem_append.mp he with he | he
    · rcases SymbolTable.mem_entries_addEach he with hold | hcall
      · cases hold
      · exact hshort e hcall
    · cases he
  have hmissing : ∀ t ∈ (none : Option SymbolTable), SymbolTable.relocations.BuiltFrom t := nofun
  obtain ⟨sink, hwrite, hread, -⟩ := object_codec [0xdeadbeef] hbuilt hmissing
  obtain ⟨p, hp⟩ := hread hfit
  exact ⟨sink, p, hwrite, hp⟩

end MipsAssembler
