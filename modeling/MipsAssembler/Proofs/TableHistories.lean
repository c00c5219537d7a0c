import MipsAssembler.Proofs.SymbolTable

/-!
# Histories of a symbol table

A table is only ever grown, one call after another, and some of the calls are refused. Whatever the
calls were, its entries and its index tell the same story.

- `SymbolTable.Represents`: the index of a table gives the first entry of each name, so a look-up
  stays inside the entries and gives the address of that entry.
- `SymbolTable.Answers`: how a call ends, and what it leaves behind.
- `table_of_history`: both hold of every table that calls have made from an empty one, in either
  mode. They follow from `Kept.addEach`, which carries the invariant through the history.
-/

namespace MipsAssembler

namespace SymbolTable

/-- The entries of a table are word-aligned, stand once where they have to, and are found through
the index. -/
structure Represents (t : SymbolTable) : Prop where
  /-- The index has the names of the entries, and no others. -/
  mem_first_iff : ∀ name, name ∈ t.first ↔ ∃ e ∈ t.entries.toList, e.name = name
  /-- It gives the position of the first entry with a name, so a look-up is never out of range. -/
  position_of_first : ∀ name position, t.first[name]? = some position →
    ∃ e, t.entries[position]? = some e ∧ e.name = name ∧ t.lookup? name = some e.address ∧
      ∀ earlier < position, ∀ e', t.entries[earlier]? = some e' → e'.name ≠ name
  /-- A name without an entry is not found. -/
  lookup?_of_absent : ∀ name, (∀ e ∈ t.entries.toList, e.name ≠ name) → t.lookup? name = none
  /-- Every address is a multiple of four. -/
  aligned : ∀ e ∈ t.entries.toList, e.address.toNat % 4 = 0
  /-- Where names have to stand once, no name stands twice. -/
  nodup : t.unique = true → t.names.Nodup

/-- What a call does: how it ends, and the table behind it. -/
structure Answers (t : SymbolTable) (call : Entry) : Prop where
  /-- The address is looked at first, whatever the name is. -/
  unaligned_iff : t.add call.name call.address = .error (.unaligned call.name call.address) ↔
    call.address.toNat % 4 ≠ 0
  /-- Then the name, where it has to be new. -/
  duplicate_iff : t.add call.name call.address = .error (.duplicate call.name) ↔
    call.address.toNat % 4 = 0 ∧ t.unique = true ∧ call.name ∈ t.names
  /-- Nothing else is refused. -/
  refused_iff : (∃ e, t.add call.name call.address = .error e) ↔
    call.address.toNat % 4 ≠ 0 ∨ t.unique = true ∧ call.name ∈ t.names
  /-- A refused call changes neither the entries nor what is found. -/
  kept_of_refused : ∀ e, t.add call.name call.address = .error e →
    (t.tryAdd call).entries = t.entries ∧ ∀ name, (t.tryAdd call).lookup? name = t.lookup? name
  /-- A call that is taken adds one entry at the end. What was found before is found as before; the
  entry is found where its name is new. -/
  grown_of_taken : ∀ grown, t.add call.name call.address = .ok grown →
    t.tryAdd call = grown ∧ grown.entries.toList = t.entries.toList ++ [call] ∧
      ∀ name, grown.lookup? name =
        (t.lookup? name).or (if call.name = name then some call.address else none)

variable {t : SymbolTable}

/-! ## Representation -/

/-- The index gives the position of the first entry with a name. -/
theorem Indexed.position_of_first (h : t.Indexed) {name : Bytes} {position : Nat}
    (hfirst : t.first[name]? = some position) :
    ∃ e, t.entries[position]? = some e ∧ e.name = name ∧ t.lookup? name = some e.address ∧
      ∀ earlier < position, ∀ e', t.entries[earlier]? = some e' → e'.name ≠ name := by
  have hfind := hfirst
  rw [h name] at hfind
  obtain ⟨hlt, hname, hbefore⟩ := List.findIdx?_eq_some_iff_getElem.mp hfind
  have hentry : t.entries[position]? = some t.entries.toList[position] :=
    Array.getElem?_eq_getElem (show position < t.entries.size from hlt)
  refine ⟨_, hentry, eq_of_beq hname, ?_, ?_⟩
  · rw [lookup?, hfirst]
    show (do let e ← t.entries[position]?; some e.address) = _
    rw [hentry]
    rfl
  · intro earlier hearlier e' he' hsame
    obtain ⟨hbound, rfl⟩ := Array.getElem?_eq_some_iff.mp he'
    exact hbefore earlier hearlier (beq_iff_eq.mpr hsame)

theorem Indexed.lookup?_of_absent (h : t.Indexed) {name : Bytes}
    (habsent : ∀ e ∈ t.entries.toList, e.name ≠ name) : t.lookup? name = none := by
  rw [h.lookup?_eq, List.find?_eq_none.mpr fun e he => by simpa using habsent e he]
  rfl

theorem Kept.represents (h : t.Kept) : t.Represents where
  mem_first_iff := by
    intro name
    rw [Std.HashMap.mem_iff_contains, h.indexed.contains_iff, names, List.mem_map]
  position_of_first := fun _ _ hfirst => h.indexed.position_of_first hfirst
  lookup?_of_absent := fun _ habsent => h.indexed.lookup?_of_absent habsent
  aligned := h.aligned
  nodup := h.nodup

/-! ## One call -/

/-- A look-up in a grown table gives what it gave before, and the new entry only if it gave
nothing. -/
theorem Indexed.lookup?_push (h : t.Indexed) (name : Bytes) (address : Address) (other : Bytes) :
    (t.push name address).lookup? other =
      (t.lookup? other).or (if name = other then some address else none) := by
  rw [(h.push name address).lookup?_eq, h.lookup?_eq, entries_push, Array.toList_push,
    List.find?_append]
  cases t.entries.toList.find? (·.name == other) with
  | some e => rfl
  | none =>
    by_cases hname : name = other
    · simp [hname]
    · simp [hname]

theorem add_eq_error_iff {name : Bytes} {address : Address} {e : Error} :
    t.add name address = .error e ↔ t.refusal? name address = some e := by
  rw [add]
  cases t.refusal? name address with
  | none => simp
  | some e' => simp

/-- Why a call is refused: its address comes before its name. -/
theorem Indexed.refusal?_eq_some_iff (h : t.Indexed) {name : Bytes} {address : Address}
    {e : Error} :
    t.refusal? name address = some e ↔
      address.toNat % 4 ≠ 0 ∧ e = .unaligned name address ∨
        address.toNat % 4 = 0 ∧ t.unique = true ∧ name ∈ t.names ∧ e = .duplicate name := by
  by_cases haligned : address.toNat % 4 = 0
  · by_cases hdup : t.unique = true ∧ name ∈ t.names
    · rw [h.refusal?_of_mem haligned hdup.1 hdup.2, Option.some.injEq]
      constructor
      · rintro rfl
        exact .inr ⟨haligned, hdup.1, hdup.2, rfl⟩
      · rintro (⟨hunaligned, -⟩ | ⟨-, -, -, rfl⟩)
        · exact absurd haligned hunaligned
        · rfl
    · rw [h.refusal?_eq_none_iff.mpr ⟨haligned, fun hunique hmem => hdup ⟨hunique, hmem⟩⟩]
      constructor
      · nofun
      · rintro (⟨hunaligned, -⟩ | ⟨-, hunique, hmem, -⟩)
        · exact absurd haligned hunaligned
        · exact absurd ⟨hunique, hmem⟩ hdup
  · rw [refusal?, if_pos haligned, Option.some.injEq]
    constructor
    · rintro rfl
      exact .inl ⟨haligned, rfl⟩
    · rintro (⟨-, rfl⟩ | ⟨haligned', -⟩)
      · rfl
      · exact absurd haligned' haligned

theorem Indexed.answers (h : t.Indexed) (call : Entry) : t.Answers call where
  unaligned_iff := by
    rw [add_eq_error_iff, h.refusal?_eq_some_iff]
    simp
  duplicate_iff := by
    rw [add_eq_error_iff, h.refusal?_eq_some_iff]
    simp
  refused_iff := by
    simp only [add_eq_error_iff, h.refusal?_eq_some_iff]
    constructor
    · rintro ⟨e, ⟨hunaligned, -⟩ | ⟨-, hunique, hmem, -⟩⟩
      · exact .inl hunaligned
      · exact .inr ⟨hunique, hmem⟩
    · intro hcause
      by_cases haligned : call.address.toNat % 4 = 0
      · obtain ⟨hunique, hmem⟩ := hcause.resolve_left fun hunaligned => hunaligned haligned
        exact ⟨_, .inr ⟨haligned, hunique, hmem, rfl⟩⟩
      · exact ⟨_, .inl ⟨haligned, rfl⟩⟩
  kept_of_refused := by
    intro e he
    have hsame : t.tryAdd call = t := by rw [tryAdd, he]
    rw [hsame]
    exact ⟨rfl, fun _ => rfl⟩
  grown_of_taken := by
    intro grown hgrown
    have hafter : t.tryAdd call = grown := by rw [tryAdd, hgrown]
    obtain ⟨-, rfl⟩ := add_eq_ok_iff.mp hgrown
    refine ⟨hafter, ?_, fun name => h.lookup?_push _ _ name⟩
    rw [entries_push, Array.toList_push]

end SymbolTable

/-- **Tables keep their representation.** Whatever calls were made on an empty table of either mode,
its index gives the first entry of each name, addresses are aligned, and names stand once where they
have to. The next call is refused exactly for an unaligned address or else for a name that has to be
new and is not; it changes nothing then, and otherwise adds one entry and hides none. -/
theorem table_of_history (unique : Bool) (calls : List Entry) :
    ((SymbolTable.empty unique).addEach calls).unique = unique ∧
      ((SymbolTable.empty unique).addEach calls).Represents ∧
      ∀ call, ((SymbolTable.empty unique).addEach calls).Answers call := by
  have hkept := (SymbolTable.kept_empty unique).addEach calls
  exact ⟨SymbolTable.unique_addEach _ calls, hkept.represents, hkept.indexed.answers⟩

end MipsAssembler
