import MipsAssembler.SymbolTable
import Std.Data.HashMap.Lemmas

/-!
# The index of a symbol table

A table keeps its entries in order, and beside them an index of the position of each name's first
entry. `SymbolTable.Indexed` says that the two agree. It holds of an empty table and is kept by
`SymbolTable.push`, so a look-up gives the first entry with a name (`Indexed.lookup?_eq`), and a
table that holds each name once refuses exactly the names it has (`Indexed.refusal?_eq_none_iff`).

`SymbolTable.addEach` is a whole history of additions. Each of them keeps `SymbolTable.Kept`, and so
does the history (`Kept.addEach`).
-/

namespace MipsAssembler

namespace SymbolTable

/-- The index gives the position of the first entry of each name, and nothing else. -/
def Indexed (t : SymbolTable) : Prop :=
  ∀ name : Bytes, t.first[name]? = t.entries.toList.findIdx? (·.name == name)

/-- The names of a table, in order. -/
def names (t : SymbolTable) : List Bytes :=
  t.entries.toList.map (·.name)

@[simp] theorem names_push (t : SymbolTable) (name : Bytes) (address : Address) :
    (t.push name address).names = t.names ++ [name] := by
  simp [names]

theorem indexed_empty (unique : Bool) : (empty unique).Indexed := by
  intro name
  simp [empty]

namespace Indexed

variable {t : SymbolTable}

/-- A name is in the index exactly if some entry has it. -/
theorem contains_iff (h : t.Indexed) {name : Bytes} :
    t.first.contains name ↔ name ∈ t.names := by
  rw [Std.HashMap.contains_eq_isSome_getElem?, h name, List.findIdx?_isSome, List.any_eq_true,
    names, List.mem_map]
  simp only [beq_iff_eq]

/-- The entry added last is indexed only if its name is new. -/
theorem push (h : t.Indexed) (name : Bytes) (address : Address) :
    (t.push name address).Indexed := by
  intro other
  have hfirst : (t.push name address).first = t.first.insertIfNew name t.entries.size := rfl
  rw [hfirst, Std.HashMap.getElem?_insertIfNew, entries_push, Array.toList_push,
    List.findIdx?_append, ← h other]
  by_cases hname : name = other
  · -- `insertIfNew` keeps the first position of a name that stands already
    subst hname
    cases hold : t.first[name]? with
    | none => simp [Std.HashMap.mem_iff_isSome_getElem?, hold]
    | some position => simp [Std.HashMap.mem_iff_isSome_getElem?, hold]
  · simp [hname]

/-- A look-up gives the address of the first entry with the name. -/
theorem lookup?_eq (h : t.Indexed) (name : Bytes) :
    t.lookup? name = (t.entries.toList.find? (·.name == name)).map (·.address) := by
  rw [lookup?, h name]
  cases hfind : t.entries.toList.findIdx? (·.name == name) with
  | none =>
    rw [List.findIdx?_eq_none_iff] at hfind
    rw [List.find?_eq_none.mpr fun e he => by simp [hfind e he]]
    rfl
  | some position =>
    obtain ⟨hlt, hname, hbefore⟩ := List.findIdx?_eq_some_iff_getElem.mp hfind
    have hentry : t.entries.toList.find? (·.name == name) = some t.entries.toList[position] :=
      List.find?_eq_some_iff_getElem.mpr
        ⟨hname, position, hlt, rfl, fun j hj => by simpa using hbefore j hj⟩
    rw [hentry]
    simp [Array.getElem?_eq_getElem (show position < t.entries.size from hlt)]

/-- What is found is the address of an entry with that name. -/
theorem mem_of_lookup? (h : t.Indexed) {name : Bytes} {address : Address}
    (hl : t.lookup? name = some address) : ⟨name, address⟩ ∈ t.entries.toList := by
  rw [h.lookup?_eq, Option.map_eq_some_iff] at hl
  obtain ⟨e, he, rfl⟩ := hl
  obtain rfl : e.name = name := by simpa using List.find?_some he
  exact List.mem_of_find?_eq_some he

/-- A name that stands in the table is found. -/
theorem exists_lookup?_of_mem (h : t.Indexed) {e : Entry} (he : e ∈ t.entries.toList) :
    ∃ address, t.lookup? e.name = some address := by
  rw [h.lookup?_eq]
  cases hfind : t.entries.toList.find? (·.name == e.name) with
  | none => exact absurd (List.find?_eq_none.mp hfind e he) (by simp)
  | some first => exact ⟨first.address, rfl⟩

/-- An entry is taken exactly if its address is aligned and, where names stand once, its name is
new. -/
theorem refusal?_eq_none_iff (h : t.Indexed) {name : Bytes} {address : Address} :
    t.refusal? name address = none ↔
      address.toNat % 4 = 0 ∧ (t.unique = true → name ∉ t.names) := by
  have hcontains : t.first.contains name ↔ name ∈ t.names := h.contains_iff
  unfold refusal?
  split
  · next hunaligned => simp [hunaligned]
  · next haligned =>
    split
    · next hdup =>
      obtain ⟨hunique, hmem⟩ := Bool.and_eq_true_iff.mp hdup
      simp [hunique, hcontains.mp hmem]
    · next hnew =>
      refine ⟨fun _ => ⟨by omega, fun hunique hmem => hnew ?_⟩, fun _ => rfl⟩
      rw [hunique, hcontains.mpr hmem]
      rfl

/-- At an aligned address, only a name that stands already is refused. -/
theorem refusal?_of_mem (h : t.Indexed) {name : Bytes} {address : Address}
    (ha : address.toNat % 4 = 0) (hunique : t.unique = true) (hmem : name ∈ t.names) :
    t.refusal? name address = some (.duplicate name) := by
  rw [refusal?, if_neg (by omega), if_pos]
  rw [hunique, h.contains_iff.mpr hmem]
  rfl

end Indexed

/-! ## Tables built by additions -/

/-- The table after an addition was tried; a refused one leaves it as it was. -/
def tryAdd (t : SymbolTable) (e : Entry) : SymbolTable :=
  match t.add e.name e.address with
  | .ok grown => grown
  | .error _ => t

/-- The table after additions were tried one after another. -/
def addEach (t : SymbolTable) (calls : List Entry) : SymbolTable :=
  calls.foldl tryAdd t

/-- What additions keep: the index agrees with the entries, addresses are aligned, and names stand
once where they have to. -/
structure Kept (t : SymbolTable) : Prop where
  indexed : t.Indexed
  aligned : ∀ e ∈ t.entries.toList, e.address.toNat % 4 = 0
  nodup : t.unique = true → t.names.Nodup

theorem tryAdd_cases (t : SymbolTable) (e : Entry) :
    t.tryAdd e = t ∨
      t.refusal? e.name e.address = none ∧ t.tryAdd e = t.push e.name e.address := by
  rw [tryAdd, add]
  cases t.refusal? e.name e.address with
  | some refusal => exact .inl rfl
  | none => exact .inr ⟨rfl, rfl⟩

theorem kept_empty (unique : Bool) : (empty unique).Kept where
  indexed := indexed_empty unique
  aligned := by simp [empty]
  nodup := by simp [empty, names]

theorem Kept.tryAdd {t : SymbolTable} (h : t.Kept) (e : Entry) : (t.tryAdd e).Kept := by
  rcases t.tryAdd_cases e with hsame | ⟨hnone, hpush⟩
  · rwa [hsame]
  · obtain ⟨haligned, hnew⟩ := h.indexed.refusal?_eq_none_iff.mp hnone
    rw [hpush]
    refine ⟨h.indexed.push _ _, ?_, ?_⟩
    · intro other hother
      rw [entries_push, Array.toList_push, List.mem_append, List.mem_singleton] at hother
      rcases hother with hother | rfl
      · exact h.aligned other hother
      · exact haligned
    · intro hunique
      rw [names_push, List.nodup_append]
      refine ⟨h.nodup hunique, by simp, ?_⟩
      rintro name hname other hother rfl
      obtain rfl := List.mem_singleton.mp hother
      exact hnew hunique hname

theorem Kept.addEach {t : SymbolTable} (h : t.Kept) (calls : List Entry) :
    (t.addEach calls).Kept := by
  induction calls generalizing t with
  | nil => exact h
  | cons e calls ih => exact ih (h.tryAdd e)

theorem unique_addEach (t : SymbolTable) (calls : List Entry) :
    (t.addEach calls).unique = t.unique := by
  induction calls generalizing t with
  | nil => rfl
  | cons e calls ih =>
    show ((t.tryAdd e).addEach calls).unique = t.unique
    rw [ih]
    rcases t.tryAdd_cases e with hsame | ⟨-, hpush⟩
    · rw [hsame]
    · rw [hpush, unique_push]

/-- An entry was there before, or some call has added it. -/
theorem mem_entries_addEach {t : SymbolTable} {calls : List Entry} {e : Entry}
    (h : e ∈ (t.addEach calls).entries.toList) : e ∈ t.entries.toList ∨ e ∈ calls := by
  induction calls generalizing t with
  | nil => exact .inl h
  | cons call calls ih =>
    rcases ih (t := t.tryAdd call) h with hold | hcalls
    · rcases t.tryAdd_cases call with hsame | ⟨-, hpush⟩
      · exact .inl (hsame ▸ hold)
      · rw [hpush, entries_push, Array.toList_push, List.mem_append, List.mem_singleton] at hold
        rcases hold with hold | rfl
        · exact .inl hold
        · exact .inr List.mem_cons_self
    · exact .inr (List.mem_cons_of_mem _ hcalls)

end SymbolTable

end MipsAssembler
