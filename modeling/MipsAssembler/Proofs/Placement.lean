import MipsAssembler.Proofs.Faultless

/-!
# Where instructions and labels are placed

Addresses are counted in 32 bits and the end of the image is checked in 64, so both may wrap. Below
the top of the address space neither does, and an image has room for what its size says.

- `Settings.check_eq_ok_iff`: which settings can be used.
- `Image.has_room_iff`: in an image that ends below the top, there is a place for each instruction
  of a program exactly if the words fit its size.
- `Assembly.IsOf.lookup?_eq_some_iff`: a label stands for the first instruction that is not before
  its line.
-/

namespace MipsAssembler

/-! ## Settings -/

theorem Settings.toNat_imageEnd (settings : Settings) :
    settings.imageEnd.toNat =
      (settings.textBase.toNat + settings.imageSize.toNat) % 0x10000000000000000 := by
  have hbase : settings.textBase.toNat < 0x100000000 := settings.textBase.isLt
  have hsize : settings.textBase.toNat < UInt64.size := by
    rw [UInt64.size]
    omega
  rw [imageEnd, UInt64.toNat_add, UInt64.toNat_ofNat_of_lt' hsize]

section Checks

variable {ε : Type} {p : Prop} [Decidable p] {e : ε} {k : Unit → Except ε Unit}
  {rest : Except ε Unit}

/-- A check that throws lets pass what it does not apply to. -/
theorem ite_throw_bind_eq_ok_iff :
    (if p then throw e >>= k else rest) = .ok () ↔ ¬ p ∧ rest = .ok () := by
  by_cases hp : p
  · rw [if_pos hp]
    exact ⟨nofun, fun h => absurd hp h.1⟩
  · rw [if_neg hp]
    exact ⟨fun h => ⟨hp, h⟩, And.right⟩

theorem ite_throw_eq_ok_iff :
    (if p then throw e else pure () : Except ε Unit) = .ok () ↔ ¬ p := by
  by_cases hp : p
  · rw [if_pos hp]
    exact ⟨nofun, absurd hp⟩
  · rw [if_neg hp]
    exact ⟨fun _ => hp, fun _ => rfl⟩

end Checks

/-- The settings that can be used. The sum in the check of the image's end may wrap. -/
theorem Settings.check_eq_ok_iff {settings : Settings} :
    settings.check = .ok () ↔
      settings.textBase.toNat % 4 = 0 ∧ 0 < settings.maxArgs.toInt ∧
        (settings.imageSize.toNat ≠ 0 ∧ settings.imageSize.toNat % 4 = 0) ∧
        (settings.textBase.toNat + settings.imageSize.toNat) % 0x10000000000000000 ≤ 0x100000000 ∧
        (settings.byteOrder = ByteOrder.big.name ∨ settings.byteOrder = ByteOrder.little.name) := by
  have hargs : settings.maxArgs ≤ 0 ↔ settings.maxArgs.toInt ≤ 0 := Int64.le_iff_toInt_le
  have hzero : settings.imageSize = 0 ↔ settings.imageSize.toNat = 0 := UInt64.toNat_inj.symm
  have hwords : settings.imageSize % 4 = 0 ↔ settings.imageSize.toNat % 4 = 0 :=
    UInt64.toNat_inj.symm
  have hend : 0x100000000 < settings.imageEnd ↔
      0x100000000 < (settings.textBase.toNat + settings.imageSize.toNat) % 0x10000000000000000 := by
    rw [← toNat_imageEnd]
    exact UInt64.lt_iff_toNat_lt
  rw [check, ite_throw_bind_eq_ok_iff, ite_throw_bind_eq_ok_iff, ite_throw_bind_eq_ok_iff,
    ite_throw_bind_eq_ok_iff, ite_throw_eq_ok_iff, hargs, hend]
  simp only [ne_eq, not_not, not_or, not_and_or, Int.not_le, Nat.not_lt, hzero, hwords]

/-! ## Addresses -/

theorem Settings.toNat_addressOf (settings : Settings) (n : Nat) :
    (settings.addressOf n).toNat = (settings.textBase.toNat + 4 * n) % 0x100000000 := by
  rw [addressOf, BitVec.toNat_add, BitVec.toNat_ofNat, Nat.add_mod_mod]

/-- Below the top of the address space the address of an instruction does not wrap. -/
theorem Settings.toNat_addressOf_of_lt {settings : Settings} {n : Nat}
    (h : settings.textBase.toNat + 4 * n < 0x100000000) :
    (settings.addressOf n).toNat = settings.textBase.toNat + 4 * n := by
  rw [toNat_addressOf, Nat.mod_eq_of_lt h]

/-! ## Places in the image -/

section Image

variable {settings : Settings}

/-- An instruction below the top of the address space has a place exactly if its word ends inside
the image. -/
theorem Image.has_place_iff (ha : settings.textBase.toNat % 4 = 0) {n : Nat}
    (hn : settings.textBase.toNat + 4 * n < 0x100000000) :
    (∃ k, (ofSettings settings).offset (settings.addressOf n) = .ok k) ↔
      4 * n + 4 ≤ settings.imageSize.toNat := by
  have haddress := Settings.toNat_addressOf_of_lt hn
  have hbase : ¬ settings.addressOf n < (ofSettings settings).base := by
    rw [BitVec.lt_def, haddress]
    show ¬ settings.textBase.toNat + 4 * n < settings.textBase.toNat
    omega
  rw [offset, if_neg (not_not.mpr (Settings.addressOf_aligned ha n)), if_neg hbase, haddress]
  show (∃ k, (if settings.imageSize.toNat <
    settings.textBase.toNat + 4 * n - settings.textBase.toNat + 4 then _ else _) = _) ↔ _
  by_cases hpast : settings.imageSize.toNat <
      settings.textBase.toNat + 4 * n - settings.textBase.toNat + 4
  · rw [if_pos hpast]
    constructor
    · rintro ⟨k, hk⟩
      cases hk
    · omega
  · rw [if_neg hpast]
    constructor
    · omega
    · intro _
      exact ⟨_, rfl⟩

/-- An image that ends below the top of the address space has room for a program exactly if the
words fit its size. -/
theorem Image.has_room_iff (ha : settings.textBase.toNat % 4 = 0)
    (hend : settings.textBase.toNat + settings.imageSize.toNat < 0x100000000)
    (hwords : settings.imageSize.toNat % 4 = 0) {program : List Located} :
    (∀ n l, program[n]? = some l →
        ∃ k, (ofSettings settings).offset (settings.addressOf n) = .ok k) ↔
      4 * program.length ≤ settings.imageSize.toNat := by
  constructor
  · intro h
    by_contra hlong
    -- the first instruction behind the image does not wrap yet, and has no place
    have hn : settings.imageSize.toNat / 4 < program.length := by omega
    have hplace := h _ _ (List.getElem?_eq_getElem hn)
    rw [has_place_iff ha (by omega)] at hplace
    omega
  · intro hshort n l hl
    have hn := (List.getElem?_eq_some_iff.mp hl).1
    exact (has_place_iff ha (by omega)).mpr (by omega)

end Image

/-! ## Labels -/

/-- The number of instructions from the lines before the one with an index. -/
def Source.instructionsBefore (source : Source) (settings : Settings) (j : Nat) : Nat :=
  (instructionsOf settings.maxArgs (source.scan.lines.take j)).length

theorem Source.instructionsBefore_le (source : Source) (settings : Settings) (j : Nat) :
    source.instructionsBefore settings j ≤ (program settings source).length := by
  obtain ⟨later, hsplit, -⟩ := instructionsOf_take settings.maxArgs source.scan.lines j
  rw [instructionsBefore, program, hsplit, List.length_append]
  omega

namespace Assembly.IsOf

variable {settings : Settings} {source : Source} {a : Assembly}

/-- Where a symbol comes from, and what it stands for. -/
theorem symbol_address (h : a.IsOf settings source)
    (hfirst : firstFaultsOf settings source.scan.lines = []) {e : Entry}
    (he : e ∈ a.symbols.entries.toList) :
    ∃ j, (∀ i, source.DefinesAt i e.name ↔ i = j) ∧
      e.address = settings.addressOf (source.instructionsBefore settings j) := by
  rw [Assembly.symbols, h.reads.entries_eq] at he
  obtain ⟨j, line, hline, hlabel, haddress⟩ := mem_definitionsOf he
  have hdefines : source.DefinesAt j e.name := by
    rw [Source.DefinesAt, hline]
    exact hlabel
  refine ⟨j, fun i => ⟨?_, ?_⟩, haddress⟩
  · intro hi
    exact eq_of_definesAt hfirst hi hdefines
  · rintro rfl
    exact hdefines

/-- Every label that a line defines is a symbol. -/
theorem exists_symbol (h : a.IsOf settings source) {j : Nat} {label : Bytes}
    (hdefines : source.DefinesAt j label) :
    ∃ e ∈ a.symbols.entries.toList, e.name = label := by
  obtain ⟨line, hline, hlabel⟩ := Option.bind_eq_some_iff.mp hdefines
  have hmem : label ∈ (definitionsOf settings source.scan.lines).map (·.name) :=
    mem_definitionsOf_names.mpr
      (List.mem_filterMap.mpr ⟨line, List.mem_of_getElem? hline, hlabel⟩)
  rw [Assembly.symbols, h.reads.entries_eq]
  exact List.mem_map.mp hmem

/-- A label is looked up at the address of the first instruction that is not before its line. -/
theorem lookup?_eq_some_iff (h : a.IsOf settings source)
    (hfirst : firstFaultsOf settings source.scan.lines = []) {label : Bytes} {target : Address} :
    a.symbols.lookup? label = some target ↔ ∃ j, source.DefinesAt j label ∧
      target = settings.addressOf (source.instructionsBefore settings j) := by
  have haddress : ∀ {e : Entry}, e ∈ a.symbols.entries.toList → ∀ {j}, source.DefinesAt j e.name →
      e.address = settings.addressOf (source.instructionsBefore settings j) := by
    intro e he j hj
    obtain ⟨j', hj', haddress⟩ := h.symbol_address hfirst he
    rwa [(hj' j).mp hj]
  constructor
  · intro hlookup
    have hmem := h.reads.indexed.mem_of_lookup? hlookup
    obtain ⟨j, hj, -⟩ := h.symbol_address hfirst hmem
    exact ⟨j, (hj j).mpr rfl, haddress hmem ((hj j).mpr rfl)⟩
  · rintro ⟨j, hj, rfl⟩
    obtain ⟨e, he, rfl⟩ := h.exists_symbol hj
    obtain ⟨address, hlookup⟩ := h.reads.indexed.exists_lookup?_of_mem he
    rw [← haddress (h.reads.indexed.mem_of_lookup? hlookup) hj]
    exact hlookup

end Assembly.IsOf

end MipsAssembler
