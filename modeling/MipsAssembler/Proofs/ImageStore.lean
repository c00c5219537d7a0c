import MipsAssembler.Proofs.Faultless

/-!
# Stores into images

Words go into an image one by one, and stay there until something else is stored at their address.

- `Image.offset_eq_ok_iff`: where a word can be stored.
- `Image.held_of_store` and `Image.length_of_store`: what one store does.
- `Image.exists_store_of_storeAll`: if a list of words is stored, its first word is and then the
  others.
- `Image.byteAt_eq`: in an image that starts at a multiple of four, the bytes of a word lie side by
  side.
-/

namespace MipsAssembler

namespace Image

/-- The word that an image holds at an address, zero if none was stored. -/
def held (im : Image) (address : Address) : Word :=
  im.words.getD address 0

/-- The address of the word with a number, counted from the base. -/
def place (im : Image) (n : Nat) : Address :=
  im.base + BitVec.ofNat 32 (4 * n)

@[simp] theorem held_ofSettings (settings : Settings) (address : Address) :
    (ofSettings settings).held address = 0 := by
  simp [held, ofSettings]

/-- A word can be stored at the multiples of four from the base on, as long as it ends inside the
image. -/
theorem offset_eq_ok_iff {im : Image} {address : Address} {k : Nat} :
    im.offset address = .ok k ↔ address.toNat % 4 = 0 ∧ im.base.toNat ≤ address.toNat ∧
      address.toNat - im.base.toNat + 4 ≤ im.capacity.toNat ∧
      k = address.toNat - im.base.toNat := by
  have hbelow : address < im.base ↔ address.toNat < im.base.toNat := BitVec.lt_def
  rw [offset]
  by_cases haligned : address.toNat % 4 = 0
  · rw [if_neg (not_not.mpr haligned)]
    by_cases hlow : address < im.base
    · have hlt := hbelow.mp hlow
      rw [if_pos hlow]
      exact ⟨nofun, fun h => absurd h.2.1 (by omega)⟩
    · have hle := mt hbelow.mpr hlow
      rw [if_neg hlow]
      by_cases hpast : im.capacity.toNat < address.toNat - im.base.toNat + 4
      · rw [if_pos hpast]
        exact ⟨nofun, fun h => absurd h.2.2.1 (by omega)⟩
      · rw [if_neg hpast, Except.ok.injEq]
        omega
  · rw [if_pos haligned]
    exact ⟨nofun, fun h => absurd h.1 haligned⟩

theorem load_of_offset {im : Image} {address : Address} {k : Nat}
    (h : im.offset address = .ok k) : im.load address = .ok (im.held address) := by
  rw [load, h]
  rfl

/-! ## One word -/

section Store

variable {im im' : Image} {address : Address} {w : Word}

/-- What a store does. -/
theorem store_eq_ok_iff :
    im.store address w = .ok im' ↔ ∃ k, im.offset address = .ok k ∧
      im' = { im with words := im.words.insert address w, length := max im.length (k + 4) } := by
  rw [store]
  cases im.offset address with
  | error e => simp
  | ok k => simp [eq_comm]

theorem exists_store {k : Nat} (h : im.offset address = .ok k) (w : Word) :
    ∃ next, im.store address w = .ok next :=
  ⟨_, store_eq_ok_iff.mpr ⟨k, h, rfl⟩⟩

/-- A store replaces what is held at its address, and nothing else. -/
theorem held_of_store (h : im.store address w = .ok im') (other : Address) :
    im'.held other = if other = address then w else im.held other := by
  obtain ⟨k, -, rfl⟩ := store_eq_ok_iff.mp h
  by_cases hother : other = address
  · simp [held, hother]
  · simp [held, hother, Std.HashMap.getD_insert, Ne.symm hother]

theorem length_of_store (h : im.store address w = .ok im') :
    im'.length = max im.length (address.toNat - im.base.toNat + 4) := by
  obtain ⟨k, hk, rfl⟩ := store_eq_ok_iff.mp h
  rw [(offset_eq_ok_iff.mp hk).2.2.2]

/-- A store does not move the image. -/
theorem frame_of_store (h : im.store address w = .ok im') :
    im'.base = im.base ∧ im'.capacity = im.capacity ∧ im'.order = im.order := by
  obtain ⟨k, -, rfl⟩ := store_eq_ok_iff.mp h
  exact ⟨rfl, rfl, rfl⟩

end Store

/-! ## Lists of words -/

/-- Where all words are stored, the first of them is and then the others. -/
theorem exists_store_of_storeAll {im : Image} {w : PlacedWord} {words : List PlacedWord}
    (h : (im.storeAll (w :: words)).2 = none) :
    ∃ im', im.store w.address w.value = .ok im' ∧
      im.storeAll (w :: words) = im'.storeAll words ∧ (im'.storeAll words).2 = none := by
  rw [storeAll] at h ⊢
  cases hstore : im.store w.address w.value with
  | error e =>
    rw [hstore] at h
    cases h
  | ok im' =>
    rw [hstore] at h
    exact ⟨im', rfl, rfl, h⟩

/-! ## Bytes -/

/-- In an image that starts at a multiple of four, no word lies across two places. -/
theorem byteAt_eq {im : Image} (hbase : im.base.toNat % 4 = 0) (k : Nat) :
    im.byteAt k = (wordBytes im.order (im.held (im.place (k / 4)))).getD (k % 4) 0 := by
  have hplace : BitVec.ofNat 32 ((im.base.toNat + k) / 4 * 4) = im.place (k / 4) := by
    have hsum : (im.base.toNat + k) / 4 * 4 = im.base.toNat + 4 * (k / 4) := by omega
    rw [hsum, BitVec.ofNat_add, BitVec.ofNat_toNat, BitVec.setWidth_eq, place]
  have hbyte : (im.base.toNat + k) % 4 = k % 4 := by omega
  rw [byteAt, hplace, hbyte]
  rfl

end Image

/-! ## The image of an assembly -/

namespace Assembly.IsOf

variable {settings : Settings} {source : Source} {a : Assembly}

theorem image_eq_storeAll (h : a.IsOf settings source) :
    a.image = ((Image.ofSettings settings).storeAll a.words).1 :=
  congrArg Prod.fst h.image_eq

theorem imageError_eq_storeAll (h : a.IsOf settings source) :
    a.imageError = ((Image.ofSettings settings).storeAll a.words).2 :=
  congrArg Prod.snd h.image_eq

end Assembly.IsOf

end MipsAssembler
