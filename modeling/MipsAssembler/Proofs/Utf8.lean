import MipsAssembler.Text.Utf8

/-!
# UTF-8 written and read back

A text is valid UTF-8 if it is a sequence of encoded characters (`Utf8.IsValid`).

- `leading?_encode_append`: the reader finds the character that a text begins with.
- `glyphs_encodeAll`: so it finds all characters of a valid text, and no stray bytes.
- `toNat_eq_of_mem_encode`: a byte below 128 is never part of a longer encoding.
- `encodeAll_eq_map`: a text of ASCII characters is encoded byte by byte.
-/

namespace MipsAssembler.Utf8

/-- The text is a sequence of encoded characters. -/
def IsValid (text : Bytes) : Prop :=
  ∃ cs, encodeAll cs = text

/-! ## One character -/

theorem toNat_ofNat {n : Nat} (h : n < 256) : (UInt8.ofNat n).toNat = n :=
  UInt8.toNat_ofNat_of_lt' h

section Leading

theorem bind_of_eq_some {α β : Type} {x : Option α} {value : α} (h : x = some value)
    (f : α → Option β) : x >>= f = f value := by
  rw [h]
  rfl

variable {a b c d : UInt8} {n m k : Nat} {rest : Bytes}

theorem leading?_one (ha : a.toNat < 0x80) : leading? (a :: rest) = some (Char.ofNat a.toNat) := by
  simp only [leading?, UInt8.lt_iff_toNat_lt, UInt8.reduceToNat]
  rw [if_pos ha]

theorem leading?_two (hb : continuation? b = some n) (hleast : 0xc0 ≤ a.toNat)
    (hlt : a.toNat < 0xe0) :
    leading? (a :: b :: rest) = charFrom? 0x80 ((a.toNat - 0xc0) * 0x40 + n) := by
  have hfirst : ((b :: rest)[0]? >>= continuation?) = some n := hb
  simp only [leading?, UInt8.lt_iff_toNat_lt, UInt8.reduceToNat]
  rw [if_neg (by omega), if_neg (by omega), if_pos hlt, bind_of_eq_some hfirst]

theorem leading?_three (hb : continuation? b = some n) (hc : continuation? c = some m)
    (hleast : 0xe0 ≤ a.toNat) (hlt : a.toNat < 0xf0) :
    leading? (a :: b :: c :: rest) =
      charFrom? 0x800 ((a.toNat - 0xe0) * 0x1000 + n * 0x40 + m) := by
  have hfirst : ((b :: c :: rest)[0]? >>= continuation?) = some n := hb
  have hsecond : ((b :: c :: rest)[1]? >>= continuation?) = some m := hc
  simp only [leading?, UInt8.lt_iff_toNat_lt, UInt8.reduceToNat]
  rw [if_neg (by omega), if_neg (by omega), if_neg (by omega), if_pos hlt, bind_of_eq_some hfirst,
    bind_of_eq_some hsecond]

theorem leading?_four (hb : continuation? b = some n) (hc : continuation? c = some m)
    (hd : continuation? d = some k) (hleast : 0xf0 ≤ a.toNat) (hlt : a.toNat < 0xf8) :
    leading? (a :: b :: c :: d :: rest) =
      charFrom? 0x10000 ((a.toNat - 0xf0) * 0x40000 + n * 0x1000 + m * 0x40 + k) := by
  have hfirst : ((b :: c :: d :: rest)[0]? >>= continuation?) = some n := hb
  have hsecond : ((b :: c :: d :: rest)[1]? >>= continuation?) = some m := hc
  have hthird : ((b :: c :: d :: rest)[2]? >>= continuation?) = some k := hd
  simp only [leading?, UInt8.lt_iff_toNat_lt, UInt8.reduceToNat]
  rw [if_neg (by omega), if_neg (by omega), if_neg (by omega), if_neg (by omega), if_pos hlt,
    bind_of_eq_some hfirst, bind_of_eq_some hsecond, bind_of_eq_some hthird]

end Leading

/-- A continuation byte gives back its payload. -/
theorem continuation?_ofNat (n : Nat) :
    continuation? (UInt8.ofNat (n % 0x40 + 0x80)) = some (n % 0x40) := by
  have htoNat := toNat_ofNat (n := n % 0x40 + 0x80) (by omega)
  simp only [continuation?, UInt8.le_iff_toNat_le, UInt8.reduceToNat, htoNat]
  rw [if_pos (by simp; omega), Nat.add_sub_cancel]

/-- A character is found by its code. -/
theorem charFrom?_toNat {c : Char} {least code : Nat} (hcode : code = c.toNat)
    (hleast : least ≤ c.toNat) : charFrom? least code = some c := by
  rw [charFrom?, hcode, if_pos ⟨hleast, c.valid⟩, Char.ofNat_toNat]

/-- The code of a character is no surrogate and belongs to some plane. -/
theorem toNat_valid (c : Char) :
    c.toNat < 0xd800 ∨ 0xdfff < c.toNat ∧ c.toNat < 0x110000 :=
  c.valid

/-- The character that a text begins with is found. -/
theorem leading?_encode_append (c : Char) (rest : Bytes) :
    leading? (encode c ++ rest) = some c := by
  have hvalid := toNat_valid c
  rw [encode, String.utf8EncodeChar]
  simp only [Char.toNat_val]
  split
  · next h =>
    have ha := toNat_ofNat (n := c.toNat) (by omega)
    rw [List.singleton_append, leading?_one (by omega), ha, Char.ofNat_toNat]
  · split
    · have ha := toNat_ofNat (n := c.toNat / 64 % 0x20 + 0xc0) (by omega)
      rw [List.cons_append, List.cons_append,
        leading?_two (continuation?_ofNat _) (by omega) (by omega)]
      exact charFrom?_toNat (by omega) (by omega)
    · split
      · have ha := toNat_ofNat (n := c.toNat / 4096 % 0x10 + 0xe0) (by omega)
        rw [List.cons_append, List.cons_append, List.cons_append,
          leading?_three (continuation?_ofNat _) (continuation?_ofNat _) (by omega) (by omega)]
        exact charFrom?_toNat (by omega) (by omega)
      · have ha := toNat_ofNat (n := c.toNat / 262144 % 0x08 + 0xf0) (by omega)
        rw [List.cons_append, List.cons_append, List.cons_append, List.cons_append,
          leading?_four (continuation?_ofNat _) (continuation?_ofNat _) (continuation?_ofNat _)
            (by omega) (by omega)]
        exact charFrom?_toNat (by omega) (by omega)

/-- A byte below 128 is never part of a longer encoding. -/
theorem toNat_eq_of_mem_encode {c : Char} {b : UInt8} (h : b ∈ encode c) (hb : b.toNat < 0x80) :
    b.toNat = c.toNat := by
  have hlow : ∀ {n : Nat}, 0x80 ≤ n → n < 256 → b ≠ UInt8.ofNat n := by
    rintro n hle hlt rfl
    rw [toNat_ofNat hlt] at hb
    omega
  rw [encode, String.utf8EncodeChar] at h
  simp only [Char.toNat_val] at h
  split at h
  · rw [List.mem_singleton.mp h, toNat_ofNat (by omega)]
  · split at h
    · simp only [List.mem_cons, List.not_mem_nil, or_false] at h
      rcases h with h | h <;> exact absurd h (hlow (by omega) (by omega))
    · split at h
      · simp only [List.mem_cons, List.not_mem_nil, or_false] at h
        rcases h with h | h | h <;> exact absurd h (hlow (by omega) (by omega))
      · simp only [List.mem_cons, List.not_mem_nil, or_false] at h
        rcases h with h | h | h | h <;> exact absurd h (hlow (by omega) (by omega))

theorem encode_of_lt {c : Char} (h : c.toNat < 0x80) : encode c = [c.toUInt8] := by
  rw [encode, String.utf8EncodeChar]
  simp only [Char.toNat_val]
  rw [if_pos (by omega)]
  rfl

/-! ## Texts -/

theorem encodeAll_cons (c : Char) (cs : List Char) :
    encodeAll (c :: cs) = encode c ++ encodeAll cs :=
  List.flatMap_cons

theorem encodeAll_append (cs ds : List Char) :
    encodeAll (cs ++ ds) = encodeAll cs ++ encodeAll ds :=
  List.flatMap_append

/-- A character is read, and what follows it is left. -/
theorem glyphsOnto_encode_append (read : List Glyph) (c : Char) (rest : Bytes) :
    glyphsOnto read (encode c ++ rest) = glyphsOnto (.char c :: read) rest := by
  have hlead := leading?_encode_append c rest
  have hlength : (encode c).length = c.utf8Size := String.length_utf8EncodeChar c
  cases hencode : encode c with
  | nil =>
    rw [hencode] at hlength
    exact absurd hlength (Nat.ne_of_lt c.utf8Size_pos)
  | cons b tail =>
    rw [hencode, List.cons_append] at hlead
    rw [hencode, List.length_cons] at hlength
    rw [List.cons_append, glyphsOnto, hlead]
    dsimp only
    rw [← hlength, Nat.add_sub_cancel, List.drop_left]

/-- **A valid text is read as the characters in it.** -/
theorem glyphs_encodeAll (cs : List Char) : glyphs (encodeAll cs) = cs.map .char := by
  have honto : ∀ read, glyphsOnto read (encodeAll cs) = (cs.map Glyph.char).reverse ++ read := by
    induction cs with
    | nil =>
      intro read
      rw [encodeAll, List.flatMap_nil, glyphsOnto]
      rfl
    | cons c cs ih =>
      intro read
      rw [encodeAll_cons, glyphsOnto_encode_append, ih]
      simp
  rw [glyphs, honto, List.append_nil, List.reverse_reverse]

/-- ASCII characters are encoded as one byte each. -/
theorem encodeAll_eq_map {cs : List Char} (h : ∀ c ∈ cs, c.toNat < 0x80) :
    encodeAll cs = cs.map Char.toUInt8 := by
  induction cs with
  | nil => rfl
  | cons c cs ih =>
    obtain ⟨hc, hcs⟩ := List.forall_mem_cons.mp h
    rw [encodeAll_cons, encode_of_lt hc, ih hcs]
    rfl

end MipsAssembler.Utf8
