import MipsAssembler.Proofs.Placement

/-!
# Which settings pass the check

Settings are to be refused if their image reaches behind the address space. The check adds the size
of the image to the text base in 64 bits. The size may be any 64-bit number, so the sum may wrap, and
what wraps looks small.

- `Settings.Usable`: settings that can be used, with exact numbers.
- `Settings.Sound.usable_iff`: these are the settings under which every word of the image has its own
  address.
- `Settings.check_eq_ok_iff_usable`: the check accepts these, and those whose sum wraps.
- `check_exact_iff`: so it is right about all settings but the latter.
-/

namespace MipsAssembler

/-- Settings that are right one by one. -/
structure Settings.Sound (s : Settings) : Prop where
  aligned : s.textBase.toNat % 4 = 0
  maxArgs_pos : 0 < s.maxArgs.toInt
  imageSize_ne_zero : s.imageSize.toNat ≠ 0
  imageSize_words : s.imageSize.toNat % 4 = 0
  byteOrder_known : s.byteOrder = ascii "big" ∨ s.byteOrder = ascii "little"

/-- Settings that can be used: the image ends inside the address space, or with it. -/
structure Settings.Usable (s : Settings) : Prop extends s.Sound where
  fits : s.textBase.toNat + s.imageSize.toNat ≤ 0x100000000

namespace Settings

variable {s : Settings}

/-- Sound settings can be used exactly if every word of the image has the address it is counted
to. -/
theorem Sound.usable_iff (h : s.Sound) :
    s.Usable ↔ ∀ n, 4 * n + 4 ≤ s.imageSize.toNat →
      (s.addressOf n).toNat = s.textBase.toNat + 4 * n := by
  constructor
  · intro husable n hn
    have hfits := husable.fits
    exact toNat_addressOf_of_lt (by omega)
  · intro hexact
    -- the last word decides
    have hpos := h.imageSize_ne_zero
    have hwords := h.imageSize_words
    have haligned := h.aligned
    have hlast := hexact (s.imageSize.toNat / 4 - 1) (by omega)
    have hlt : (s.addressOf (s.imageSize.toNat / 4 - 1)).toNat < 0x100000000 := BitVec.isLt _
    exact ⟨h, by omega⟩

/-- The end of the image wraps in 64 bits. -/
def Wraps (s : Settings) : Prop :=
  0x10000000000000000 ≤ s.textBase.toNat + s.imageSize.toNat

/-- The check accepts settings that can be used, and sound ones whose sum wraps. -/
theorem check_eq_ok_iff_usable : s.check = .ok () ↔ s.Usable ∨ s.Sound ∧ s.Wraps := by
  have hbase : s.textBase.toNat < 0x100000000 := s.textBase.isLt
  have hsize : s.imageSize.toNat < 0x10000000000000000 := s.imageSize.toNat_lt
  rw [check_eq_ok_iff, Wraps]
  constructor
  · rintro ⟨haligned, hargs, ⟨hpos, hwords⟩, hend, horder⟩
    have hsound : s.Sound := ⟨haligned, hargs, hpos, hwords, horder⟩
    by_cases hfits : s.textBase.toNat + s.imageSize.toNat ≤ 0x100000000
    · exact .inl ⟨hsound, hfits⟩
    · exact .inr ⟨hsound, by omega⟩
  · rintro (⟨⟨haligned, hargs, hpos, hwords, horder⟩, hfits⟩ |
      ⟨⟨haligned, hargs, hpos, hwords, horder⟩, hwraps⟩)
    · exact ⟨haligned, hargs, ⟨hpos, hwords⟩, by omega, horder⟩
    · -- the text base is a 32-bit number, so what is left of the sum is small
      exact ⟨haligned, hargs, ⟨hpos, hwords⟩, by omega, horder⟩

theorem Usable.not_wraps (h : s.Usable) : ¬ s.Wraps := by
  have hfits := h.fits
  rw [Wraps]
  omega

end Settings

/-- **The check of settings is exact up to wrapping.** It accepts the settings that can be used, and
beyond these only sound ones whose image is so large that its end wraps: about these, and about no
others, it is wrong. -/
theorem check_exact_iff (s : Settings) :
    (s.check = .ok () ↔ s.Usable ∨ s.Sound ∧ s.Wraps) ∧
      ((s.check = .ok () ↔ s.Usable) ↔ ¬ (s.Sound ∧ s.Wraps)) := by
  refine ⟨Settings.check_eq_ok_iff_usable, ?_⟩
  rw [Settings.check_eq_ok_iff_usable]
  constructor
  · rintro hexact ⟨hsound, hwraps⟩
    exact (hexact.mp (.inr ⟨hsound, hwraps⟩)).not_wraps hwraps
  · intro hno
    exact ⟨fun hok => hok.resolve_right hno, .inl⟩

/-- An image of nearly 2 ^ 64 bytes behind the first word. -/
def wrappedSettings : Settings :=
  { textBase := 4, imageSize := 0xfffffffffffffffc }

/-- The end of the image wraps to zero, and the check accepts it. -/
theorem check_accepts_wrapped :
    wrappedSettings.check = .ok () ∧ wrappedSettings.Sound ∧ ¬ wrappedSettings.Usable := by
  refine ⟨by decide, ⟨by decide, by decide, by decide, by decide, .inl rfl⟩, fun husable => ?_⟩
  exact absurd husable.fits (by decide)

end MipsAssembler
