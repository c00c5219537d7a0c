import Mathlib.Data.List.Induction
import MipsAssembler.Literal

/-!
# What literals denote

The grammar of integer literals, and that exactly its words are read, with the values they denote.

- `Numeral.Denotes`: digits of a base and their number; `Numeral.parse_eq_ok_iff` says that they are
  read exactly if that number does not pass the limit.
- `Literal.Denotes`: a sign, a mark of the base and digits, each optional but the last;
  `Literal.parse_eq_ok_iff` says that a literal is read exactly if its value lies in the range.
- `Literal.denotes_decimalInt`: a number in decimal denotes itself.
-/

namespace MipsAssembler

/-! ## Results in sequence -/

/-- A sequence gives a result exactly if both its parts do. -/
theorem bind_eq_ok_iff {ε α β : Type} {x : Except ε α} {f : α → Except ε β} {value : β} :
    (x >>= f) = .ok value ↔ ∃ a, x = .ok a ∧ f a = .ok value := by
  cases x with
  | error e => simp [bind, Except.bind]
  | ok a => simp [bind, Except.bind]

/-! ## Numerals -/

namespace Numeral

/-- Digits of a base, and the number they stand for. -/
inductive Denotes (base : Nat) : Bytes → Nat → Prop where
  /-- One digit stands for its value. -/
  | digit {b : UInt8} {d : Nat} (hd : digitValue? b = some d) (hlt : d < base) : Denotes base [b] d
  /-- One digit more moves the others up by one place. -/
  | snoc {text : Bytes} {n : Nat} {b : UInt8} {d : Nat} (htext : Denotes base text n)
      (hd : digitValue? b = some d) (hlt : d < base) : Denotes base (text ++ [b]) (n * base + d)

variable {base limit : Nat}

theorem Denotes.ne_nil {text : Bytes} {n : Nat} (h : Denotes base text n) : text ≠ [] := by
  cases h with
  | digit => exact List.cons_ne_nil _ _
  | snoc => simp

/-- What denotes a number is made of digits. -/
theorem Denotes.digitValue?_of_mem {text : Bytes} {n : Nat} (h : Denotes base text n) {b : UInt8}
    (hb : b ∈ text) : ∃ d < base, digitValue? b = some d := by
  induction h with
  | digit hd hlt =>
    obtain rfl := List.mem_singleton.mp hb
    exact ⟨_, hlt, hd⟩
  | snoc _ hd hlt ih =>
    rcases List.mem_append.mp hb with hb | hb
    · exact ih hb
    · obtain rfl := List.mem_singleton.mp hb
      exact ⟨_, hlt, hd⟩

theorem step_eq_ok_iff {value n : Nat} {b : UInt8} :
    step base limit value b = .ok n ↔
      ∃ d, digitValue? b = some d ∧ d < base ∧ n = value * base + d ∧ n ≤ limit := by
  rw [step]
  cases digitValue? b with
  | none => simp
  | some d =>
    by_cases hbase : base ≤ d
    · simp [hbase, Nat.not_lt.mpr hbase]
    by_cases hlimit : limit < value * base + d
    · simp only [hbase, hlimit, if_false, if_true, reduceCtorEq, Option.some.injEq, false_iff]
      rintro ⟨d', rfl, -, rfl, hle⟩
      omega
    · simp only [hbase, hlimit, if_false, Except.ok.injEq, Option.some.injEq]
      constructor
      · rintro rfl
        exact ⟨d, rfl, by omega, rfl, by omega⟩
      · rintro ⟨d', rfl, -, rfl, -⟩
        rfl

/-- One digit more is read behind the others. -/
theorem foldlM_concat_eq_ok_iff {text : Bytes} {b : UInt8} {n : Nat} :
    (text ++ [b]).foldlM (step base limit) 0 = .ok n ↔
      ∃ value, text.foldlM (step base limit) 0 = .ok value ∧ step base limit value b = .ok n := by
  rw [List.foldlM_append, bind_eq_ok_iff]
  simp only [List.foldlM_cons, List.foldlM_nil, bind_pure]

theorem denotes_of_foldlM {text : Bytes} (hne : text ≠ []) {n : Nat}
    (h : text.foldlM (step base limit) 0 = .ok n) : Denotes base text n ∧ n ≤ limit := by
  induction text using List.reverseRecOn generalizing n with
  | nil => exact absurd rfl hne
  | append_singleton text b ih =>
    obtain ⟨value, htext, hb⟩ := foldlM_concat_eq_ok_iff.mp h
    obtain ⟨d, hd, hlt, rfl, hle⟩ := step_eq_ok_iff.mp hb
    refine ⟨?_, hle⟩
    by_cases hempty : text = []
    · -- the first digit is read behind a zero
      subst hempty
      obtain rfl := Except.ok.inj htext
      rw [Nat.zero_mul, Nat.zero_add]
      exact .digit hd hlt
    · exact .snoc (ih hempty htext).1 hd hlt

theorem Denotes.foldlM {text : Bytes} {n : Nat} (h : Denotes base text n) (hle : n ≤ limit) :
    text.foldlM (step base limit) 0 = .ok n := by
  induction h with
  | @digit b d hd hlt =>
    show ([] ++ [b]).foldlM (step base limit) 0 = .ok d
    refine foldlM_concat_eq_ok_iff.mpr ⟨0, rfl, ?_⟩
    exact step_eq_ok_iff.mpr ⟨d, hd, hlt, by omega, hle⟩
  | @snoc text n b d _ hd hlt ih =>
    -- what stands before the last digit is smaller, so it does not pass the limit either
    have hsmaller : n ≤ n * base := Nat.le_mul_of_pos_right n (by omega)
    refine foldlM_concat_eq_ok_iff.mpr ⟨n, ih (by omega), ?_⟩
    exact step_eq_ok_iff.mpr ⟨d, hd, hlt, rfl, hle⟩

/-- A text is read as a number exactly if it denotes it and the number does not pass the limit. -/
theorem parse_eq_ok_iff {text : Bytes} {n : Nat} :
    parse base limit text = .ok n ↔ Denotes base text n ∧ n ≤ limit := by
  rw [parse]
  by_cases hempty : text = []
  · subst hempty
    constructor
    · intro h
      cases h
    · intro h
      exact absurd rfl h.1.ne_nil
  · rw [if_neg (by simpa using hempty)]
    exact ⟨denotes_of_foldlM hempty, fun h => h.1.foldlM h.2⟩

/-- Digits stand for one number only. -/
theorem Denotes.unique {text : Bytes} {n m : Nat} (hn : Denotes base text n)
    (hm : Denotes base text m) : n = m := by
  have hparse := parse_eq_ok_iff.mpr ⟨hn, Nat.le_max_left n m⟩
  rw [parse_eq_ok_iff.mpr ⟨hm, Nat.le_max_right n m⟩] at hparse
  exact (Except.ok.inj hparse).symm

end Numeral

/-! ## Literals -/

namespace Literal

/-- The digits of a literal: decimal ones, or hexadecimal ones behind their mark. -/
inductive Magnitude : Bytes → Nat → Prop where
  | decimal {digits : Bytes} {n : Nat} (h : Numeral.Denotes 10 digits n) : Magnitude digits n
  | hexadecimal {mark : UInt8} (hmark : mark = 0x78 ∨ mark = 0x58) {digits : Bytes} {n : Nat}
      (h : Numeral.Denotes 16 digits n) : Magnitude (0x30 :: mark :: digits) n

/-- A literal, and the number it stands for. -/
inductive Denotes : Bytes → Int → Prop where
  | unsigned {digits : Bytes} {n : Nat} (h : Magnitude digits n) : Denotes digits n
  | plus {digits : Bytes} {n : Nat} (h : Magnitude digits n) : Denotes (0x2b :: digits) n
  | minus {digits : Bytes} {n : Nat} (h : Magnitude digits n) : Denotes (0x2d :: digits) (-n)

/-- The first byte of digits is a digit, so it is no sign. -/
theorem Magnitude.sign_eq {digits : Bytes} {n : Nat} (h : Magnitude digits n) :
    sign digits = (false, digits) := by
  cases h with
  | decimal h =>
    unfold sign
    split
    · obtain ⟨d, -, hd⟩ := h.digitValue?_of_mem List.mem_cons_self
      cases hd
    · obtain ⟨d, -, hd⟩ := h.digitValue?_of_mem List.mem_cons_self
      cases hd
    · rfl
  | hexadecimal => rfl

/-- The base and the digits are read off a literal as it was put together. -/
theorem magnitude_iff {text : Bytes} {n : Nat} :
    Magnitude text n ↔ Numeral.Denotes (radix text).1 (radix text).2 n := by
  constructor
  · intro h
    cases h with
    | decimal h =>
      -- a mark would not be a decimal digit
      unfold radix
      split
      · obtain ⟨d, hlt, hd⟩ := h.digitValue?_of_mem (b := 0x78) (by simp)
        obtain rfl : 33 = d := Option.some.inj hd
        omega
      · obtain ⟨d, hlt, hd⟩ := h.digitValue?_of_mem (b := 0x58) (by simp)
        obtain rfl : 33 = d := Option.some.inj hd
        omega
      · exact h
    | hexadecimal hmark h =>
      rcases hmark with rfl | rfl
      · exact h
      · exact h
  · intro h
    unfold radix at h
    split at h
    · exact .hexadecimal (.inl rfl) h
    · exact .hexadecimal (.inr rfl) h
    · exact .decimal h

/-- The sign and the digits are read off a literal as it was put together. -/
theorem denotes_iff {token : Bytes} {v : Int} :
    Denotes token v ↔
      ∃ n : Nat, Magnitude (sign token).2 n ∧ v = if (sign token).1 then -(n : Int) else n := by
  constructor
  · intro h
    cases h with
    | unsigned h =>
      rw [h.sign_eq]
      exact ⟨_, h, rfl⟩
    | plus h => exact ⟨_, h, rfl⟩
    | minus h => exact ⟨_, h, rfl⟩
  · rintro ⟨n, h, rfl⟩
    unfold sign at h ⊢
    split at h
    · exact .minus h
    · exact .plus h
    · exact .unsigned h

/-- A literal stands for one number only. -/
theorem Denotes.unique {token : Bytes} {v u : Int} (hv : Denotes token v) (hu : Denotes token u) :
    v = u := by
  obtain ⟨n, hn, rfl⟩ := denotes_iff.mp hv
  obtain ⟨m, hm, rfl⟩ := denotes_iff.mp hu
  rw [(magnitude_iff.mp hn).unique (magnitude_iff.mp hm)]

/-- A literal is read exactly if its value lies in the range, if that is one of signed 64-bit
numbers. -/
theorem parse_eq_ok_iff {token : Bytes} {least greatest v : Int}
    (hleast : -0x8000000000000000 ≤ least) (hgreatest : greatest ≤ 0x7fffffffffffffff) :
    parse token least greatest = .ok v ↔ Denotes token v ∧ least ≤ v ∧ v ≤ greatest := by
  rw [denotes_iff, parse]
  simp only [magnitude_iff]
  generalize (sign token).1 = negative
  generalize radix (sign token).2 = digits
  constructor
  · intro h
    split at h
    · cases h
    · cases h
    · next n hn =>
      generalize hvalue : (if negative then -(n : Int) else n) = value at h
      split at h
      · cases h
      split at h
      · cases h
      next hrange =>
        obtain rfl := Except.ok.inj h
        exact ⟨⟨n, (Numeral.parse_eq_ok_iff.mp hn).1, hvalue.symm⟩, by omega, by omega⟩
  · rintro ⟨⟨n, hn, hv⟩, hlow, hhigh⟩
    -- the value lies in the range, so its digits do not pass the limit
    have hlimit : n ≤ 0xffffffffffffffff := by
      cases negative
      · simp only [Bool.false_eq_true, if_false] at hv
        omega
      · simp only [if_true] at hv
        omega
    rw [Numeral.parse_eq_ok_iff.mpr ⟨hn, hlimit⟩]
    dsimp only
    rw [← hv, if_neg (by omega), if_neg (by omega)]

theorem denotes_decimal (n : Nat) : Denotes (decimal n) n :=
  .unsigned (.decimal (Numeral.parse_eq_ok_iff.mp (Numeral.parse_decimal (Nat.le_refl n))).1)

/-- A number in decimal denotes itself. -/
theorem denotes_decimalInt (v : Int) : Denotes (decimalInt v) v := by
  rw [decimalInt]
  by_cases hneg : v < 0
  · rw [if_pos hneg]
    have hv : -(v.natAbs : Int) = v := by omega
    have h : Denotes (Ascii.minus :: decimal v.natAbs) (-(v.natAbs : Int)) :=
      .minus (.decimal (Numeral.parse_eq_ok_iff.mp (Numeral.parse_decimal (Nat.le_refl _))).1)
    rwa [hv] at h
  · rw [if_neg hneg]
    have hv : (v.natAbs : Int) = v := by omega
    have h := denotes_decimal v.natAbs
    rwa [hv] at h

end Literal

end MipsAssembler
