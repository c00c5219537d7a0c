import Mathlib.Data.Nat.Digits.Lemmas
import MipsAssembler.Proofs.Literals
import MipsAssembler.Proofs.Tokens

/-!
# The grammar of literals

What a literal looks like, said without a reader, and that exactly these texts are read, with exact
values.

- `Numeral.Spells`: a text writes digits of a base, in letters of either case.
- `Literal.Spelled`: a text is a sign, the mark of a base and digits, and stands for a number. It
  is the same as `Literal.Denotes` (`Literal.denotes_iff_spelled`).
- `Literal.parse64`: the reader in 64-bit words, where numbers could wrap; `Literal.parse64_eq` says
  that none does.
- `literal_parse_exact`: what is read, and what is wrong with everything else.
-/

namespace MipsAssembler

/-! ## Digits -/

namespace Numeral

/-- A byte writes a digit of a base, as a letter of either case from ten on. -/
def WritesDigit (base : Nat) (b : UInt8) (d : Nat) : Prop :=
  d < base ∧ (b = hexDigit d ∨ b = Ascii.toUpper (hexDigit d))

/-- A text writes digits, the least significant of them first in the list and last in the text. -/
def Spells (base : Nat) (text : Bytes) (digits : List Nat) : Prop :=
  List.Forall₂ (WritesDigit base) text.reverse digits

theorem digitValue?_toUpper_hexDigit :
    ∀ {d : Nat}, d < 16 → digitValue? (Ascii.toUpper (hexDigit d)) = some d := by
  decide

/-- A byte has the value of the digit that it writes. -/
theorem digitValue?_eq_some_iff {b : UInt8} {d : Nat} (hd : d < 16) :
    digitValue? b = some d ↔ b = hexDigit d ∨ b = Ascii.toUpper (hexDigit d) := by
  constructor
  · have hbytes : ∀ n : Fin 256, ∀ d ∈ digitValue? (.ofFin n), d < 16 →
        UInt8.ofFin n = hexDigit d ∨ UInt8.ofFin n = Ascii.toUpper (hexDigit d) := by
      decide +kernel
    intro h
    exact forall_byte (p := fun b => ∀ d ∈ digitValue? b, d < 16 →
      b = hexDigit d ∨ b = Ascii.toUpper (hexDigit d)) hbytes b d h hd
  · rintro (rfl | rfl)
    · exact digitValue?_hexDigit hd
    · exact digitValue?_toUpper_hexDigit hd

theorem writesDigit_iff {base : Nat} (hbase : base ≤ 16) {b : UInt8} {d : Nat} :
    WritesDigit base b d ↔ digitValue? b = some d ∧ d < base := by
  rw [WritesDigit, and_comm]
  refine and_congr_left fun hd => ?_
  rw [digitValue?_eq_some_iff (by omega)]

/-- A numeral is digits of its base, and stands for the number with these digits. -/
theorem denotes_iff_spells {base : Nat} (hbase : base ≤ 16) {text : Bytes} {n : Nat} :
    Denotes base text n ↔
      text ≠ [] ∧ ∃ digits, Spells base text digits ∧ n = Nat.ofDigits base digits := by
  constructor
  · intro h
    refine ⟨h.ne_nil, ?_⟩
    induction h with
    | @digit b d hd hlt =>
      refine ⟨[d], .cons ((writesDigit_iff hbase).mpr ⟨hd, hlt⟩) .nil, ?_⟩
      rw [Nat.ofDigits_singleton]
    | @snoc text n b d _ hd hlt ih =>
      obtain ⟨digits, hspells, rfl⟩ := ih
      refine ⟨d :: digits, ?_, ?_⟩
      · rw [Spells, List.reverse_concat]
        exact .cons ((writesDigit_iff hbase).mpr ⟨hd, hlt⟩) hspells
      · rw [Nat.ofDigits_cons, Nat.mul_comm, Nat.add_comm]
  · -- on the text, from its last digit to its first
    rintro ⟨hne, digits, hspells, rfl⟩
    induction text using List.reverseRecOn generalizing digits with
    | nil => exact absurd rfl hne
    | append_singleton text b ih =>
      rw [Spells, List.reverse_concat] at hspells
      cases hspells with
      | @cons _ d _ rest hdigit hrest =>
        obtain ⟨hd, hlt⟩ := (writesDigit_iff hbase).mp hdigit
        by_cases hempty : text = []
        · subst hempty
          cases hrest
          rw [Nat.ofDigits_singleton]
          exact .digit hd hlt
        · rw [Nat.ofDigits_cons, Nat.mul_comm, Nat.add_comm]
          exact .snoc (ih hempty rest hrest) hd hlt

end Numeral

/-! ## Literals -/

namespace Literal

/-- What may stand before the digits of a literal and their mark, and the factor it stands for. -/
def signs : List (Bytes × Int) :=
  [([], 1), (ascii "+", 1), (ascii "-", -1)]

/-- What may mark the digits of a literal, and their base. -/
def marks : List (Bytes × Nat) :=
  [([], 10), (ascii "0x", 16), (ascii "0X", 16)]

/-- A text is a literal, and stands for a number: at most one sign, then decimal digits or
hexadecimal ones behind their mark. -/
def Spelled (token : Bytes) (v : Int) : Prop :=
  ∃ sign ∈ signs, ∃ mark ∈ marks, ∃ text digits,
    token = sign.1 ++ mark.1 ++ text ∧ text ≠ [] ∧ Numeral.Spells mark.2 text digits ∧
      v = sign.2 * (Nat.ofDigits mark.2 digits : Nat)

/-- The digits of a literal with their mark. -/
theorem magnitude_iff_marks {text : Bytes} {n : Nat} :
    Magnitude text n ↔ ∃ mark ∈ marks, ∃ rest digits, text = mark.1 ++ rest ∧ rest ≠ [] ∧
      Numeral.Spells mark.2 rest digits ∧ n = Nat.ofDigits mark.2 digits := by
  constructor
  · intro h
    cases h with
    | decimal h =>
      obtain ⟨hne, digits, hspells, hn⟩ := (Numeral.denotes_iff_spells (by omega)).mp h
      exact ⟨([], 10), by simp [marks], text, digits, rfl, hne, hspells, hn⟩
    | @hexadecimal mark hmark rest _ h =>
      obtain ⟨hne, digits, hspells, hn⟩ := (Numeral.denotes_iff_spells (by omega)).mp h
      have hmem : ([0x30, mark], 16) ∈ marks := by
        rcases hmark with rfl | rfl
        · decide
        · decide
      exact ⟨_, hmem, rest, digits, rfl, hne, hspells, hn⟩
  · rintro ⟨mark, hmark, rest, digits, rfl, hne, hspells, rfl⟩
    simp only [marks, List.mem_cons, List.not_mem_nil, or_false] at hmark
    rcases hmark with rfl | rfl | rfl
    · exact .decimal ((Numeral.denotes_iff_spells (by omega)).mpr ⟨hne, digits, hspells, rfl⟩)
    · exact .hexadecimal (.inl rfl)
        ((Numeral.denotes_iff_spells (by omega)).mpr ⟨hne, digits, hspells, rfl⟩)
    · exact .hexadecimal (.inr rfl)
        ((Numeral.denotes_iff_spells (by omega)).mpr ⟨hne, digits, hspells, rfl⟩)

/-- A literal is a sign and digits. -/
theorem denotes_iff_signs {token : Bytes} {v : Int} :
    Denotes token v ↔ ∃ sign ∈ signs, ∃ text, ∃ n : Nat, token = sign.1 ++ text ∧
      Magnitude text n ∧ v = sign.2 * n := by
  constructor
  · intro h
    cases h with
    | unsigned h => exact ⟨([], 1), by simp [signs], token, _, rfl, h, (Int.one_mul _).symm⟩
    | plus h => exact ⟨([0x2b], 1), by decide, _, _, rfl, h, (Int.one_mul _).symm⟩
    | minus h => exact ⟨([0x2d], -1), by decide, _, _, rfl, h, by omega⟩
  · rintro ⟨sign, hsign, text, n, rfl, h, rfl⟩
    simp only [signs, List.mem_cons, List.not_mem_nil, or_false] at hsign
    rcases hsign with rfl | rfl | rfl
    · rw [Int.one_mul]
      exact .unsigned h
    · rw [Int.one_mul]
      exact .plus h
    · rw [Int.neg_one_mul]
      exact .minus h

theorem denotes_iff_spelled {token : Bytes} {v : Int} : Denotes token v ↔ Spelled token v := by
  simp only [denotes_iff_signs, magnitude_iff_marks, Spelled]
  constructor
  · rintro ⟨sign, hsign, _, _, rfl, ⟨mark, hmark, text, digits, rfl, hne, hspells, rfl⟩, rfl⟩
    exact ⟨sign, hsign, mark, hmark, text, digits, (List.append_assoc ..).symm, hne, hspells, rfl⟩
  · rintro ⟨sign, hsign, mark, hmark, text, digits, rfl, hne, hspells, rfl⟩
    exact ⟨sign, hsign, mark.1 ++ text, _, List.append_assoc ..,
      ⟨mark, hmark, text, digits, rfl, hne, hspells, rfl⟩, rfl⟩

end Literal

/-! ## Reading in 64-bit words -/

namespace Numeral

/-- The value of a numeral one digit longer, in a 64-bit word: neither the product nor the sum may
wrap. -/
def step64 (base value : UInt64) (b : UInt8) : Except NumeralError UInt64 :=
  match digitValue? b with
  | none => .error .malformed
  | some d =>
    if base ≤ .ofNat d then .error .malformed
    else if 0xffffffffffffffff / base < value then .error .tooLarge
    else if value * base + .ofNat d < value * base then .error .tooLarge
    else .ok (value * base + .ofNat d)

/-- The value of a numeral that fits a 64-bit word. -/
def parse64 (base : UInt64) (text : Bytes) : Except NumeralError UInt64 :=
  if text.isEmpty then .error .malformed else text.foldlM (step64 base) 0

theorem digitValue?_lt {b : UInt8} {d : Nat} (h : digitValue? b = some d) : d < 36 := by
  have hbytes : ∀ n : Fin 256, ∀ d ∈ digitValue? (.ofFin n), d < 36 := by
    decide +kernel
  exact forall_byte (p := fun b => ∀ d ∈ digitValue? b, d < 36) hbytes b d h

/-- A digit too many is noticed before the word wraps. -/
theorem step64_eq {base : UInt64} (hbase : 0 < base.toNat) (value : UInt64) (b : UInt8) :
    (step64 base value b).map UInt64.toNat =
      step base.toNat 0xffffffffffffffff value.toNat b := by
  rw [step64, step]
  cases hdigit : digitValue? b with
  | none => rfl
  | some d =>
    have hsmall := digitValue?_lt hdigit
    have hd : (UInt64.ofNat d).toNat = d :=
      UInt64.toNat_ofNat_of_lt' (Nat.lt_trans hsmall (by decide))
    have hmax : (0xffffffffffffffff / base : UInt64).toNat = 0xffffffffffffffff / base.toNat :=
      UInt64.toNat_div ..
    simp only [UInt64.le_iff_toNat_le, UInt64.lt_iff_toNat_lt, hd, hmax,
      Nat.div_lt_iff_lt_mul hbase, UInt64.toNat_add, UInt64.toNat_mul]
    by_cases hlarge : base.toNat ≤ d
    · rw [if_pos hlarge, if_pos hlarge]
      rfl
    rw [if_neg hlarge, if_neg hlarge]
    by_cases hproduct : 0xffffffffffffffff < value.toNat * base.toNat
    · rw [if_pos hproduct, if_pos (by omega)]
      rfl
    -- the product is exact, so the sum wraps exactly if it passes the limit
    rw [if_neg hproduct]
    by_cases hsum : 0xffffffffffffffff < value.toNat * base.toNat + d
    · rw [if_pos hsum, if_pos (by omega)]
      rfl
    · rw [if_neg hsum, if_neg (by omega)]
      show Except.ok (value * base + .ofNat d).toNat = _
      rw [UInt64.toNat_add, UInt64.toNat_mul, hd, Nat.mod_eq_of_lt (by omega),
        Nat.mod_eq_of_lt (by omega)]

/-- However many digits there are, the word never wraps. -/
theorem parse64_eq {base : UInt64} (hbase : 0 < base.toNat) (text : Bytes) :
    (parse64 base text).map UInt64.toNat = parse base.toNat 0xffffffffffffffff text := by
  have hfold (value : UInt64) : (text.foldlM (step64 base) value).map UInt64.toNat =
      text.foldlM (step base.toNat 0xffffffffffffffff) value.toNat := by
    induction text generalizing value with
    | nil => rfl
    | cons b text ih =>
      rw [List.foldlM_cons, List.foldlM_cons, ← step64_eq hbase]
      cases step64 base value b with
      | error e => rfl
      | ok next => exact ih next
  rw [parse64, parse]
  by_cases hempty : text.isEmpty
  · rw [if_pos hempty, if_pos hempty]
    rfl
  · rw [if_neg hempty, if_neg hempty]
    exact hfold 0

end Numeral

namespace Literal

/-- The value of a literal between `least` and `greatest`, in 64-bit words. The digits are read
unsigned. A minus sign negates them as a signed word, if they are small enough for one, and the
range is looked at last. -/
def parse64 (token : Bytes) (least greatest : Int64) : Except OperandError Int64 :=
  let (negative, rest) := sign token
  let (base, digits) := radix rest
  match Numeral.parse64 (.ofNat base) digits with
  | .error .malformed => .error (.notInteger token)
  | .error .tooLarge => .error (.tooWide token)
  | .ok magnitude =>
    if (if negative then 0x8000000000000000 else 0x7fffffffffffffff) < magnitude then
      .error (.tooWide token)
    else
      let value := if negative then -magnitude.toInt64 else magnitude.toInt64
      if value < least ∨ greatest < value then
        .error (.outside value.toInt least.toInt greatest.toInt)
      else .ok value

/-- A magnitude is too large for its sign exactly if no signed word holds the value. -/
theorem wide_iff {negative : Bool} {magnitude : UInt64} :
    (if negative then 0x8000000000000000 else 0x7fffffffffffffff) < magnitude ↔
      (if negative then -(magnitude.toNat : Int) else magnitude.toNat) < -0x8000000000000000 ∨
        0x7fffffffffffffff < (if negative then -(magnitude.toNat : Int) else magnitude.toNat) := by
  rw [UInt64.lt_iff_toNat_lt]
  cases negative with
  | false =>
    show 0x7fffffffffffffff < magnitude.toNat ↔
      (magnitude.toNat : Int) < -0x8000000000000000 ∨ 0x7fffffffffffffff < (magnitude.toNat : Int)
    omega
  | true =>
    show 0x8000000000000000 < magnitude.toNat ↔
      -(magnitude.toNat : Int) < -0x8000000000000000 ∨
        0x7fffffffffffffff < -(magnitude.toNat : Int)
    omega

/-- A magnitude that is small enough keeps its value as a signed word, also `2 ^ 63` under a minus
sign: no signed word holds it, but the one in its place is its own negation. -/
theorem toInt_signed {negative : Bool} {magnitude : UInt64}
    (h : ¬ (if negative then 0x8000000000000000 else 0x7fffffffffffffff) < magnitude) :
    (if negative then -magnitude.toInt64 else magnitude.toInt64).toInt =
      if negative then -(magnitude.toNat : Int) else magnitude.toNat := by
  have hsigned : magnitude.toInt64.toInt = (magnitude.toNat : Int).bmod (2 ^ 64) :=
    BitVec.toInt_eq_toNat_bmod magnitude.toBitVec
  rw [wide_iff] at h
  cases negative with
  | false =>
    simp only [Bool.false_eq_true, if_false] at h ⊢
    rw [hsigned, Int.bmod_eq_of_le (by omega) (by omega)]
  | true =>
    simp only [if_true] at h ⊢
    rw [Int64.toInt_neg, hsigned, Int.bmod_neg_bmod, Int.bmod_eq_of_le (by omega) (by omega)]

/-- The base of a literal is one of two. -/
theorem radix_fst (text : Bytes) : (radix text).1 = 10 ∨ (radix text).1 = 16 := by
  unfold radix
  split
  · exact .inr rfl
  · exact .inr rfl
  · exact .inl rfl

/-- Digits are read in words as in numbers. -/
theorem parse64_radix (text : Bytes) :
    (Numeral.parse64 (.ofNat (radix text).1) (radix text).2).map UInt64.toNat =
      Numeral.parse (radix text).1 0xffffffffffffffff (radix text).2 := by
  rcases radix_fst text with hbase | hbase
  · rw [hbase]
    exact Numeral.parse64_eq (by decide) _
  · rw [hbase]
    exact Numeral.parse64_eq (by decide) _

/-- Reading in words gives what reading in numbers gives, or nothing for the same reason. -/
theorem parse64_eq (token : Bytes) (least greatest : Int64) :
    (parse64 token least greatest).map Int64.toInt =
      parse token least.toInt greatest.toInt := by
  rw [parse64, parse]
  dsimp only
  rw [← parse64_radix]
  cases Numeral.parse64 (.ofNat (radix (sign token).2).1) (radix (sign token).2).2 with
  | error e => cases e <;> rfl
  | ok magnitude =>
    generalize (sign token).1 = negative
    dsimp only [Except.map]
    by_cases hwide : (if negative then 0x8000000000000000 else 0x7fffffffffffffff) < magnitude
    · rw [if_pos hwide, if_pos (wide_iff.mp hwide)]
    · rw [if_neg hwide, if_neg (mt wide_iff.mpr hwide), ← toInt_signed hwide]
      generalize (if negative then -magnitude.toInt64 else magnitude.toInt64) = value
      simp only [Int64.lt_iff_toInt_lt]
      by_cases hrange : value.toInt < least.toInt ∨ greatest.toInt < value.toInt
      · rw [if_pos hrange, if_pos hrange]
      · rw [if_neg hrange, if_neg hrange]

end Literal

/-! ## What is read -/

/-- Digits that stand for too much are too large, wherever the limit is passed. -/
theorem Numeral.Denotes.foldlM_of_lt {base limit : Nat} {text : Bytes} {n : Nat}
    (h : Denotes base text n) (hlt : limit < n) :
    text.foldlM (step base limit) 0 = .error .tooLarge := by
  induction h with
  | digit hd hbase =>
    rw [List.foldlM_cons, step, hd]
    dsimp only
    rw [if_neg (by omega), if_pos (by omega)]
    rfl
  | @snoc text n b d htext hd hbase ih =>
    rw [List.foldlM_append]
    by_cases hpassed : limit < n
    · rw [ih hpassed]
      rfl
    · -- the last digit passes the limit
      rw [htext.foldlM (by omega)]
      show ([b].foldlM (step base limit) n) = _
      rw [List.foldlM_cons, step, hd]
      dsimp only
      rw [if_neg (by omega), if_pos hlt]
      rfl

theorem Numeral.Denotes.parse_eq {base : Nat} {text : Bytes} {n : Nat} (h : Denotes base text n)
    (limit : Nat) : parse base limit text = if limit < n then .error .tooLarge else .ok n := by
  by_cases hlt : limit < n
  · rw [if_pos hlt, parse, if_neg (by simpa using h.ne_nil), h.foldlM_of_lt hlt]
  · rw [if_neg hlt]
    exact parse_eq_ok_iff.mpr ⟨h, by omega⟩

namespace Literal

/-- What becomes of a literal depends on its value only. -/
theorem Denotes.parse_eq {token : Bytes} {v : Int} (h : Denotes token v) (least greatest : Int) :
    parse token least greatest =
      if v < -2 ^ 63 ∨ 2 ^ 63 ≤ v then .error (.tooWide token)
      else if v < least ∨ greatest < v then .error (.outside v least greatest)
      else .ok v := by
  obtain ⟨n, hn, hv⟩ := denotes_iff.mp h
  rw [parse]
  dsimp only
  rw [(magnitude_iff.mp hn).parse_eq]
  by_cases hlt : 0xffffffffffffffff < n
  · rw [if_pos hlt, if_pos]
    split at hv
    · omega
    · omega
  · rw [if_neg hlt]
    dsimp only
    rw [← hv]
    by_cases hwide : v < -2 ^ 63 ∨ 2 ^ 63 ≤ v
    · rw [if_pos hwide, if_pos (by omega)]
    · rw [if_neg hwide, if_neg (by omega)]

/-- A text that is no literal is refused as it stands. -/
theorem parse_of_not_denotes {token : Bytes} (h : ∀ v, ¬ Denotes token v) (least greatest : Int) :
    parse token least greatest = .error (.notInteger token) ∨
      parse token least greatest = .error (.tooWide token) := by
  rw [parse]
  dsimp only
  cases hparse : Numeral.parse (radix (sign token).2).1 0xffffffffffffffff (radix (sign token).2).2
    with
  | error e =>
    cases e with
    | malformed => exact .inl rfl
    | tooLarge => exact .inr rfl
  | ok n =>
    have hn := magnitude_iff.mpr (Numeral.parse_eq_ok_iff.mp hparse).1
    exact absurd (denotes_iff.mpr ⟨n, hn, rfl⟩) (h _)

end Literal

/-- The error says what is wrong with a token that stands for no number of a range. -/
def OperandError.Explains (token : Bytes) (least greatest : Int) : OperandError → Prop
  | .notRegister _ => False
  | .notInteger text => text = token ∧ ∀ v, ¬ Literal.Spelled token v
  | .tooWide text => text = token ∧ ∀ v, Literal.Spelled token v → v < -2 ^ 63 ∨ 2 ^ 63 ≤ v
  | .outside value low high =>
    low = least ∧ high = greatest ∧ Literal.Spelled token value ∧
      ¬ (least ≤ value ∧ value ≤ greatest)

theorem Literal.explains_of_parse {token : Bytes} {least greatest : Int} {e : OperandError}
    (h : parse token least greatest = .error e) : e.Explains token least greatest := by
  by_cases hliteral : ∃ v, Denotes token v
  · obtain ⟨v, hv⟩ := hliteral
    by_cases hwide : v < -2 ^ 63 ∨ 2 ^ 63 ≤ v
    · rw [hv.parse_eq, if_pos hwide] at h
      obtain rfl := Except.error.inj h
      refine ⟨rfl, fun v' hv' => ?_⟩
      rwa [(denotes_iff_spelled.mpr hv').unique hv]
    · rw [hv.parse_eq, if_neg hwide] at h
      split at h
      · obtain rfl := Except.error.inj h
        exact ⟨rfl, rfl, denotes_iff_spelled.mp hv, by omega⟩
      · cases h
  · have hnone : ∀ v, ¬ Denotes token v := not_exists.mp hliteral
    rcases parse_of_not_denotes hnone least greatest with hparse | hparse
    · obtain rfl := Except.error.inj (hparse.symm.trans h)
      exact ⟨rfl, fun v hv => hnone v (denotes_iff_spelled.mpr hv)⟩
    · obtain rfl := Except.error.inj (hparse.symm.trans h)
      exact ⟨rfl, fun v hv => absurd (denotes_iff_spelled.mpr hv) (hnone v)⟩

/-- **Exactly the literals are read, with exact values.** A text is read as a number if and only if
it is a sign or none and then decimal digits, or hexadecimal ones behind their mark, however many,
and the number they stand for lies in the range. For any other text the error is one of the operand
and names what is wrong. Reading in 64-bit words, with limits that are any of them, comes to the
same: nothing wraps into the range. -/
theorem literal_parse_exact (token : Bytes) (least greatest : Int64) :
    (∀ v, Literal.parse token least.toInt greatest.toInt = .ok v ↔
      Literal.Spelled token v ∧ least.toInt ≤ v ∧ v ≤ greatest.toInt) ∧
    (∀ e, Literal.parse token least.toInt greatest.toInt = .error e →
      (Rejection.operand e).kind = .operand ∧
        e.Explains token least.toInt greatest.toInt) ∧
    (Literal.parse64 token least greatest).map Int64.toInt =
      Literal.parse token least.toInt greatest.toInt := by
  refine ⟨fun v => ?_, fun e he => ⟨rfl, Literal.explains_of_parse he⟩,
    Literal.parse64_eq token least greatest⟩
  have hleast := least.le_toInt
  have hgreatest := greatest.toInt_lt
  rw [Literal.parse_eq_ok_iff (by omega) (by omega), Literal.denotes_iff_spelled]

/-- The least word is read under any number of zeros; one digit more is not taken for a zero. -/
example :
    Literal.parse64 (ascii "-0x008000000000000000") Int64.minValue Int64.maxValue =
        .ok Int64.minValue ∧
      Literal.parse64 (ascii "0x10000000000000000") 0 0 =
        .error (.tooWide (ascii "0x10000000000000000")) :=
  ⟨rfl, rfl⟩

end MipsAssembler
