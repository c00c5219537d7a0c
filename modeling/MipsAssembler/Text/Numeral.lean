import MipsAssembler.Text.Bytes

/-!
# Numerals

Digits of a base, read from the left into a natural number that must not pass a limit.

* `digitValue?` gives the value of a digit.
* `Numeral.parse` reads a numeral; `NumeralError` says what stopped it. A value past the limit is
  reported as soon as it is reached, so it wins over a bad digit further to the right.
-/

namespace MipsAssembler

/-- Why a text is no numeral. -/
inductive NumeralError where
  /-- There is no digit at all, or a byte is no digit of the base. -/
  | malformed
  /-- The value passes the limit. -/
  | tooLarge
  deriving DecidableEq, Repr

/-- The wording of the two causes. -/
def NumeralError.message : NumeralError → Bytes
  | .malformed => ascii "invalid syntax"
  | .tooLarge => ascii "value out of range"

/-- The value of a digit, with the letters of either case for ten and more. -/
def digitValue? (b : UInt8) : Option Nat :=
  if Ascii.isDigit b then some (b.toNat - 0x30)
  else if Ascii.isLower b then some (b.toNat - 0x61 + 10)
  else if Ascii.isUpper b then some (b.toNat - 0x41 + 10)
  else none

/-- Each digit reads as its value. -/
theorem digitValue?_hexDigit : ∀ {d : Nat}, d < 16 → digitValue? (hexDigit d) = some d := by
  decide

namespace Numeral

/-- The value of a numeral one digit longer. -/
def step (base limit value : Nat) (b : UInt8) : Except NumeralError Nat :=
  match digitValue? b with
  | none => .error .malformed
  | some d =>
    if base ≤ d then .error .malformed
    else if limit < value * base + d then .error .tooLarge
    else .ok (value * base + d)

/-- The value of a numeral in `base`, which may be at most `limit`. -/
def parse (base limit : Nat) (text : Bytes) : Except NumeralError Nat :=
  if text.isEmpty then .error .malformed else text.foldlM (step base limit) 0

/-- A digit of the base extends a numeral, unless the value passes the limit. -/
theorem step_hexDigit {base limit value d : Nat} (hb : base ≤ 16) (hd : d < base)
    (hv : value * base + d ≤ limit) :
    step base limit value (hexDigit d) = .ok (value * base + d) := by
  have h₁ : ¬ base ≤ d := by omega
  have h₂ : ¬ limit < value * base + d := by omega
  simp [step, digitValue?_hexDigit (show d < 16 by omega), h₁, h₂]

/-- The value of decimal digits, up to a limit that it does not pass. -/
theorem foldlM_decimal {limit : Nat} (n : Nat) (h : n ≤ limit) :
    (decimal n).foldlM (step 10 limit) 0 = .ok n := by
  induction n using Nat.strongRecOn with
  | ind n ih =>
    rcases Nat.lt_or_ge n 10 with hn | hn
    · -- one digit
      have hstep : step 10 limit 0 (hexDigit n) = .ok (0 * 10 + n) :=
        step_hexDigit (by omega) hn (by omega)
      rw [decimal_of_lt_ten hn, List.foldlM_cons]
      change (step 10 limit 0 (hexDigit n) >>= _) = _
      rw [hstep, Nat.zero_mul, Nat.zero_add]
      rfl
    · -- the digits of the quotient, then one more
      have hstep : step 10 limit (n / 10) (hexDigit (n % 10)) = .ok (n / 10 * 10 + n % 10) :=
        step_hexDigit (by omega) (by omega) (by omega)
      rw [decimal_of_ten_le hn, List.foldlM_append, ih (n / 10) (by omega) (by omega)]
      change (step 10 limit (n / 10) (hexDigit (n % 10)) >>= _) = _
      rw [hstep, Nat.div_add_mod']
      rfl

/-- A number in decimal reads back, if it does not pass the limit. -/
theorem parse_decimal {limit n : Nat} (h : n ≤ limit) : parse 10 limit (decimal n) = .ok n := by
  have hne : (decimal n).isEmpty = false := by simp [decimal_ne_nil]
  rw [parse, hne]
  exact foldlM_decimal n h

end Numeral

end MipsAssembler
