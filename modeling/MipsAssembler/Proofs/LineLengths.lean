import MipsAssembler.Proofs.Expansions
import MipsAssembler.Proofs.FirstPass

/-!
# Valid instructions fit between the passes

The line of an instruction between the passes may be longer than its source line only if the
instruction is a pseudo-instruction. One with valid operands stands for a few short instructions, so
a source whose lines fit the scanner's buffer leads to lines that do.

- `Statement.length_render_le`: an instruction is no longer than its source line.
- `RawInstruction.length_render_of_expand`: the real instructions that it stands for are no longer,
  or short.
-/

namespace MipsAssembler

/-! ## Tokens and their line

The room that tokens take, with one byte behind each, is measured by writing them as lines. -/

theorem length_unlines_cons (line : Bytes) (lines : List Bytes) :
    (unlines (line :: lines)).length = line.length + 1 + (unlines lines).length := by
  rw [unlines_cons, List.length_append, List.length_cons]
  omega

theorem length_unlines_filter_le (p : Bytes → Bool) (lines : List Bytes) :
    (unlines (lines.filter p)).length ≤ (unlines lines).length := by
  induction lines with
  | nil => exact Nat.le_refl _
  | cons line lines ih =>
    rw [length_unlines_cons]
    by_cases hp : p line
    · rw [List.filter_cons_of_pos hp, length_unlines_cons]
      omega
    · rw [List.filter_cons_of_neg hp]
      omega

/-- Pieces and the separators between them make up the text. -/
theorem length_unlines_pieces (p : UInt8 → Bool) (text : Bytes) :
    (unlines (pieces p text)).length = text.length + 1 := by
  induction text with
  | nil => rfl
  | cons b text ih =>
    cases hb : p b with
    | true =>
      rw [pieces_cons_of_separator hb, length_unlines_cons, ih, List.length_cons]
      show 0 + 1 + (text.length + 1) = text.length + 1 + 1
      omega
    | false =>
      -- the byte makes the first piece longer
      have hsplit := List.cons_head_tail (l := pieces p text) (by simp [pieces])
      rw [← hsplit, length_unlines_cons] at ih
      rw [pieces_cons_of_not_separator hb, length_unlines_cons, List.length_cons, List.length_cons]
      omega

theorem length_spaced {parts : List Bytes} (h : parts ≠ []) :
    (spaced parts).length + 1 = (unlines parts).length := by
  induction parts with
  | nil => exact absurd rfl h
  | cons part parts ih =>
    rw [length_unlines_cons]
    by_cases hne : parts = []
    · subst hne
      rw [spaced_singleton]
      rfl
    · rw [spaced_cons hne, List.length_append, List.length_cons, ← ih hne]
      omega

theorem RawInstruction.length_render (name : Bytes) (args : List Bytes) :
    (mk name args).render.length = name.length + (unlines args).length := by
  have h := length_spaced (List.cons_ne_nil name args)
  rw [length_unlines_cons] at h
  show (spaced (name :: args)).length = _
  omega

/-- The tokens of a line fit on it with a separator between them. -/
theorem length_unlines_tokens_le (line : Bytes) :
    (unlines (tokens line)).length ≤ line.length + 1 := by
  have hpieces := length_unlines_pieces isDelimiter (stripComment line)
  have hcomment : (stripComment line).length ≤ line.length := (List.takeWhile_sublist _).length_le
  have htokens : (unlines (tokens line)).length ≤ _ := length_unlines_filter_le _ _
  omega

/-- The instruction of a statement is no longer than its tokens. -/
theorem Statement.length_render_of_ofTokens {toks : List Bytes} {st : Statement}
    (h : ofTokens toks = .ok st) {i : RawInstruction} (hi : st.instruction = some i) :
    i.render.length + 1 ≤ (unlines toks).length := by
  cases toks with
  | nil =>
    obtain rfl := Except.ok.inj h
    cases hi
  | cons head tail =>
    by_cases hcolon : Ascii.colon ∈ head
    · obtain ⟨label, rest, rfl, hnot⟩ := List.eq_append_cons_of_mem hcolon
      rw [ofTokens_of_colon hnot] at h
      rw [length_unlines_cons, List.length_append, List.length_cons]
      split at h
      · obtain rfl := Except.ok.inj h
        dsimp only at hi
        split at hi
        · cases tail with
          | nil => cases hi
          | cons name args =>
            obtain rfl := Option.some.inj hi
            rw [RawInstruction.length_render, length_unlines_cons]
            omega
        · obtain rfl := Option.some.inj hi
          rw [RawInstruction.length_render]
          omega
      · cases h
    · rw [ofTokens_of_no_colon hcolon] at h
      obtain rfl := Except.ok.inj h
      obtain rfl := Option.some.inj hi
      rw [RawInstruction.length_render, length_unlines_cons]
      omega

/-- An instruction is no longer than its source line. -/
theorem Statement.length_render_le {line : Bytes} {st : Statement} (h : parse line = .ok st)
    {i : RawInstruction} (hi : st.instruction = some i) : i.render.length ≤ line.length := by
  have htokens := length_unlines_tokens_le line
  have hinstruction := length_render_of_ofTokens h hi
  omega

/-! ## Short instructions -/

theorem Register.length_spelling_le : ∀ r ∈ all, ∀ spelling ∈ r.spellings, spelling.length ≤ 6 := by
  decide +kernel

theorem IsRegister.length_le {token : Bytes} (h : IsRegister token) : token.length ≤ 6 := by
  obtain ⟨r, hr⟩ := h
  exact Register.length_spelling_le r (Register.mem_all r) token hr

theorem length_unlines_le {k : Nat} {lines : List Bytes} (h : ∀ line ∈ lines, line.length ≤ k) :
    (unlines lines).length ≤ lines.length * (k + 1) := by
  induction lines with
  | nil => exact Nat.zero_le _
  | cons line lines ih =>
    rw [List.forall_mem_cons] at h
    have hrest := ih h.2
    rw [length_unlines_cons, List.length_cons, Nat.succ_mul]
    omega

theorem length_decimal_le {n : Nat} (h : n < 100000) : (decimal n).length ≤ 5 := by
  rw [decimal, List.length_map]
  exact (Nat.length_toDigits_le_iff (by decide) (by decide)).mpr h

theorem length_decimalInt_le {v : Int} (h : -100000 < v ∧ v < 100000) :
    (decimalInt v).length ≤ 6 := by
  have hdigits : (decimal v.natAbs).length ≤ 5 := length_decimal_le (by omega)
  rw [decimalInt]
  split
  · rw [List.length_cons]
    omega
  · omega

namespace Pseudo

/-- A real instruction with at most three short operands is short. -/
theorem length_render_real_le {op : Operation} {args : List Bytes} (hcount : args.length ≤ 3)
    (h : ∀ token ∈ args, token.length ≤ 6) : (real op args).render.length ≤ 27 := by
  have hname : op.name.length ≤ 6 := by
    cases op <;> decide
  have hargs := length_unlines_le h
  rw [real, RawInstruction.length_render]
  omega

theorem length_render_loadConstant_le {rd : Bytes} (hrd : rd.length ≤ 6) {value : Int}
    {i : RawInstruction} (hi : i ∈ loadConstant rd value) : i.render.length ≤ 27 := by
  have hhalf (half : BitVec 16) : (decimal half.toNat).length ≤ 6 :=
    Nat.le_succ_of_le (length_decimal_le (by omega))
  rw [loadConstant] at hi
  split at hi
  · next hsmall =>
    have hvalue := length_decimalInt_le (v := value) (by omega)
    obtain rfl := List.mem_singleton.mp hi
    refine length_render_real_le (by simp) ?_
    rw [List.forall_mem_cons, List.forall_mem_cons, List.forall_mem_singleton]
    exact ⟨hrd, by decide, hvalue⟩
  · simp only [List.mem_cons, List.not_mem_nil, or_false] at hi
    rcases hi with rfl | rfl
    · refine length_render_real_le (by simp) ?_
      rw [List.forall_mem_cons, List.forall_mem_singleton]
      exact ⟨hrd, hhalf _⟩
    · refine length_render_real_le (by simp) ?_
      rw [List.forall_mem_cons, List.forall_mem_cons, List.forall_mem_singleton]
      exact ⟨hrd, hrd, hhalf _⟩

/-- The instructions that a pseudo-instruction with valid operands stands for are short. -/
theorem Takes.length_render_le {pseudo : Pseudo} {a b : Bytes} (h : pseudo.Takes [a, b])
    {instructions : List RawInstruction} (hexpansion : pseudo.expansion a b = .ok instructions)
    {i : RawInstruction} (hi : i ∈ instructions) : i.render.length ≤ 27 := by
  cases h with
  | li hrd _ =>
    obtain ⟨value, -, rfl⟩ := expansion_li_eq_ok_iff.mp hexpansion
    exact length_render_loadConstant_le hrd.length_le hi
  | neg hrd hrs =>
    obtain rfl := Except.ok.inj hexpansion
    obtain rfl := List.mem_singleton.mp hi
    refine length_render_real_le (by simp) ?_
    rw [List.forall_mem_cons, List.forall_mem_cons, List.forall_mem_singleton]
    exact ⟨hrd.length_le, by decide, hrs.length_le⟩
  | mfhilo hrhi hrlo =>
    obtain rfl := Except.ok.inj hexpansion
    simp only [List.mem_cons, List.not_mem_nil, or_false] at hi
    rcases hi with rfl | rfl
    · exact length_render_real_le (by simp) (List.forall_mem_singleton.mpr hrhi.length_le)
    · exact length_render_real_le (by simp) (List.forall_mem_singleton.mpr hrlo.length_le)

end Pseudo

/-- The real instructions that an instruction stands for fit between the passes if it does. -/
theorem RawInstruction.length_render_of_expand {i : RawInstruction}
    (hi : i.render.length ≤ maxLineLength) {instructions : List RawInstruction}
    (hexpand : i.expand = .ok instructions) (hreal : ∀ j ∈ instructions, j.IsReal)
    {j : RawInstruction} (hj : j ∈ instructions) : j.render.length ≤ maxLineLength := by
  rcases expand_eq_ok_iff.mp hexpand with ⟨-, rfl⟩ | ⟨pseudo, a, b, -, hexpansion⟩
  · obtain rfl := List.mem_singleton.mp hj
    exact hi
  · have htakes := Pseudo.takes_iff_expansion.mpr ⟨instructions, hexpansion, hreal⟩
    have hshort := htakes.length_render_le hexpansion hj
    rw [maxLineLength]
    omega

end MipsAssembler
