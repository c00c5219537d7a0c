import MipsAssembler.Proofs.Lines
import MipsAssembler.Text.Blank

/-!
# Trimming

Blanks are encodings of one to three bytes, none of which begins or ends another (`PrefixCode`). So
it does not matter in which order they are looked for, and what `trim` removes is a run of blanks at
either end: it leaves a text without blanks around it (`not_blank_suffix_trim`), and it leaves such
a text as it is (`trim_eq_self_of_ends`).

A carriage return at the end of a line is a blank itself, and part of no other, so it makes no
difference whether it was dropped before (`trim_dropCarriageReturn`).
-/

namespace MipsAssembler

/-! ## Marks in front of a text -/

/-- Marks none of which begins another. -/
structure PrefixCode (marks : List Bytes) : Prop where
  nil_notMem : [] ∉ marks
  eq_of_isPrefix : ∀ mark ∈ marks, ∀ other ∈ marks, mark <+: other → mark = other

theorem prefixCode_blanks : PrefixCode blanks :=
  ⟨by decide, by decide +kernel⟩

theorem prefixCode_reverse_blanks : PrefixCode (blanks.map List.reverse) :=
  ⟨by decide, by decide +kernel⟩

/-- Nothing is dropped from a text that starts with none of the marks. -/
theorem dropLeading_eq_self {marks : List Bytes} {text : Bytes}
    (h : ∀ mark ∈ marks, ¬ mark <+: text) : dropLeading marks text = text := by
  have hnone : marks.find? (·.isPrefixOf text) = none := by
    rw [List.find?_eq_none]
    intro mark hmark hprefix
    exact h mark hmark (List.isPrefixOf_iff_prefix.mp hprefix)
  have hzero : leadingLength marks text = 0 := by
    rw [leadingLength, hnone]
    rfl
  unfold dropLeading
  split
  · next hn =>
    rw [hzero] at hn
    cases hn
  · rfl

namespace PrefixCode

variable {marks : List Bytes} (h : PrefixCode marks)

include h

/-- The mark in front of a text is the one that is found. -/
theorem leadingLength_append {mark : Bytes} (hmark : mark ∈ marks) (rest : Bytes) :
    leadingLength marks (mark ++ rest) = mark.length := by
  have hfound : (marks.find? (·.isPrefixOf (mark ++ rest))).isSome :=
    List.find?_isSome.mpr ⟨mark, hmark, List.isPrefixOf_iff_prefix.mpr (List.prefix_append _ _)⟩
  obtain ⟨found, hfind⟩ := Option.isSome_iff_exists.mp hfound
  have hmem := List.mem_of_find?_eq_some hfind
  have hprefix : found <+: mark ++ rest :=
    List.isPrefixOf_iff_prefix.mp (by simpa using List.find?_some hfind)
  have hsame : found = mark := by
    rcases List.prefix_or_prefix_of_prefix hprefix (List.prefix_append mark rest) with hle | hle
    · exact h.eq_of_isPrefix _ hmem _ hmark hle
    · exact (h.eq_of_isPrefix _ hmark _ hmem hle).symm
  rw [leadingLength, hfind, hsame]
  rfl

theorem dropLeading_append {mark : Bytes} (hmark : mark ∈ marks) (rest : Bytes) :
    dropLeading marks (mark ++ rest) = dropLeading marks rest := by
  have hne : mark ≠ [] := by
    rintro rfl
    exact h.nil_notMem hmark
  obtain ⟨b, tail, rfl⟩ := List.exists_cons_of_ne_nil hne
  have hlength : leadingLength marks (b :: (tail ++ rest)) = tail.length + 1 :=
    h.leadingLength_append hmark rest
  rw [List.cons_append]
  conv_lhs => unfold dropLeading
  split
  · next heq hn =>
    obtain ⟨-, rfl⟩ := List.cons.inj heq
    obtain rfl : tail.length = _ := Nat.succ.inj (hlength.symm.trans hn)
    rw [List.drop_left]
  · next hstop => exact (hstop _ _ _ rfl hlength).elim

theorem dropLeading_flatten_append {found : List Bytes} (hfound : ∀ mark ∈ found, mark ∈ marks)
    (rest : Bytes) : dropLeading marks (found.flatten ++ rest) = dropLeading marks rest := by
  induction found with
  | nil => rfl
  | cons mark found ih =>
    obtain ⟨hmark, hfound⟩ := List.forall_mem_cons.mp hfound
    rw [List.flatten_cons, List.append_assoc, h.dropLeading_append hmark, ih hfound]

/-- What is dropped is a run of marks, and no mark stands in front of what is left. -/
theorem dropLeading_spec (text : Bytes) :
    ∃ found : List Bytes, (∀ mark ∈ found, mark ∈ marks) ∧
      text = found.flatten ++ dropLeading marks text ∧
      ∀ mark ∈ marks, ¬ mark <+: dropLeading marks text := by
  induction hn : text.length using Nat.strongRecOn generalizing text with
  | ind n ih =>
    subst hn
    by_cases hnone : ∀ mark ∈ marks, ¬ mark <+: text
    · rw [dropLeading_eq_self hnone]
      exact ⟨[], nofun, rfl, hnone⟩
    · obtain ⟨mark, hmark, rest, rfl⟩ : ∃ mark ∈ marks, mark <+: text := by
        simpa using hnone
      have hpos : mark ≠ [] := by
        rintro rfl
        exact h.nil_notMem hmark
      have hlt : rest.length < (mark ++ rest).length := by
        rw [List.length_append]
        have := List.length_pos_iff.mpr hpos
        omega
      obtain ⟨found, hfound, hrest, hleft⟩ := ih _ hlt rest rfl
      rw [h.dropLeading_append hmark]
      refine ⟨mark :: found, List.forall_mem_cons.mpr ⟨hmark, hfound⟩, ?_, hleft⟩
      rw [List.flatten_cons, List.append_assoc, ← hrest]

theorem dropLeading_isSuffix (text : Bytes) : dropLeading marks text <:+ text := by
  obtain ⟨found, -, htext, -⟩ := h.dropLeading_spec text
  exact ⟨found.flatten, htext.symm⟩

theorem dropLeading_nil : dropLeading marks [] = [] :=
  List.suffix_nil.mp (h.dropLeading_isSuffix [])

/-- A mark of one byte that is part of no other is dropped from the end of a text only with all that
stands before it. -/
theorem dropLeading_concat {b : UInt8} (hb : [b] ∈ marks)
    (hown : ∀ mark ∈ marks, b ∈ mark → mark = [b]) (text : Bytes) :
    dropLeading marks (text ++ [b]) =
      if dropLeading marks text = [] then [] else dropLeading marks text ++ [b] := by
  obtain ⟨found, hfound, htext, hleft⟩ := h.dropLeading_spec text
  generalize dropLeading marks text = left at htext hleft
  subst htext
  rw [List.append_assoc, h.dropLeading_flatten_append hfound]
  split
  · next hnil =>
    rw [hnil]
    have hdrop := h.dropLeading_append hb []
    rwa [h.dropLeading_nil] at hdrop
  · next hne =>
    refine dropLeading_eq_self fun mark hmark hprefix => ?_
    rcases List.prefix_concat_iff.mp hprefix with hwhole | hprefix
    · -- the mark would hold the byte, and more than that
      have hsingle := hown mark hmark (by simp [hwhole])
      rw [hsingle] at hwhole
      exact hne (by simpa using hwhole)
    · exact hleft mark hmark hprefix

end PrefixCode

/-! ## Blanks around a text -/

theorem trimLeft_isSuffix (text : Bytes) : trimLeft text <:+ text :=
  prefixCode_blanks.dropLeading_isSuffix text

theorem trimRight_isPrefix (text : Bytes) : trimRight text <+: text := by
  have hsuffix := prefixCode_reverse_blanks.dropLeading_isSuffix text.reverse
  rw [← List.reverse_prefix, List.reverse_reverse] at hsuffix
  exact hsuffix

/-- A text is cut only at its ends. -/
theorem trim_isInfix (text : Bytes) : trim text <:+: text :=
  (trimRight_isPrefix _).isInfix.trans (trimLeft_isSuffix _).isInfix

theorem trim_nil : trim [] = [] :=
  List.infix_nil.mp (trim_isInfix [])

/-- No blank stands at the end of a trimmed text. -/
theorem not_blank_suffix_trim (text : Bytes) : ∀ blank ∈ blanks, ¬ blank <:+ trim text := by
  intro blank hblank hsuffix
  obtain ⟨-, -, -, hleft⟩ := prefixCode_reverse_blanks.dropLeading_spec (trimLeft text).reverse
  refine hleft blank.reverse (List.mem_map_of_mem hblank) ?_
  rw [← List.reverse_suffix, List.reverse_reverse]
  exact hsuffix

/-- A text without blanks around it stays. -/
theorem trim_eq_self_of_ends {text : Bytes} (hfirst : ∀ blank ∈ blanks, ¬ blank <+: text)
    (hlast : ∀ blank ∈ blanks, ¬ blank <:+ text) : trim text = text := by
  have hright : dropLeading (blanks.map List.reverse) text.reverse = text.reverse := by
    refine dropLeading_eq_self fun mark hmark hprefix => ?_
    obtain ⟨blank, hblank, rfl⟩ := List.mem_map.mp hmark
    exact hlast blank hblank (List.reverse_prefix.mp hprefix)
  rw [trim, trimLeft, dropLeading_eq_self hfirst, trimRight, hright, List.reverse_reverse]

/-- A run of blanks is trimmed away. -/
theorem trim_flatten {found : List Bytes} (h : ∀ blank ∈ found, blank ∈ blanks) :
    trim found.flatten = [] := by
  have hleft : trimLeft found.flatten = [] := by
    have hdrop := prefixCode_blanks.dropLeading_flatten_append h []
    rw [List.append_nil] at hdrop
    rw [trimLeft, hdrop, prefixCode_blanks.dropLeading_nil]
  rw [trim, hleft]
  exact List.prefix_nil.mp (trimRight_isPrefix [])

theorem trimRight_concat_carriageReturn (text : Bytes) :
    trimRight (text ++ [Ascii.carriageReturn]) = trimRight text := by
  have hblank : [Ascii.carriageReturn] ∈ blanks.map List.reverse := by decide
  rw [trimRight, List.reverse_append, List.reverse_singleton,
    prefixCode_reverse_blanks.dropLeading_append hblank, trimRight]

/-- Trimming takes a carriage return at the end of a line with it. -/
theorem trim_dropCarriageReturn (line : Bytes) : trim (dropCarriageReturn line) = trim line := by
  rw [dropCarriageReturn]
  split
  · next hlast =>
    obtain ⟨text, rfl⟩ := List.getLast?_eq_some_iff.mp hlast
    have hleft : trimLeft (text ++ [Ascii.carriageReturn]) =
        if trimLeft text = [] then [] else trimLeft text ++ [Ascii.carriageReturn] :=
      prefixCode_blanks.dropLeading_concat (by decide) (by decide +kernel) text
    rw [List.dropLast_concat, trim, trim, hleft]
    split
    · next hnil => rw [hnil]
    · rw [trimRight_concat_carriageReturn]
  · rfl

end MipsAssembler
