-- SUMMARY: What finding and cutting at a separator give.
import KeyExpansion.Text.Search
import Mathlib.Data.List.Infix

/-! # Searching text

A cut is at the first occurrence of the separator: none begins earlier, not even one that
overlaps it. Cutting again and again gives the words between the occurrences, which no
separator stands in, and from which the text can be put together again. -/

namespace KeyExpansion.Text

variable {sep : List Char}

/-! ## One cut -/

/-- The separator does not begin in `before`, and not in the separator after it either. -/
def IsFirst (sep before : List Char) : Prop :=
  ¬ sep <:+: before ++ sep.dropLast

theorem IsFirst.not_infix {before : List Char} (h : IsFirst sep before) : ¬ sep <:+: before :=
  fun hsep => h (hsep.trans List.infix_append_left)

theorem isFirst_nil (hsep : sep ≠ []) : IsFirst sep [] := by
  intro hstarts
  have hlength := hstarts.length_le
  have hpos := List.length_pos_of_ne_nil hsep
  simp only [List.nil_append, List.length_dropLast] at hlength
  omega

theorem isFirst_cons {c : Char} {before : List Char} (after : List Char) :
    IsFirst sep (c :: before) ↔ ¬ sep <+: c :: (before ++ sep ++ after) ∧ IsFirst sep before := by
  have hlength : sep.length ≤ (c :: (before ++ sep.dropLast)).length := by
    simp only [List.length_cons, List.length_append, List.length_dropLast]
    omega
  have hstart : c :: (before ++ sep.dropLast) <+: c :: (before ++ sep ++ after) := by
    obtain ⟨last, hlast⟩ := List.dropLast_prefix sep
    refine ⟨last ++ after, ?_⟩
    conv_rhs => rw [← hlast]
    simp
  have hprefix : sep <+: c :: (before ++ sep.dropLast) ↔ sep <+: c :: (before ++ sep ++ after) :=
    ⟨fun h => h.trans hstart, fun h => List.prefix_of_prefix_length_le h hstart hlength⟩
  rw [IsFirst, List.cons_append, List.infix_cons_iff, hprefix, not_or]
  rfl

theorem not_prefix_of_isPrefixOf? {cs : List Char} (h : sep.isPrefixOf? cs = none) : ¬ sep <+: cs := by
  rintro ⟨rest, hrest⟩
  rw [List.isPrefixOf?_eq_some_iff_append_eq.mpr hrest] at h
  cases h

theorem cut?_eq_some (hsep : sep ≠ []) {cs before after : List Char} :
    cut? sep cs = some (before, after) ↔ cs = before ++ sep ++ after ∧ IsFirst sep before := by
  induction cs generalizing before after with
  | nil =>
    have hnone : cut? sep [] = none := by
      cases sep with
      | nil => exact absurd rfl hsep
      | cons c sep => rfl
    simp [hnone, hsep]
  | cons c cs ih =>
    rw [cut?]
    cases hstart : sep.isPrefixOf? (c :: cs) with
    | some rest =>
      rw [List.isPrefixOf?_eq_some_iff_append_eq] at hstart
      simp only [Option.some.injEq, Prod.mk.injEq]
      constructor
      · rintro ⟨rfl, rfl⟩
        exact ⟨by simp [hstart], isFirst_nil hsep⟩
      · rintro ⟨hcs, hfirst⟩
        cases before with
        | nil => exact ⟨rfl, List.append_cancel_left (hstart.trans (by simpa using hcs))⟩
        | cons b before =>
          rw [hcs] at hstart
          exact absurd ⟨rest, hstart⟩ ((isFirst_cons after).mp hfirst).1
    | none =>
      have hnot := not_prefix_of_isPrefixOf? hstart
      simp only [Option.map_eq_some_iff, Prod.exists, Prod.mk.injEq]
      constructor
      · rintro ⟨before, after, hcut, rfl, rfl⟩
        obtain ⟨rfl, hfirst⟩ := ih.mp hcut
        exact ⟨rfl, (isFirst_cons after).mpr ⟨hnot, hfirst⟩⟩
      · rintro ⟨hcs, hfirst⟩
        cases before with
        | nil => exact absurd ⟨after, hcs.symm⟩ hnot
        | cons b before =>
          obtain ⟨rfl, rfl⟩ : c = b ∧ cs = before ++ sep ++ after := by simpa using hcs
          have hrest := ((isFirst_cons after).mp hfirst).2
          exact ⟨before, after, ih.mpr ⟨rfl, hrest⟩, rfl, rfl⟩

/-- The first occurrence can be cut at if there is one. -/
theorem cut?_eq_none {cs : List Char} : cut? sep cs = none ↔ ¬ sep <:+: cs := by
  induction cs with
  | nil =>
    cases sep with
    | nil => simp [cut?, List.isPrefixOf?]
    | cons c sep => simp [cut?, List.isPrefixOf?]
  | cons c cs ih =>
    rw [cut?, List.infix_cons_iff]
    cases hstart : sep.isPrefixOf? (c :: cs) with
    | some rest =>
      rw [List.isPrefixOf?_eq_some_iff_append_eq] at hstart
      simp only [reduceCtorEq, false_iff, not_not]
      exact .inl ⟨rest, hstart⟩
    | none =>
      have hnot := not_prefix_of_isPrefixOf? hstart
      simp [ih, hnot]

theorem contains_eq_true {cs : List Char} : contains sep cs = true ↔ sep <:+: cs := by
  rw [contains, ← not_iff_not, Bool.not_eq_true, Option.isSome_eq_false_iff,
    Option.isNone_iff_eq_none, cut?_eq_none]

theorem find?_eq_some (hsep : sep ≠ []) {cs : List Char} {n : Nat} :
    find? sep cs = some n ↔
      ∃ before after, cs = before ++ sep ++ after ∧ IsFirst sep before ∧ before.length = n := by
  simp only [find?, Option.map_eq_some_iff, Prod.exists, cut?_eq_some hsep, and_assoc]

theorem find?_eq_none {cs : List Char} : find? sep cs = none ↔ ¬ sep <:+: cs := by
  rw [find?, Option.map_eq_none_iff, cut?_eq_none]

/-! ## The last cut -/

section Last

variable {c d : Char} {cs before after : List Char}

theorem cutLast?_cons :
    cutLast? c (d :: cs) =
      match cutLast? c cs with
      | some (before, after) => some (d :: before, after)
      | none => if c = d then some ([], cs) else none := by
  simp only [cutLast?, findLast?]
  cases findLast? [c] cs with
  | some i => simp
  | none =>
    by_cases h : c = d
    · simp [h]
    · simp [h]

/-- The character can be cut at if it stands in the text. -/
theorem cutLast?_eq_none : cutLast? c cs = none ↔ c ∉ cs := by
  induction cs with
  | nil => simp [cutLast?, findLast?]
  | cons d cs ih =>
    rw [cutLast?_cons, List.mem_cons, not_or, ← ih]
    cases cutLast? c cs with
    | some cut => simp
    | none => simp

/-- No further occurrence stands after the last one. -/
theorem cutLast?_eq_some :
    cutLast? c cs = some (before, after) ↔ cs = before ++ c :: after ∧ c ∉ after := by
  induction cs generalizing before after with
  | nil => simp [cutLast?, findLast?]
  | cons d cs ih =>
    rw [cutLast?_cons]
    cases hcut : cutLast? c cs with
    | some cut =>
      obtain ⟨front, back⟩ := cut
      obtain ⟨hcs, hback⟩ := ih.mp hcut
      simp only [Option.some.injEq, Prod.mk.injEq]
      constructor
      · rintro ⟨rfl, rfl⟩
        exact ⟨by rw [hcs, List.cons_append], hback⟩
      · rintro ⟨heq, hafter⟩
        cases before with
        | nil =>
          obtain ⟨-, rfl⟩ := List.cons.inj heq
          exact absurd (by simp [hcs]) hafter
        | cons b before =>
          obtain ⟨rfl, hrest⟩ := List.cons.inj heq
          have hsame := hcut.symm.trans (ih.mpr ⟨hrest, hafter⟩)
          simpa using hsame
    | none =>
      have hnot := cutLast?_eq_none.mp hcut
      simp only [Option.ite_none_right_eq_some, Option.some.injEq, Prod.mk.injEq]
      constructor
      · rintro ⟨rfl, rfl, rfl⟩
        exact ⟨rfl, hnot⟩
      · rintro ⟨heq, -⟩
        cases before with
        | nil =>
          obtain ⟨rfl, rfl⟩ := List.cons.inj heq
          exact ⟨rfl, rfl, rfl⟩
        | cons b before =>
          obtain ⟨-, hrest⟩ := List.cons.inj heq
          exact absurd (by simp [hrest]) hnot

end Last

/-! ## Both ends -/

theorem stripPrefix?_eq_some {start cs rest : List Char} :
    stripPrefix? start cs = some rest ↔ cs = start ++ rest := by
  rw [stripPrefix?, List.isPrefixOf?_eq_some_iff_append_eq, eq_comm]

theorem stripSuffix?_eq_some {stop cs rest : List Char} :
    stripSuffix? stop cs = some rest ↔ cs = rest ++ stop := by
  rw [stripSuffix?, Option.ite_none_right_eq_some, List.isSuffixOf_iff_suffix]
  constructor
  · rintro ⟨⟨front, rfl⟩, heq⟩
    rw [List.length_append, Nat.add_sub_cancel, List.take_left, Option.some.injEq] at heq
    rw [heq]
  · rintro rfl
    refine ⟨List.suffix_append rest stop, ?_⟩
    rw [List.length_append, Nat.add_sub_cancel, List.take_left]

/-! ## Words -/

/-- The words of a text between the occurrences of a separator, taken from the left. An
empty separator cuts nowhere, so the text is its only word. -/
inductive Splits (sep : List Char) : List Char → List (List Char) → Prop where
  | last {word : List Char} (h : sep ≠ [] → ¬ sep <:+: word) : Splits sep word [word]
  | cut {word after : List Char} {words : List (List Char)} (first : IsFirst sep word)
      (rest : Splits sep after words) : Splits sep (word ++ sep ++ after) (word :: words)

theorem splitFrom_eq (skip : Nat) (cs : List Char) :
    splitFrom sep skip cs = splitFrom sep 0 (cs.drop skip) := by
  induction skip generalizing cs with
  | zero => rfl
  | succ skip ih =>
    cases cs with
    | nil => simp [splitFrom]
    | cons c cs => rw [splitFrom, List.drop_succ_cons, ih]

/-- Splitting is cutting, and splitting what comes after the cut. -/
theorem splitFrom_zero (hsep : sep ≠ []) (cs : List Char) :
    splitFrom sep 0 cs =
      match cut? sep cs with
      | none => [cs]
      | some (word, after) => word :: splitFrom sep 0 after := by
  induction cs with
  | nil =>
    rw [cut?_eq_none.mpr (by simpa using hsep)]
    rfl
  | cons c cs ih =>
    rw [splitFrom, cut?]
    cases hstart : sep.isPrefixOf? (c :: cs) with
    | some rest =>
      rw [List.isPrefixOf?_eq_some_iff_append_eq] at hstart
      obtain ⟨d, sep, rfl⟩ := List.exists_cons_of_ne_nil hsep
      obtain ⟨rfl, rfl⟩ : d = c ∧ sep ++ rest = cs := by simpa using hstart
      simp [splitFrom_eq sep.length]
    | none =>
      have hnot : sep.isPrefixOf (c :: cs) = false := by
        rw [← List.isSome_isPrefixOf?_eq_isPrefixOf, hstart]
        rfl
      rw [hnot, if_neg Bool.false_ne_true, ih]
      cases cut? sep cs with
      | none => rfl
      | some cut => rfl

theorem splits_splitOn (sep cs : List Char) : Splits sep cs (splitOn sep cs) := by
  by_cases hsep : sep = []
  · subst hsep
    exact .last fun h => absurd rfl h
  rw [splitOn, if_neg (by simpa using hsep)]
  induction hn : cs.length using Nat.strong_induction_on generalizing cs with
  | _ n ih =>
    rw [splitFrom_zero hsep]
    cases hcut : cut? sep cs with
    | none => exact .last fun _ => cut?_eq_none.mp hcut
    | some cut =>
      obtain ⟨word, after⟩ := cut
      obtain ⟨rfl, hfirst⟩ := (cut?_eq_some hsep).mp hcut
      refine .cut hfirst (ih after.length ?_ after rfl)
      have hpos := List.length_pos_of_ne_nil hsep
      simp only [List.length_append] at hn
      omega

theorem IsFirst.ne_nil {word : List Char} (h : IsFirst sep word) : sep ≠ [] := by
  rintro rfl
  exact h List.nil_infix

namespace Splits

variable {cs : List Char} {words : List (List Char)}

/-- There is one way to split a text. -/
theorem eq_splitOn (h : Splits sep cs words) : words = splitOn sep cs := by
  induction h with
  | last h =>
    by_cases hsep : sep = []
    · rw [hsep]
      rfl
    · rw [splitOn, if_neg (by simpa using hsep), splitFrom_zero hsep, cut?_eq_none.mpr (h hsep)]
  | cut first _ ih =>
    have hsep := first.ne_nil
    rw [splitOn, if_neg (by simpa using hsep)] at ih ⊢
    rw [splitFrom_zero hsep, (cut?_eq_some hsep).mpr ⟨rfl, first⟩, ih]

theorem ne_nil (h : Splits sep cs words) : words ≠ [] := by
  cases h <;> simp

theorem not_infix (hsep : sep ≠ []) (h : Splits sep cs words) :
    ∀ word ∈ words, ¬ sep <:+: word := by
  induction h with
  | last h => simpa using h hsep
  | cut first _ ih => exact List.forall_mem_cons.mpr ⟨first.not_infix, ih⟩

end Splits

@[simp] theorem join_singleton (word : List Char) : join sep [word] = word := by
  simp [join]

theorem join_cons {word : List Char} {words : List (List Char)} (h : words ≠ []) :
    join sep (word :: words) = word ++ sep ++ join sep words := by
  obtain ⟨next, words, rfl⟩ := List.exists_cons_of_ne_nil h
  simp [join]

/-- What comes before further words ends in a separator. -/
theorem join_append (left : List (List Char)) {right : List (List Char)} (h : right ≠ []) :
    join sep (left ++ right) = left.flatMap (· ++ sep) ++ join sep right := by
  induction left with
  | nil => rfl
  | cons word left ih =>
    rw [List.cons_append, join_cons (List.append_ne_nil_of_right_ne_nil left h), ih,
      List.flatMap_cons, List.append_assoc _ _ (join sep right)]

theorem flatMap_append_sep {words : List (List Char)} (h : words ≠ []) :
    words.flatMap (· ++ sep) = join sep words ++ sep := by
  rw [← List.dropLast_concat_getLast h, join_append _ (List.cons_ne_nil _ _), join_singleton,
    List.flatMap_append]
  simp

/-- An empty word at the end ends the text in a separator, if there are other words. -/
theorem join_concat_nil (words : List (List Char)) :
    join sep (words ++ [[]]) = join sep words ∨ join sep (words ++ [[]]) = join sep words ++ sep := by
  by_cases hwords : words = []
  · subst hwords
    exact .inl rfl
  · right
    rw [join_append words (List.cons_ne_nil [] []), flatMap_append_sep hwords, join_singleton,
      List.append_nil]

theorem join_cons_eq (word : List Char) (words : List (List Char)) :
    join sep (word :: words) = word ++ words.flatMap (sep ++ ·) := by
  induction words generalizing word with
  | nil => simp
  | cons next words ih =>
    rw [join_cons (List.cons_ne_nil next words), ih, List.flatMap_cons, List.append_assoc,
      List.append_assoc]

/-- Two words joined are one word of the same text. -/
theorem join_cons_cons (first second : List Char) (words : List (List Char)) :
    join sep (first :: second :: words) = join sep ((first ++ sep ++ second) :: words) := by
  rw [join_cons_eq, join_cons_eq, List.flatMap_cons]
  simp only [List.append_assoc]

theorem mem_join {words : List (List Char)} {c : Char} (h : c ∈ join sep words) :
    c ∈ sep ∨ ∃ word ∈ words, c ∈ word := by
  induction words with
  | nil => simp [join] at h
  | cons word words ih =>
    cases words with
    | nil =>
      rw [join_singleton] at h
      exact .inr ⟨word, List.mem_cons_self, h⟩
    | cons next words =>
      rw [join_cons (List.cons_ne_nil next words), List.mem_append, List.mem_append] at h
      rcases h with (h | h) | h
      · exact .inr ⟨word, List.mem_cons_self, h⟩
      · exact .inl h
      · rcases ih h with h | ⟨later, hlater, h⟩
        · exact .inl h
        · exact .inr ⟨later, List.mem_cons_of_mem word hlater, h⟩

/-- The words with the separator between them are the text. -/
theorem Splits.join_eq {cs : List Char} {words : List (List Char)} (h : Splits sep cs words) :
    join sep words = cs := by
  induction h with
  | last => simp
  | cut _ rest ih => rw [join_cons rest.ne_nil, ih]

theorem Splits.join_prefix {cs : List Char} {words : List (List Char)} (h : Splits sep cs words) :
    join sep words <+: cs := by
  rw [h.join_eq]

/-! ## Pieces that stand in one word -/

section Piece

variable {piece xs ys : List Char}

/-- A piece that does not begin or end in a separator, and has none inside. -/
structure Holds (sep piece : List Char) : Prop where
  head_not_mem : ∀ c ∈ piece.head?, c ∉ sep
  last_not_mem : ∀ c ∈ piece.getLast?, c ∉ sep
  not_infix : ¬ sep <:+: piece

/-- The piece stands on one side of a separator. -/
theorem Holds.infix_or (h : Holds sep piece) (hin : piece <:+: xs ++ sep ++ ys) :
    piece <:+: xs ∨ piece <:+: ys := by
  obtain ⟨front, back, heq⟩ := hin
  rw [List.append_assoc, List.append_assoc] at heq
  rcases List.append_eq_append_iff.mp heq with ⟨gap, rfl, hgap⟩ | ⟨gap, rfl, hgap⟩
  · -- The piece begins on the left.
    rcases List.append_eq_append_iff.mp hgap with ⟨more, rfl, -⟩ | ⟨excess, rfl, hexcess⟩
    · exact .inl ⟨front, more, by rw [List.append_assoc]⟩
    · rcases List.eq_nil_or_concat excess with rfl | ⟨inner, c, rfl⟩
      · exact .inl ⟨front, [], by simp⟩
      · rw [List.concat_eq_append] at h hexcess
        exfalso
        rcases List.append_eq_append_iff.mp hexcess with ⟨rest, hexcess, -⟩ | ⟨rest, hsep, -⟩
        · exact h.not_infix ⟨gap, rest, by rw [hexcess, List.append_assoc]⟩
        · refine h.last_not_mem c (by simp) ?_
          rw [hsep]
          simp
  · -- The piece begins in the separator or on the right.
    rcases List.append_eq_append_iff.mp hgap with ⟨more, rfl, hys⟩ | ⟨more, rfl, hmore⟩
    · exact .inr ⟨more, back, by rw [hys, List.append_assoc]⟩
    · cases piece with
      | nil => exact .inl List.nil_infix
      | cons c piece =>
        cases more with
        | nil => exact .inr ⟨[], back, hmore⟩
        | cons d more =>
          obtain ⟨rfl, -⟩ := List.cons.inj hmore
          exact absurd (by simp) (h.head_not_mem c rfl)

/-- The piece stands in one of the words. -/
theorem Holds.exists_word {words : List (List Char)} (h : Holds sep piece) (hne : piece ≠ [])
    (hin : piece <:+: join sep words) : ∃ word ∈ words, piece <:+: word := by
  induction words with
  | nil => exact absurd (List.infix_nil.mp hin) hne
  | cons word words ih =>
    cases words with
    | nil =>
      rw [join_singleton] at hin
      exact ⟨word, List.mem_cons_self, hin⟩
    | cons next words =>
      rw [join_cons (List.cons_ne_nil next words)] at hin
      rcases h.infix_or hin with hword | hrest
      · exact ⟨word, List.mem_cons_self, hword⟩
      · obtain ⟨other, hother, hpiece⟩ := ih hrest
        exact ⟨other, List.mem_cons_of_mem word hother, hpiece⟩

end Piece

/-! ## Separators of one character -/

section Single

variable {c : Char}

theorem holds_singleton {piece : List Char} (h : c ∉ piece) : Holds [c] piece where
  head_not_mem d hd := by
    rintro hmem
    rw [List.mem_singleton.mp hmem] at hd
    exact h (List.mem_of_mem_head? hd)
  last_not_mem d hd := by
    intro hmem
    rw [List.mem_singleton.mp hmem] at hd
    exact h (List.mem_of_mem_getLast? hd)
  not_infix := by rwa [List.singleton_infix_iff]

/-- What stands around a character that it lacks stands before it or after it. -/
theorem infix_of_infix_append_cons {piece xs ys : List Char} (hc : c ∉ piece)
    (h : piece <:+: xs ++ c :: ys) : piece <:+: xs ∨ piece <:+: ys := by
  refine (holds_singleton hc).infix_or ?_
  rwa [List.append_assoc, List.singleton_append]

theorem isFirst_singleton {word : List Char} : IsFirst [c] word ↔ c ∉ word := by
  rw [IsFirst, List.dropLast_singleton, List.append_nil, List.singleton_infix_iff]

/-- A marker of two colons is the first one if no colon is before it. -/
theorem isFirst_of_not_mem {head : List Char} (h : ':' ∉ head) : IsFirst "::".toList head := by
  intro hin
  have hends : [':', ':'] <:+: head ++ [':'] := hin
  rcases List.infix_concat_iff.mp hends with hend | hin
  · have hlast : [':'] <:+ head := List.suffix_append_self_iff.mp
      (show [':'] ++ [':'] <:+ head ++ [':'] from hend)
    exact h (hlast.subset List.mem_cons_self)
  · exact h (hin.subset List.mem_cons_self)

/-- Words without the separator are the words of the text they are joined to. -/
theorem splits_join {words : List (List Char)} (hne : words ≠ []) (h : ∀ word ∈ words, c ∉ word) :
    Splits [c] (join [c] words) words := by
  induction words with
  | nil => exact absurd rfl hne
  | cons word words ih =>
    obtain ⟨hword, hwords⟩ := List.forall_mem_cons.mp h
    cases words with
    | nil =>
      rw [join_singleton]
      exact .last fun _ => by rwa [List.singleton_infix_iff]
    | cons next words =>
      have hnext : next :: words ≠ [] := List.cons_ne_nil next words
      rw [join_cons hnext]
      exact .cut (isFirst_singleton.mpr hword) (ih hnext hwords)

theorem Splits.not_mem {cs : List Char} {words : List (List Char)} (h : Splits [c] cs words) :
    ∀ word ∈ words, c ∉ word := by
  intro word hword hc
  exact h.not_infix (by simp) word hword ((List.singleton_infix_iff c word).mpr hc)

/-- More words joined to a text are more words of the text. -/
theorem Splits.join_cons {cs : List Char} {words more : List (List Char)}
    (h : Splits [c] cs words) (hne : more ≠ []) (hmore : ∀ word ∈ more, c ∉ word) :
    Splits [c] (join [c] (cs :: more)) (words ++ more) := by
  have hjoin : join [c] (words ++ more) = join [c] (cs :: more) := by
    rw [join_append words hne, flatMap_append_sep h.ne_nil, h.join_eq, Text.join_cons hne]
  rw [← hjoin]
  refine splits_join (List.append_ne_nil_of_right_ne_nil words hne) ?_
  intro word hword
  rcases List.mem_append.mp hword with hword | hword
  · exact h.not_mem word hword
  · exact hmore word hword

end Single

end KeyExpansion.Text
