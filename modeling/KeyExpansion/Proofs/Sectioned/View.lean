-- SUMMARY: A range of words is the same as a list of words and as a stretch of the text.
import KeyExpansion.Proofs.Sectioned.Ancestry
import KeyExpansion.Sectioned.Words

/-! # Views of words

The words of a section stand exactly one separator apart. So the stretch of text from the
first to the last word of a range is these words with separators between them, whichever
range it is: one that selects nothing is an empty stretch, and one that reaches beyond the
words is none at all. This holds of every section, also of one that is not there or of one
that an empty marker ends. -/

namespace KeyExpansion

namespace Text

variable {sep cs : List Char} {start : Nat} {words : List (List Char)}

theorem take_spans (gap start n : Nat) (words : List (List Char)) :
    (spans gap start words).take n = spans gap start (words.take n) := by
  induction words generalizing start n with
  | nil => simp [spans]
  | cons word words ih =>
    cases n with
    | zero => rfl
    | succ n => rw [spans, List.take_succ_cons, ih, List.take_succ_cons, spans]

/-- Later words start where those before them and their separators end. -/
theorem drop_spans (sep : List Char) (start n : Nat) (words : List (List Char)) :
    (spans sep.length start words).drop n
      = spans sep.length (start + ((words.take n).flatMap (· ++ sep)).length) (words.drop n) := by
  by_cases hn : n ≤ words.length
  · have hsplit := spans_append sep start (words.take n) (words.drop n)
    rw [List.take_append_drop] at hsplit
    have hlength : (spans sep.length start (words.take n)).length = n := by
      rw [length_spans, List.length_take_of_le hn]
    rw [hsplit, List.drop_left' hlength]
  · have hall : words.drop n = [] := List.drop_eq_nil_of_le (by omega)
    rw [hall, List.drop_eq_nil_of_le (by rw [length_spans]; omega)]
    rfl

/-- The last of the words ends where they do, joined. -/
theorem stop_getLast_spans (h : words ≠ []) (hspans : spans sep.length start words ≠ []) :
    ((spans sep.length start words).getLast hspans).stop = start + (join sep words).length := by
  induction words generalizing start with
  | nil => exact absurd rfl h
  | cons word words ih =>
    cases words with
    | nil => simp [spans]
    | cons next words =>
      have hnext : spans sep.length (start + word.length + sep.length) (next :: words) ≠ [] := by
        simp [spans]
      have hlast := ih (List.cons_ne_nil next words) hnext
      rw [join_cons (List.cons_ne_nil next words), List.length_append, List.length_append]
      simp only [spans, List.getLast_cons_cons] at hlast ⊢
      rw [hlast]
      omega

/-- The first words, joined, are the start of all. -/
theorem isPrefix_join_take (sep : List Char) (n : Nat) (words : List (List Char)) :
    join sep (words.take n) <+: join sep words := by
  by_cases hrest : words.drop n = []
  · have hall : words.take n = words := by
      have hwords := List.take_append_drop n words
      rwa [hrest, List.append_nil] at hwords
    rw [hall]
  · by_cases hfirst : words.take n = []
    · rw [hfirst]
      exact List.nil_prefix
    · have hwords := @join_append sep (words.take n) _ hrest
      rw [List.take_append_drop, flatMap_append_sep hfirst, List.append_assoc] at hwords
      rw [hwords]
      exact List.prefix_append _ _

/-- Where words stand joined, the words of a range stand joined as well. -/
theorem join_range_prefix {first n : Nat} (h : join sep words <+: cs.drop start)
    (hfirst : words.drop first ≠ []) :
    join sep ((words.drop first).take n)
      <+: cs.drop (start + ((words.take first).flatMap (· ++ sep)).length) := by
  have hwords := @join_append sep (words.take first) _ hfirst
  rw [List.take_append_drop] at hwords
  obtain ⟨rest, hrest⟩ := h
  rw [hwords, List.append_assoc] at hrest
  rw [← List.drop_drop, ← hrest, List.drop_left]
  exact (isPrefix_join_take sep n _).trans (List.prefix_append _ _)

end Text

namespace Scheme

variable {text : List Char} {start : Nat} {sections : List Section} {layout : Layout}

/-- The words of a section stand in its bounds, one separator apart. -/
structure IsPlaced (text : List Char) (sec : Section) (start : Nat) (words : List (List Char))
    (part : Part) : Prop where
  part_eq : part = Part.at sec start words
  join_prefix : Text.join sec.separator words <+: text.drop start

/-- Every section is laid out so, whatever the markers are. -/
theorem isPlaced_layOutFrom (hstart : start ≤ text.length)
    (h : layOutFrom text start sections = .ok layout) :
    List.Forall₂ (fun sec part => ∃ start words, IsPlaced text sec start words part) sections layout := by
  induction sections generalizing start layout with
  | nil =>
    cases h
    exact .nil
  | cons sec sections ih =>
    cases sections with
    | nil =>
      cases h
      have hsplit := Text.splits_splitOn sec.separator (text.drop start)
      have hplaced := IsPlaced.mk (ofBounds_eq_last hstart hsplit) hsplit.join_prefix
      exact .cons ⟨start, _, hplaced⟩ .nil
    | cons next more =>
      obtain ⟨words, parts, start', rfl, hjoin, hstart', hparts, -⟩ := layOutFrom_cons_eq_ok hstart h
      exact .cons ⟨start, words, rfl, hjoin⟩ (ih hstart' hparts)

end Scheme

namespace WordRange

variable {words : List (List Char)} {range : WordRange}

theorem resolve?_eq_none {count : Nat} :
    range.resolve? count = none ↔ count < range.first ∨ count < range.after count := by
  simp only [resolve?, Bool.and_eq_true, decide_eq_true_eq, ite_eq_right_iff, reduceCtorEq, imp_false,
    not_and_or, not_le]

theorem select_of_resolve? {first after : Nat} (h : range.resolve? words.length = some (first, after)) :
    range.select words = (words.drop first).take (after - first) := by
  rw [select, h]

theorem select_of_none (h : range.resolve? words.length = none) : range.select words = [] := by
  rw [select, h]

theorem resolve?_full {count : Nat} (hfirst : range.first = 0) (hafter : range.after count = count) :
    range.resolve? count = some (0, count) := by
  simp [resolve?, hfirst, hafter]

end WordRange

namespace Sectioned

variable {scheme : Scheme} {s : Sectioned scheme} {text : List Char} {sec : Section} {start : Nat}
  {words : List (List Char)} {part : Part} {range : WordRange} {ref : SectionRef} {n : Nat}

theorem spanOf?_eq_none : spanOf? (Part.at sec start words) range = none ↔
    words.length < range.first ∨ words.length < range.after words.length := by
  rw [spanOf?, Option.map_eq_none_iff, Part.at, Text.length_spans, WordRange.resolve?_eq_none]

/-- The stretch of a range is the words of the range with separators between them. -/
theorem slice_of_spanOf? {span : Text.Span} (h : Text.join sec.separator words <+: text.drop start)
    (hspan : spanOf? (Part.at sec start words) range = some span) :
    span.slice text = Text.join sec.separator (range.select words) := by
  obtain ⟨⟨first, after⟩, hresolve, hspan⟩ := Option.map_eq_some_iff.mp hspan
  rw [Part.at, Text.length_spans] at hresolve
  rw [WordRange.select_of_resolve? hresolve]
  simp only [Part.at, Text.drop_spans, Text.take_spans] at hspan
  generalize hmid : (words.drop first).take (after - first) = mid at hspan ⊢
  cases mid with
  | nil =>
    simp only [Text.spans] at hspan
    rw [← hspan]
    simp [Text.Span.slice, Text.join]
  | cons word mid =>
    have hfirst : words.drop first ≠ [] := by
      intro hnil
      rw [hnil, List.take_nil] at hmid
      cases hmid
    have hjoin := Text.join_range_prefix (n := after - first) h hfirst
    rw [hmid] at hjoin
    generalize hplace : start + ((words.take first).flatMap (· ++ sec.separator)).length = place
      at hspan hjoin
    have hstop := @Text.stop_getLast_spans sec.separator place _
      (List.cons_ne_nil word mid) (by simp [Text.spans])
    simp only [Text.spans] at hspan hstop
    rw [hstop] at hspan
    rw [← hspan, Text.Span.slice_eq]
    exact (List.prefix_iff_eq_take.mp hjoin).symm

/-- Every section of a parsed text has its words one separator apart. -/
theorem IsParsed.exists_isPlaced (h : s.IsParsed) (hn : s.sectionIndex? ref = some n) :
    ∃ sec start words part, scheme.sections[n]? = some sec ∧ s.part? ref = some part ∧
      Scheme.IsPlaced s.text sec start words part := by
  have hlaid := Scheme.isPlaced_layOutFrom (Nat.zero_le _) h.layOut_eq
  have hlength := hlaid.length_eq
  have hlt : n < s.layout.length := by
    cases ref with
    | position i =>
      rw [sectionIndex?, Option.ite_none_right_eq_some] at hn
      obtain ⟨hi, rfl⟩ := (⟨hn.1, Option.some.inj hn.2⟩ : _ ∧ _)
      exact hi
    | name name =>
      rw [sectionIndex?, List.findIdx?_eq_some_iff_getElem] at hn
      obtain ⟨hi, -⟩ := hn
      omega
  have hsec : scheme.sections[n]? = some (scheme.sections.get ⟨n, by omega⟩) := by simp
  obtain ⟨start, words, hplaced⟩ := (List.forall₂_iff_get.mp hlaid).2 n (by omega) hlt
  refine ⟨_, start, words, s.layout[n], hsec, ?_, hplaced⟩
  rw [part?, hn, Option.bind_some, List.getElem?_eq_getElem hlt]

/-- The text of a range is that of its words with separators between them. There is none only
where the range reaches beyond the words, and then it selects no words. -/
theorem slice?_eq_view (h : s.IsParsed) (hn : s.sectionIndex? ref = some n) (range : WordRange) :
    ∃ words separator, s.words? ref = some words ∧ s.separator? ref = some separator ∧
      (s.slice? ref range = none ↔
        s.wordCount ref < range.first ∨ s.wordCount ref < range.after (s.wordCount ref)) ∧
      (s.slice? ref range = none → range.select words = []) ∧
      (∀ text, s.slice? ref range = some text →
        (viewItems true separator (range.select words)).flatten = text) ∧
      (range.first = 0 → range.after (s.wordCount ref) = s.wordCount ref →
        s.slice? ref range = s.sectionText? ref ∧
        s.sectionText? ref = some (viewItems true separator (range.select words)).flatten) := by
  obtain ⟨sec, start, words, part, hsec, hpart, rfl, hjoin⟩ := h.exists_isPlaced hn
  have hwords : s.words? ref = some words := by
    rw [words?, hpart, Option.map_some, wordsOf, Scheme.at_words hjoin]
  have hseparator : s.separator? ref = some sec.separator := by
    rw [separator?, hn, Option.bind_some, hsec, Option.map_some]
  have hcount : s.wordCount ref = words.length := by
    rw [wordCount, hpart, Option.map_some, Option.getD_some, Part.at, Text.length_spans]
  have hslice : s.slice? ref range
      = (spanOf? (Part.at sec start words) range).map (·.slice s.text) := by
    simp only [slice?, hpart, Option.bind_eq_bind, Option.bind_some, Option.pure_def]
    exact Option.map_eq_bind.symm
  have hnone : s.slice? ref range = none ↔
      words.length < range.first ∨ words.length < range.after words.length := by
    rw [hslice, Option.map_eq_none_iff, spanOf?_eq_none]
  have hview : ∀ text, s.slice? ref range = some text →
      (viewItems true sec.separator (range.select words)).flatten = text := by
    intro text htext
    obtain ⟨span, hspan, rfl⟩ := Option.map_eq_some_iff.mp (hslice.symm.trans htext)
    rw [slice_of_spanOf? hjoin hspan]
    rfl
  refine ⟨words, sec.separator, hwords, hseparator, hcount ▸ hnone, ?_, hview, ?_⟩
  · intro htext
    exact WordRange.select_of_none (WordRange.resolve?_eq_none.mpr (hnone.mp htext))
  · intro hfirst hafter
    rw [hcount] at hafter
    have htext : s.sectionText? ref = some (Text.join sec.separator words) := by
      rw [sectionText?, hpart, Option.map_some, Scheme.at_slice hjoin]
    have hall : range.select words = words := by
      rw [WordRange.select_of_resolve? (WordRange.resolve?_full hfirst hafter)]
      simp
    obtain ⟨text, hsome⟩ := Option.ne_none_iff_exists'.mp fun hbeyond => by
      have hless := hnone.mp hbeyond
      omega
    rw [hsome, ← hview text hsome, htext, hall]
    exact ⟨rfl, rfl⟩

/-- Words with long separators, behind a section that may be left out. -/
def spaced : Scheme where
  sections := [
    { name := "note", separator := ['-'], stop := some ['|'], required := false },
    { name := "words", separator := "..".toList }]

/-- Some words, none of a range that ends before it starts, a range beyond the words, and the
words of a section that is not there. -/
theorem slice?_eq_view_spaced :
    ∃ s : Sectioned spaced, parse spaced (Uuid.ofSeed 1) "é....b..5".toList = .ok s ∧
      s.words? (.name "words") = some ["é".toList, [], ['b'], ['5']] ∧
      s.slice? (.name "words") ⟨.included 1, .excluded 3⟩ = some "..b".toList ∧
      s.slice? (.name "words") ⟨.excluded 1, .included 0⟩ = some [] ∧
      s.slice? (.name "words") ⟨.open, .included 4⟩ = none ∧
      (viewItems true "..".toList
        (WordRange.select ⟨.included 1, .excluded 3⟩ ["é".toList, [], ['b'], ['5']])).flatten
          = "..b".toList ∧
      s.slice? (.position 0) {} = some [] ∧ s.sectionText? (.position 0) = some [] := by
  have hparse : parse spaced (Uuid.ofSeed 1) "é....b..5".toList = .ok
      { text := "é....b..5".toList
        layout := [⟨⟨0, 0⟩, []⟩, ⟨⟨0, 9⟩, [⟨0, 1⟩, ⟨3, 3⟩, ⟨5, 6⟩, ⟨8, 9⟩]⟩]
        meanings := [[], [.text, .text, .text, .int 5]]
        uuid := none } := rfl
  have hparsed : IsParsed _ := ⟨_, _, hparse⟩
  refine ⟨_, hparse, by decide, by decide, by decide, by decide, ?_, by decide, by decide⟩
  obtain ⟨words, separator, hwords, hseparator, -, -, hview, -⟩ :=
    @slice?_eq_view _ _ (.name "words") 1 hparsed (by decide) ⟨.included 1, .excluded 3⟩
  cases hwords
  cases hseparator
  exact hview _ (by decide)

end Sectioned

end KeyExpansion
