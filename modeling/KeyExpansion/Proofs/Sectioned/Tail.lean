-- SUMMARY: The last section of a text, and what is the same in texts that differ only in it.
import KeyExpansion.Proofs.Sectioned.Decomposition
import KeyExpansion.Proofs.Sectioned.Dotted
import KeyExpansion.Sectioned.Lineage

/-! # The last section

The sections before the last one end with their markers, so they do not depend on what
stands in the last section. Texts that agree up to the last section have the same parts
up to there, and the last part is that of the words after them. -/

namespace KeyExpansion

namespace Scheme

variable {sections : List Section} {rows : List (List (List Char))} {text : List Char}

/-- With these rows before it the last section starts after `front`, whatever its words are. -/
structure EndsIn (sections : List Section) (sec : Section) (early : List (List (List Char)))
    (front : List Char) : Prop where
  writes : ∀ body words, Text.Splits sec.separator body words →
    Writes sections (early ++ [words]) (front ++ body)
  place : ∀ start, ∃ parts, ∀ words,
    place start sections (early ++ [words]) = parts ++ [Part.at sec (start + front.length) words]

/-- The last section can be told from the others. -/
theorem Writes.exists_endsIn (h : Writes sections rows text)
    (hrequired : ∀ sec ∈ sections, sec.required = true)
    (hstop : ∀ sec ∈ sections.dropLast, sec.stop ≠ none) :
    ∃ sec early words front body, sec ∈ sections ∧ rows = early ++ [words] ∧
      text = front ++ body ∧ Text.Splits sec.separator body words ∧
      EndsIn sections sec early front := by
  induction h with
  | @last sec words body split =>
    refine ⟨sec, [], words, [], body, List.mem_singleton_self sec, rfl, rfl, split, ?_, ?_⟩
    · intro body words split
      exact .last split
    · intro start
      exact ⟨[], fun words => rfl⟩
  | @cons sec next more words rows text rest takes _ ih =>
    obtain ⟨hsec, hmore⟩ := List.forall_mem_cons.mp hrequired
    rw [List.dropLast_cons_cons] at hstop
    obtain ⟨hsecStop, hmoreStop⟩ := List.forall_mem_cons.mp hstop
    obtain ⟨last, early, lastWords, front, body, hlast, rfl, hrest, hsplit, hends⟩ :=
      ih hmore hmoreStop
    cases takes with
    | unended stop _ => exact absurd stop hsecStop
    | absent _ optional _ => rw [hsec] at optional; cases optional
    | @ended _ marker stretch _ stop first split =>
      refine ⟨last, words :: early, lastWords, stretch ++ marker ++ front, body,
        List.mem_cons_of_mem sec hlast, rfl, ?_, hsplit, ?_, ?_⟩
      · rw [hrest, List.append_assoc _ front body]
      · intro body' words' hsplit'
        rw [List.append_assoc]
        exact .cons (.ended stop first split) (hends.writes body' words' hsplit')
      · intro start
        obtain ⟨parts, hparts⟩ := hends.place (start + (sec.written words).length)
        refine ⟨Part.at sec start words :: parts, ?_⟩
        intro words'
        rw [List.cons_append, Scheme.place, hparts, Section.written_eq split, stop]
        simp only [List.length_append, Option.getD_some, Nat.add_assoc, List.cons_append]

end Scheme

namespace Sectioned

variable {scheme : Scheme}

theorem wordIndex?_eq {count n : Nat} {index : Int}
    (hposition : (if index < 0 then index + count else index) = n) (h : n < count) :
    wordIndex? count index = some n := by
  simp only [wordIndex?, hposition]
  simp [h]

theorem wordIndex?_natCast {count n : Nat} (h : n < count) : wordIndex? count n = some n := by
  apply wordIndex?_eq _ h
  rw [if_neg (by omega)]

theorem wordIndex?_neg_one {count : Nat} (h : 0 < count) :
    wordIndex? count (-1) = some (count - 1) := by
  refine wordIndex?_eq ?_ (by omega)
  rw [if_pos (by decide)]
  omega

/-- The last section writes `body` after `front`, with these words, and these parts come
before it. -/
structure EndsWith (s : Sectioned scheme) (parts : List Part) (front body : List Char)
    (words : List (List Char)) : Prop where
  text_eq : s.text = front ++ body
  split : Text.Splits ['.'] body words
  layout_eq : ∃ sec, sec.separator = ['.'] ∧ s.layout = parts ++ [Part.at sec front.length words]
  parts_within : ∀ part ∈ parts, part.bounds.stop ≤ front.length

/-- Whatever words are written behind `front`, the text can be laid out and has these parts
before the words. -/
structure Leads (scheme : Scheme) (parts : List Part) (front : List Char) : Prop where
  writes : ∃ early, ∀ body words, Text.Splits ['.'] body words →
    Scheme.Writes scheme.sections (early ++ [words]) (front ++ body)
  endsWith : ∀ (s : Sectioned scheme) body words, scheme.layOut s.text = .ok s.layout →
    s.text = front ++ body → Text.Splits ['.'] body words → s.EndsWith parts front body words

/-- A parsed text ends in its last section. -/
theorem exists_leads (hdotted : scheme.IsDotted) {s : Sectioned scheme}
    (h : scheme.layOut s.text = .ok s.layout) :
    ∃ parts front body words, Leads scheme parts front ∧ s.EndsWith parts front body words := by
  obtain ⟨rows, hrows, -⟩ :=
    (Scheme.layOut_eq_ok hdotted.sections_ne_nil hdotted.stop_ne_nil).mp h
  obtain ⟨sec, early, words, front, body, hsec, -, htext, hsplit, hends⟩ :=
    hrows.exists_endsIn hdotted.required hdotted.stop_ne_none
  have hsep := hdotted.separator_eq sec hsec
  obtain ⟨parts, hparts⟩ := hends.place 0
  have hwithin : ∀ part ∈ parts, part.bounds.stop ≤ front.length := by
    intro part hpart
    have hpairs := Scheme.pairwise_place 0 scheme.sections (early ++ [words])
    rw [hparts] at hpairs
    have hbefore := (List.pairwise_append.mp hpairs).2.2 part hpart _ (List.mem_singleton_self _)
    simpa [Part.at] using hbefore
  have hends' (t : Sectioned scheme) (body' : List Char) (words' : List (List Char))
      (ht : scheme.layOut t.text = .ok t.layout) (htext' : t.text = front ++ body')
      (hsplit' : Text.Splits ['.'] body' words') : t.EndsWith parts front body' words' := by
    have hwrites := hends.writes body' words' (hsep ▸ hsplit')
    have hlayout := hwrites.layOutFrom_eq hdotted.stop_ne_nil (Nat.zero_le _) rfl
    rw [htext', Scheme.layOut, hlayout, hparts, Nat.zero_add] at ht
    exact ⟨htext', hsplit', ⟨sec, hsep, (Except.ok.inj ht).symm⟩, hwithin⟩
  refine ⟨parts, front, body, words, ⟨⟨early, ?_⟩, hends'⟩, hends' s body words h htext (hsep ▸ hsplit)⟩
  intro body' words' hsplit'
  exact hends.writes body' words' (hsep ▸ hsplit')

/-- A parsed text ends in its last section, and so does every text that is the same up to
there. -/
theorem exists_endsWith (hdotted : scheme.IsDotted) {s : Sectioned scheme}
    (h : scheme.layOut s.text = .ok s.layout) :
    ∃ parts front body words, s.EndsWith parts front body words ∧
      ∀ (t : Sectioned scheme) body' words', scheme.layOut t.text = .ok t.layout →
        t.text = front ++ body' → Text.Splits ['.'] body' words' →
        t.EndsWith parts front body' words' := by
  obtain ⟨parts, front, body, words, hleads, hends⟩ := exists_leads hdotted h
  exact ⟨parts, front, body, words, hends, hleads.endsWith⟩

namespace EndsWith

variable {s : Sectioned scheme} {parts : List Part} {front body : List Char}
  {words : List (List Char)} (h : s.EndsWith parts front body words)

include h

theorem sectionCount_eq : s.sectionCount = parts.length + 1 := by
  obtain ⟨sec, -, hlayout⟩ := h.layout_eq
  rw [sectionCount, hlayout, List.length_append, List.length_singleton]

theorem part?_last : ∃ sec, sec.separator = ['.'] ∧
    s.part? s.lastSection = some (Part.at sec front.length words) := by
  obtain ⟨sec, hsep, hlayout⟩ := h.layout_eq
  refine ⟨sec, hsep, ?_⟩
  rw [part?, lastSection, sectionIndex?, h.sectionCount_eq, Nat.add_sub_cancel,
    if_pos (Nat.lt_succ_self _), Option.bind_some, hlayout, List.getElem?_concat_length]

theorem join_prefix : Text.join ['.'] words <+: s.text.drop front.length := by
  rw [h.text_eq, List.drop_left]
  exact h.split.join_prefix

theorem words?_last : s.words? s.lastSection = some words := by
  obtain ⟨sec, hsep, hpart⟩ := h.part?_last
  rw [words?, hpart, Option.map_some, wordsOf, Scheme.at_words (hsep ▸ h.join_prefix)]

theorem sectionText?_last : s.sectionText? s.lastSection = some body := by
  obtain ⟨sec, hsep, hpart⟩ := h.part?_last
  rw [sectionText?, hpart, Option.map_some, Scheme.at_slice (hsep ▸ h.join_prefix), hsep,
    h.split.join_eq]

theorem slice_early {part : Part} (hpart : part ∈ parts) :
    part.bounds.slice s.text = part.bounds.slice front := by
  rw [h.text_eq, Text.Span.slice_append (h.parts_within part hpart)]

/-- The sections before the last one are read from the front. -/
theorem sectionText?_early {n : Nat} (hn : n < parts.length) :
    s.sectionText? (.position n) = some (parts[n].bounds.slice front) := by
  obtain ⟨sec, -, hlayout⟩ := h.layout_eq
  have hpart : s.part? (.position n) = some parts[n] := by
    rw [part?, sectionIndex?, h.sectionCount_eq, if_pos (by omega), Option.bind_some, hlayout,
      List.getElem?_append_left hn, List.getElem?_eq_getElem hn]
  rw [sectionText?, hpart, Option.map_some, h.slice_early (List.getElem_mem hn)]

theorem early_eq : s.layout.dropLast.map (fun part => part.bounds.slice s.text)
    = parts.map (fun part => part.bounds.slice front) := by
  obtain ⟨sec, -, hlayout⟩ := h.layout_eq
  rw [hlayout, List.dropLast_concat]
  exact List.map_congr_left fun part hpart => h.slice_early hpart

/-- The stretch of a word of the last section. -/
theorem wordSpan?_last {left right : List (List Char)} {word : List Char}
    (hwords : words = left ++ word :: right) :
    s.wordSpan? s.lastSection left.length
      = some ⟨front.length + (left.flatMap (· ++ ['.'])).length,
          front.length + (left.flatMap (· ++ ['.'])).length + word.length⟩ := by
  obtain ⟨sec, hsep, hpart⟩ := h.part?_last
  have hspans : (Part.at sec front.length words).words
      = Text.spans 1 front.length left
        ++ Text.spans 1 (front.length + (left.flatMap (· ++ ['.'])).length) (word :: right) := by
    rw [Part.at, hsep, hwords]
    exact Text.spans_append ['.'] front.length left (word :: right)
  have hindex : wordIndex? (Part.at sec front.length words).words.length left.length
      = some left.length := by
    rw [hspans, List.length_append, Text.length_spans, Text.length_spans, List.length_cons]
    apply wordIndex?_natCast
    omega
  have hleft := Text.length_spans 1 front.length left
  simp only [wordSpan?, hpart, Option.bind_eq_bind, Option.bind_some, hindex]
  rw [hspans, List.getElem?_append_right hleft.le, hleft, Nat.sub_self]
  rfl

/-- The last word of the last section. -/
theorem word?_last : s.word? s.lastSection (-1) = words.getLast? := by
  obtain ⟨sec, hsep, hpart⟩ := h.part?_last
  have hslices := Scheme.at_words (hsep ▸ h.join_prefix)
  have hlength : (Part.at sec front.length words).words.length = words.length :=
    Text.length_spans _ _ _
  have hpos := List.length_pos_of_ne_nil h.split.ne_nil
  have hindex := wordIndex?_neg_one hpos
  have hspan : s.wordSpan? s.lastSection (-1)
      = (Part.at sec front.length words).words[words.length - 1]? := by
    simp only [wordSpan?, hpart, Option.bind_eq_bind, Option.bind_some, hlength, hindex]
  rw [word?, hspan, ← List.getElem?_map, hslices, List.getLast?_eq_getElem?]

/-- In a text without a dot at its end only an only word is empty at the end. -/
theorem last_ne_nil (hend : ¬ ['.'] <:+ s.text) {init : List (List Char)} {last : List Char}
    (hwords : words = init ++ [last]) (hinit : init ≠ []) : last ≠ [] := by
  rintro rfl
  apply hend
  have hbody : body = Text.join ['.'] init ++ ['.'] := by
    rw [← h.split.join_eq, hwords, Text.join_append init (List.cons_ne_nil [] []),
      Text.join_singleton, List.append_nil, Text.flatMap_append_sep hinit]
  exact ⟨front ++ Text.join ['.'] init, by rw [h.text_eq, hbody, List.append_assoc]⟩

/-- A text without a dot at its end ends in a boundary only if its last section is empty. -/
theorem endsInBoundary_eq (hend : ¬ ['.'] <:+ s.text) : s.endsInBoundary = body.isEmpty := by
  have hne := h.split.ne_nil
  have hwords := List.dropLast_concat_getLast hne
  rw [endsInBoundary, h.word?_last, List.getLast?_eq_some_getLast hne]
  show (words.getLast hne).isEmpty = body.isEmpty
  have hbody : body = words.dropLast.flatMap (· ++ ['.']) ++ words.getLast hne := by
    rw [← h.split.join_eq]
    conv_lhs => rw [← hwords, Text.join_append _ (List.cons_ne_nil _ _), Text.join_singleton]
  by_cases hinit : words.dropLast = []
  · rw [hbody, hinit]
    rfl
  · have hlast := h.last_ne_nil hend hwords.symm hinit
    have hbodyNe : body ≠ [] := by
      rw [hbody]
      exact List.append_ne_nil_of_right_ne_nil _ hlast
    rw [List.isEmpty_eq_false_iff.mpr hlast, List.isEmpty_eq_false_iff.mpr hbodyNe]

/-! ## Two texts with the same front -/

theorem extends?_eq {t : Sectioned scheme} {body' : List Char} {words' : List (List Char)}
    (h' : t.EndsWith parts front body' words') :
    s.extends? t = if words.isPrefixOf words' then some (decide (words.length < words'.length))
      else none := by
  rw [extends?, h.words?_last, h'.words?_last]
  simp only [h.early_eq, h'.early_eq, beq_self_eq_true, Bool.true_and]

/-- More words make a descendant, and no ancestor. -/
theorem isAncestorOf_append {t : Sectioned scheme} {body' : List Char} {more : List (List Char)}
    (hne : more ≠ []) (h' : t.EndsWith parts front body' (words ++ more)) :
    s.isAncestorOf t = true ∧ t.isAncestorOf s = false := by
  have hlength := List.length_pos_of_ne_nil hne
  have hnot : ¬ words ++ more <+: words := by
    intro hprefix
    have := hprefix.length_le
    rw [List.length_append] at this
    omega
  constructor
  · rw [isAncestorOf, h.extends?_eq h', if_pos (by simp), List.length_append]
    simp [hlength]
  · rw [isAncestorOf, h'.extends?_eq h, if_neg (by simpa using hnot)]
    rfl

/-! ## Boundaries -/

/-- An empty word with a word after it is a boundary. -/
theorem boundaries_eq {left right : List (List Char)} (hwords : words = left ++ [] :: right)
    (hne : right ≠ []) :
    s.boundaries = ((Text.spans 1 front.length left).filter (·.isEmpty)).map (·.start)
      ++ (front.length + (left.flatMap (· ++ ['.'])).length)
      :: (((Text.spans 1 (front.length + (left.flatMap (· ++ ['.'])).length + 1) right).dropLast).filter
        (·.isEmpty)).map (·.start) := by
  obtain ⟨sec, hsep, hpart⟩ := h.part?_last
  have hspans : (Part.at sec front.length words).words
      = Text.spans 1 front.length left
        ++ ⟨front.length + (left.flatMap (· ++ ['.'])).length,
            front.length + (left.flatMap (· ++ ['.'])).length⟩
        :: Text.spans 1 (front.length + (left.flatMap (· ++ ['.'])).length + 1) right := by
    rw [Part.at, hsep, hwords]
    exact Text.spans_append ['.'] front.length left ([] :: right)
  generalize front.length + (left.flatMap (· ++ ['.'])).length = seam at hspans ⊢
  have hnonempty : Text.spans 1 (seam + 1) right ≠ [] := by
    obtain ⟨word, right, rfl⟩ := List.exists_cons_of_ne_nil hne
    exact List.cons_ne_nil _ _
  have hseam : (⟨seam, seam⟩ : Text.Span).isEmpty = true := by simp [Text.Span.isEmpty]
  rw [boundaries, hpart]
  simp only [hspans]
  rw [List.dropLast_append_of_ne_nil (List.cons_ne_nil _ _), List.dropLast_cons_of_ne_nil hnonempty,
    List.filter_append, List.filter_cons_of_pos hseam, List.map_append, List.map_cons]

/-- The first empty word with a word after it is the first boundary. -/
theorem head?_boundaries {left right : List (List Char)} (hwords : words = left ++ [] :: right)
    (hne : right ≠ []) (hleft : ∀ word ∈ left, word ≠ []) :
    s.boundaries.head? = some (front.length + (left.flatMap (· ++ ['.'])).length) := by
  have hearlier : (Text.spans 1 front.length left).filter (·.isEmpty) = [] := by
    rw [List.filter_eq_nil_iff]
    intro span hspan
    simp [Text.isEmpty_eq_false_of_mem_spans hleft span hspan]
  rw [h.boundaries_eq hwords hne, hearlier]
  rfl

/-- The last empty word with a word after it is the last boundary. -/
theorem getLast?_boundaries {left right : List (List Char)} (hwords : words = left ++ [] :: right)
    (hne : right ≠ []) (hright : ∀ word ∈ right, word ≠ []) :
    s.boundaries.getLast? = some (front.length + (left.flatMap (· ++ ['.'])).length) := by
  rw [h.boundaries_eq hwords hne]
  generalize front.length + (left.flatMap (· ++ ['.'])).length = seam
  have hlater : ((Text.spans 1 (seam + 1) right).dropLast).filter (·.isEmpty) = [] := by
    rw [List.filter_eq_nil_iff]
    intro span hspan
    simp [Text.isEmpty_eq_false_of_mem_spans hright span (List.mem_of_mem_dropLast hspan)]
  rw [hlater]
  exact List.getLast?_concat

theorem boundaries_eq_nil (hwords : ∀ word ∈ words.dropLast, word ≠ []) : s.boundaries = [] := by
  obtain ⟨sec, hsep, hpart⟩ := h.part?_last
  have hspans : (Part.at sec front.length words).words.dropLast
      = Text.spans 1 front.length words.dropLast := by
    conv_lhs => rw [Part.at, hsep, ← List.dropLast_concat_getLast h.split.ne_nil]
    show (Text.spans (['.'] : List Char).length front.length _).dropLast = _
    rw [Text.spans_append]
    exact List.dropLast_concat
  rw [boundaries, hpart]
  simp only [hspans, List.map_eq_nil_iff, List.filter_eq_nil_iff]
  intro span hspan
  simp [Text.isEmpty_eq_false_of_mem_spans hwords span hspan]

/-- The text up to a word. -/
theorem take_before {left right : List (List Char)} {word : List Char}
    (hwords : words = left ++ word :: right) :
    s.text.take (front.length + (left.flatMap (· ++ ['.'])).length)
      = front ++ left.flatMap (· ++ ['.']) := by
  have hbody : body = left.flatMap (· ++ ['.']) ++ Text.join ['.'] (word :: right) := by
    rw [← h.split.join_eq, hwords, Text.join_append left (List.cons_ne_nil word right)]
  rw [h.text_eq, hbody, ← List.append_assoc, ← List.length_append, List.take_left]

/-- Popping cuts back to what is before the last empty word. -/
theorem pop_eq {left right : List (List Char)} (hwords : words = left ++ [] :: right)
    (hne : right ≠ []) (hright : ∀ word ∈ right, word ≠ []) (fresh : Uuid) :
    s.pop fresh false = parse scheme fresh (front ++ left.flatMap (· ++ ['.'])) := by
  rw [pop, if_neg Bool.false_ne_true, h.getLast?_boundaries hwords hne hright]
  show parse scheme fresh (s.text.take _) = _
  rw [h.take_before hwords]

/-- Popping to the top cuts back to what is before the first empty word. -/
theorem pop_top_eq {left right : List (List Char)} (hwords : words = left ++ [] :: right)
    (hne : right ≠ []) (hleft : ∀ word ∈ left, word ≠ []) (fresh : Uuid) :
    s.pop fresh true = parse scheme fresh (front ++ left.flatMap (· ++ ['.'])) := by
  rw [pop, if_pos rfl, h.head?_boundaries hwords hne hleft]
  show parse scheme fresh (s.text.take _) = _
  rw [h.take_before hwords]

/-- Without boundaries there is nothing to pop. -/
theorem pop_eq_self (hwords : ∀ word ∈ words.dropLast, word ≠ []) (fresh : Uuid) (top : Bool) :
    s.pop fresh top = .ok s := by
  rw [pop, h.boundaries_eq_nil hwords]
  cases top <;> rfl

end EndsWith

end Sectioned

end KeyExpansion
