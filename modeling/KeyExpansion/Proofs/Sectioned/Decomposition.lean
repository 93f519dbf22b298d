-- SUMMARY: A layout takes a text apart without loss: spans, separators, markers, and back.
import KeyExpansion.Proofs.Sectioned.Grammar

/-! # Decomposition

Whatever the separators and markers of a scheme are, and however they overlap, a layout
is made of spans of the text that lie in order, no word has a separator in it, no section
its marker, and the words with separators and markers between them are the text again. -/

namespace KeyExpansion

namespace Layout

/-- The words of each section. -/
def rows (text : List Char) (layout : Layout) : List (List (List Char)) :=
  layout.map fun part => part.words.map (·.slice text)

/-- The section and the part at a position. -/
structure At (sections : List Section) (layout : Layout) (n : Nat) (sec : Section) (part : Part) :
    Prop where
  sec_eq : sections[n]? = some sec
  part_eq : layout[n]? = some part

/-- The layout takes the text apart into sections and words, without loss and in one way. -/
structure Decomposes (sections : List Section) (text : List Char) (layout : Layout) : Prop where
  length_eq : layout.length = sections.length
  encoded : ∀ part ∈ layout, ∀ span ∈ part.bounds :: part.words, span.Encoded text
  inside : ∀ part ∈ layout, ∀ word ∈ part.words, word.Inside text part.bounds
  bounds_ordered : (layout.map Part.bounds).Pairwise (·.Before text ·)
  words_ordered : layout.flat.Pairwise (·.Before text ·)
  /-- A section is its words with its separator between them. -/
  joined : ∀ n sec part, At sections layout n sec part →
    part.bounds.slice text = Text.join sec.separator (part.words.map (·.slice text))
  /-- No word has the separator of its section in it. -/
  separated : ∀ n sec part, At sections layout n sec part → sec.separator ≠ [] →
    ∀ word ∈ part.words, ¬ sec.separator <:+: word.slice text
  /-- No section that its marker ended has the marker in it. -/
  ended : ∀ n sec part marker, At sections layout n sec part → n + 1 < sections.length →
    sec.stop = some marker → part.words ≠ [] → ¬ marker <:+: part.bounds.slice text
  /-- Only a section that may be left out, and whose marker is not in the rest, has no words. -/
  vacant : ∀ n sec part, At sections layout n sec part → part.words = [] →
    n + 1 < sections.length ∧ sec.required = false ∧
      ∃ marker, sec.stop = some marker ∧ ¬ marker <:+: text.drop part.bounds.start
  rebuilt : Scheme.rebuild sections (layout.rows text) = text
  unique : ∀ rows, Scheme.Writes sections rows text ↔ rows = layout.rows text

end Layout

namespace Scheme

variable {sec : Section} {sections : List Section} {words : List (List Char)}
  {rows : List (List (List Char))} {text rest : List Char} {start : Nat} {part : Part}

/-! ## One part -/

/-- A section in a text: its words are those between its separators, and it goes on to
its marker or to the end of the text. -/
inductive Stands (text : List Char) (sec : Section) (final : Prop) : Part → Prop where
  | last {start : Nat} {words : List (List Char)} (within : start ≤ text.length) (isFinal : final)
      (split : Text.Splits sec.separator (text.drop start) words) :
      Stands text sec final (Part.at sec start words)
  | inner {start : Nat} {words : List (List Char)} {rest : List Char}
      (within : start ≤ text.length) (notFinal : ¬ final)
      (takes : sec.Takes (text.drop start) words rest) :
      Stands text sec final (Part.at sec start words)

/-- Every section stands in the text. -/
theorem Writes.stands (h : Writes sections rows rest) (hstart : start ≤ text.length)
    (hrest : text.drop start = rest) {n : Nat}
    (hat : Layout.At sections (place start sections rows) n sec part) :
    Stands text sec (n + 1 = sections.length) part := by
  obtain ⟨hsec, hpart⟩ := hat
  induction h generalizing start n with
  | last split =>
    cases n with
    | zero =>
      cases hsec
      cases hpart
      exact .last hstart rfl (hrest ▸ split)
    | succ n => simp at hsec
  | cons takes _ ih =>
    cases n with
    | zero =>
      cases hsec
      cases hpart
      exact .inner hstart (by simp) (hrest ▸ takes)
    | succ n =>
      obtain ⟨hnext, hdrop⟩ := drop_after hstart (hrest.trans takes.text_eq)
      simpa using ih hnext hdrop (by simpa using hsec) hpart

theorem Stands.exists_at {final : Prop} (h : Stands text sec final part) :
    ∃ start words, part = Part.at sec start words ∧ start ≤ text.length ∧
      Text.join sec.separator words <+: text.drop start := by
  cases h with
  | last within _ split => exact ⟨_, _, rfl, within, split.join_prefix⟩
  | inner within _ takes => exact ⟨_, _, rfl, within, takes.join_prefix⟩

/-! Facts about a stretch of joined words at a position. -/

section AtPosition

variable (hstart : start ≤ text.length) (hjoin : Text.join sec.separator words <+: text.drop start)

include hstart hjoin

theorem at_within : (Part.at sec start words).bounds.Within text := by
  have hlength := hjoin.length_le
  rw [List.length_drop] at hlength
  refine ⟨Nat.le_add_right _ _, ?_⟩
  show start + (Text.join sec.separator words).length ≤ text.length
  omega

theorem at_inside : ∀ word ∈ (Part.at sec start words).words,
    word.Within text ∧ word.Inside text (Part.at sec start words).bounds := by
  intro word hword
  have hbounds := (at_within hstart hjoin).stop_le
  obtain ⟨hfirst, hspan, hstop⟩ := Text.mem_spans word hword
  exact ⟨⟨hspan, hstop.trans hbounds⟩, Text.Span.inside_of_le text hfirst hstop⟩

omit hstart

theorem at_words : (Part.at sec start words).words.map (·.slice text) = words :=
  Text.map_slice_spans hjoin

theorem at_slice :
    (Part.at sec start words).bounds.slice text = Text.join sec.separator words := by
  rw [Part.at, Text.Span.slice_eq]
  exact (List.prefix_iff_eq_take.mp hjoin).symm

end AtPosition

namespace Stands

variable {final : Prop} (h : Stands text sec final part)

include h

theorem within : part.bounds.Within text := by
  obtain ⟨start, words, rfl, hstart, hjoin⟩ := h.exists_at
  exact at_within hstart hjoin

theorem inside : ∀ word ∈ part.words, word.Within text ∧ word.Inside text part.bounds := by
  obtain ⟨start, words, rfl, hstart, hjoin⟩ := h.exists_at
  exact at_inside hstart hjoin

theorem ordered : part.words.Pairwise fun a b => a.stop ≤ b.start := by
  obtain ⟨start, words, rfl, -, -⟩ := h.exists_at
  exact Text.pairwise_spans sec.separator start words

theorem joined :
    part.bounds.slice text = Text.join sec.separator (part.words.map (·.slice text)) := by
  obtain ⟨start, words, rfl, -, hjoin⟩ := h.exists_at
  rw [at_words hjoin, at_slice hjoin]

theorem separated (hsep : sec.separator ≠ []) :
    ∀ word ∈ part.words, ¬ sec.separator <:+: word.slice text := by
  have hslices : ∀ word ∈ part.words.map (·.slice text), ¬ sec.separator <:+: word := by
    cases h with
    | last _ _ split =>
      rw [at_words split.join_prefix]
      exact split.not_infix hsep
    | inner _ _ takes =>
      rw [at_words takes.join_prefix]
      exact takes.not_infix hsep
  intro word hword
  exact hslices _ (List.mem_map_of_mem hword)

theorem ended (hfinal : ¬ final) {marker : List Char} (stop : sec.stop = some marker)
    (hwords : part.words ≠ []) : ¬ marker <:+: part.bounds.slice text := by
  cases h with
  | last _ isFinal _ => exact absurd isFinal hfinal
  | @inner start words rest _ _ takes =>
    rw [at_slice takes.join_prefix]
    refine takes.marker_not_infix stop ?_
    rintro rfl
    exact hwords rfl

theorem vacant (hwords : part.words = []) :
    ¬ final ∧ sec.required = false ∧
      ∃ marker, sec.stop = some marker ∧ ¬ marker <:+: text.drop part.bounds.start := by
  have hslices : part.words.map (·.slice text) = [] := by rw [hwords, List.map_nil]
  cases h with
  | last _ _ split =>
    rw [at_words split.join_prefix] at hslices
    exact absurd hslices split.ne_nil
  | inner _ notFinal takes =>
    rw [at_words takes.join_prefix] at hslices
    subst hslices
    exact ⟨notFinal, takes.absent_of_nil⟩

end Stands

/-! ## All parts -/

theorem le_start_of_mem_place : ∀ part ∈ place start sections rows, start ≤ part.bounds.start := by
  induction sections generalizing start rows with
  | nil => simp [place]
  | cons sec sections ih =>
    cases rows with
    | nil => simp [place]
    | cons words rows =>
      refine List.forall_mem_cons.mpr ⟨le_rfl, ?_⟩
      intro part hpart
      exact (Nat.le_add_right _ _).trans (ih part hpart)

theorem pairwise_place (start : Nat) (sections : List Section) (rows : List (List (List Char))) :
    (place start sections rows).Pairwise fun a b => a.bounds.stop ≤ b.bounds.start := by
  induction sections generalizing start rows with
  | nil => simp [place]
  | cons sec sections ih =>
    cases rows with
    | nil => simp [place]
    | cons words rows =>
      refine List.pairwise_cons.mpr ⟨?_, ih _ rows⟩
      intro part hpart
      have hlength := (sec.join_prefix_written words).length_le
      have hstart := le_start_of_mem_place part hpart
      show start + (Text.join sec.separator words).length ≤ part.bounds.start
      omega

theorem length_place (h : rows.length = sections.length) :
    (place start sections rows).length = sections.length := by
  induction sections generalizing start rows with
  | nil => rfl
  | cons sec sections ih =>
    cases rows with
    | nil => simp at h
    | cons words rows =>
      rw [place, List.length_cons, List.length_cons, ih (by simpa using h)]

/-- The placed rows are read back from the text. -/
theorem Writes.rows_place (h : Writes sections rows rest) (hstart : start ≤ text.length)
    (hrest : text.drop start = rest) : Layout.rows text (place start sections rows) = rows := by
  induction h generalizing start with
  | @last sec words body split =>
    have hjoin : Text.join sec.separator words <+: text.drop start := by
      rw [split.join_eq, hrest]
    rw [place, Layout.rows, List.map_cons, at_words hjoin]
    rfl
  | @cons sec next more words rows _ rest takes _ ih =>
    have hjoin : Text.join sec.separator words <+: text.drop start := by
      rw [hrest]
      exact takes.join_prefix
    obtain ⟨hnext, hdrop⟩ := drop_after hstart (hrest.trans takes.text_eq)
    have hrows := ih hnext hdrop
    rw [Layout.rows] at hrows
    rw [place, Layout.rows, List.map_cons, at_words hjoin, hrows]

/-- Words of different sections are in the order of their sections. -/
theorem flat_pairwise {layout : Layout}
    (hinside : ∀ part ∈ layout, ∀ word ∈ part.words, word.Inside text part.bounds)
    (hparts : layout.Pairwise fun a b => a.bounds.stop ≤ b.bounds.start)
    (hwords : ∀ part ∈ layout, part.words.Pairwise fun a b => a.stop ≤ b.start) :
    layout.flat.Pairwise (·.Before text ·) := by
  rw [Layout.flat, List.pairwise_flatMap]
  constructor
  · intro part hpart
    exact (hwords part hpart).imp fun h => Text.Span.before_of_le text h
  · refine hparts.imp_of_mem ?_
    intro a b ha hb hab word hword word' hword'
    have hleft := (hinside a ha word hword).positions.2
    have hright := (hinside b hb word' hword').positions.1
    exact Text.Span.before_of_le text (by omega)

/-! ## The whole text -/

/-- There is one way to read a text. -/
theorem Writes.unique (hmarkers : ∀ sec ∈ sections, sec.stop ≠ some [])
    (h : Writes sections rows text) {others : List (List (List Char))}
    (hothers : Writes sections others text) : others = rows := by
  have hlaid := h.layOutFrom_eq hmarkers (Nat.zero_le text.length) rfl
  have hlaidOthers := hothers.layOutFrom_eq hmarkers (Nat.zero_le text.length) rfl
  have hplace : place 0 sections others = place 0 sections rows :=
    Except.ok.inj (hlaidOthers.symm.trans hlaid)
  calc
    others = Layout.rows text (place 0 sections others) :=
      (hothers.rows_place (Nat.zero_le _) rfl).symm
    _ = Layout.rows text (place 0 sections rows) := by rw [hplace]
    _ = rows := h.rows_place (Nat.zero_le _) rfl

/-- Every part is that of one of the sections. -/
theorem Writes.exists_stands (h : Writes sections rows text) :
    ∀ part ∈ place 0 sections rows, ∃ sec final, Stands text sec final part := by
  intro part hpart
  obtain ⟨n, hn, rfl⟩ := List.mem_iff_getElem.mp hpart
  have hsec : n < sections.length := length_place h.length_eq ▸ hn
  exact ⟨_, _, h.stands (Nat.zero_le _) rfl
    ⟨List.getElem?_eq_getElem hsec, List.getElem?_eq_getElem hn⟩⟩

theorem Writes.spans_encoded (h : Writes sections rows text) :
    ∀ part ∈ place 0 sections rows, ∀ span ∈ part.bounds :: part.words, span.Encoded text := by
  intro part hpart
  obtain ⟨sec, final, hstands⟩ := h.exists_stands part hpart
  refine List.forall_mem_cons.mpr ⟨hstands.within.encoded, ?_⟩
  intro word hword
  exact (hstands.inside word hword).1.encoded

theorem Writes.words_inside (h : Writes sections rows text) :
    ∀ part ∈ place 0 sections rows, ∀ word ∈ part.words, word.Inside text part.bounds := by
  intro part hpart word hword
  obtain ⟨sec, final, hstands⟩ := h.exists_stands part hpart
  exact (hstands.inside word hword).2

theorem Writes.words_ordered (h : Writes sections rows text) :
    (place 0 sections rows).flat.Pairwise (·.Before text ·) := by
  apply flat_pairwise h.words_inside (pairwise_place 0 sections rows)
  intro part hpart
  obtain ⟨sec, final, hstands⟩ := h.exists_stands part hpart
  exact hstands.ordered

theorem Writes.decomposes (hmarkers : ∀ sec ∈ sections, sec.stop ≠ some [])
    (h : Writes sections rows text) : (place 0 sections rows).Decomposes sections text := by
  have hrows := h.rows_place (Nat.zero_le _) rfl
  have hstands {n : Nat} {sec : Section} {part : Part}
      (hat : Layout.At sections (place 0 sections rows) n sec part) :
      Stands text sec (n + 1 = sections.length) part :=
    h.stands (Nat.zero_le _) rfl hat
  refine {
    length_eq := length_place h.length_eq
    encoded := h.spans_encoded
    inside := h.words_inside
    bounds_ordered := ?_
    words_ordered := h.words_ordered
    joined := fun n sec part hat => (hstands hat).joined
    separated := fun n sec part hat => (hstands hat).separated
    ended := ?_
    vacant := ?_
    rebuilt := by rw [hrows, h.rebuild_eq]
    unique := ?_ }
  · rw [List.pairwise_map]
    exact (pairwise_place 0 sections rows).imp (Text.Span.before_of_le text)
  · intro n sec part marker hat hn stop hwords
    exact (hstands hat).ended (by omega) stop hwords
  · intro n sec part hat hwords
    have hn : n < sections.length := (List.getElem?_eq_some_iff.mp hat.sec_eq).1
    obtain ⟨hfinal, hvacant⟩ := (hstands hat).vacant hwords
    exact ⟨by omega, hvacant⟩
  · intro others
    rw [hrows]
    constructor
    · exact h.unique hmarkers
    · rintro rfl
      exact h

/-- A text that is laid out is taken apart without loss and in one way. -/
theorem layOut_decomposes {scheme : Scheme} {layout : Layout} (hne : scheme.sections ≠ [])
    (hmarkers : ∀ sec ∈ scheme.sections, sec.stop ≠ some [])
    (h : scheme.layOut text = .ok layout) : layout.Decomposes scheme.sections text := by
  obtain ⟨rows, hwrites, rfl⟩ := (layOut_eq_ok hne hmarkers).mp h
  exact hwrites.decomposes hmarkers

/-- Separators and markers that overlap themselves and each other. -/
def overlapping : Scheme where
  sections := [
    { name := "first", separator := "aa".toList, stop := some "::".toList },
    { name := "second", separator := [], stop := some "é:".toList, required := false },
    { name := "third", separator := ['.'], stop := some ":".toList, required := false },
    { name := "last", separator := ":".toList, stop := some "::".toList }]

theorem layOut_decomposes_overlapping :
    Layout.Decomposes overlapping.sections "éaaa:::ö:.".toList
      [⟨⟨0, 4⟩, [⟨0, 1⟩, ⟨3, 4⟩]⟩, ⟨⟨6, 6⟩, []⟩, ⟨⟨6, 6⟩, [⟨6, 6⟩]⟩, ⟨⟨7, 10⟩, [⟨7, 8⟩, ⟨9, 10⟩]⟩] := by
  have hlaid : overlapping.layOut "éaaa:::ö:.".toList = .ok
      [⟨⟨0, 4⟩, [⟨0, 1⟩, ⟨3, 4⟩]⟩, ⟨⟨6, 6⟩, []⟩, ⟨⟨6, 6⟩, [⟨6, 6⟩]⟩, ⟨⟨7, 10⟩, [⟨7, 8⟩, ⟨9, 10⟩]⟩] :=
    rfl
  exact layOut_decomposes (by decide) (by decide) hlaid

end Scheme

end KeyExpansion
