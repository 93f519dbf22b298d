-- SUMMARY: The texts that rows of words write, and that laying out reads those rows back.
import KeyExpansion.Proofs.Except
import KeyExpansion.Proofs.Text.Span
import KeyExpansion.Sectioned.Layout

/-! # The grammar of sectioned texts

A sectioned text writes one row of words for each section. `Writes` says which rows a
text writes, without positions and without searching; `place` says where the rows stand.
Laying a text out gives the places of the rows that it writes, and fails on the texts
that write none. -/

namespace KeyExpansion

/-- What a section writes. Without words it is left out, and its marker with it. -/
def Section.written (sec : Section) (words : List (List Char)) : List Char :=
  if words.isEmpty then [] else Text.join sec.separator words ++ sec.stop.getD []

/-- A section with its words at a position. -/
def Part.at (sec : Section) (start : Nat) (words : List (List Char)) : Part where
  bounds := ⟨start, start + (Text.join sec.separator words).length⟩
  words := Text.spans sec.separator.length start words

/-- A section that is not the last takes words from the start of a text and leaves a
rest. It is left out only if its marker is nowhere in the text. -/
inductive Section.Takes (sec : Section) : List Char → List (List Char) → List Char → Prop where
  | unended {words : List (List Char)} {body : List Char} (stop : sec.stop = none)
      (split : Text.Splits sec.separator body words) : sec.Takes body words []
  | ended {words : List (List Char)} {marker body rest : List Char}
      (stop : sec.stop = some marker) (first : Text.IsFirst marker body)
      (split : Text.Splits sec.separator body words) : sec.Takes (body ++ marker ++ rest) words rest
  | absent {marker text : List Char} (stop : sec.stop = some marker)
      (optional : sec.required = false) (missing : ¬ marker <:+: text) : sec.Takes text [] text

namespace Scheme

/-- The rows of words that a text writes, one for each section. -/
inductive Writes : List Section → List (List (List Char)) → List Char → Prop where
  | last {sec : Section} {words : List (List Char)} {body : List Char}
      (split : Text.Splits sec.separator body words) : Writes [sec] [words] body
  | cons {sec next : Section} {more : List Section} {words : List (List Char)}
      {rows : List (List (List Char))} {text rest : List Char} (takes : sec.Takes text words rest)
      (later : Writes (next :: more) rows rest) : Writes (sec :: next :: more) (words :: rows) text

/-- The text that rows of words write. The marker of the last section is not written. -/
def rebuild : List Section → List (List (List Char)) → List Char
  | [sec], [words] => Text.join sec.separator words
  | sec :: next :: more, words :: rows => sec.written words ++ rebuild (next :: more) rows
  | _, _ => []

/-- Where rows of words stand, from a position on. -/
def place : Nat → List Section → List (List (List Char)) → Layout
  | start, sec :: more, words :: rows =>
    Part.at sec start words :: place (start + (sec.written words).length) more rows
  | _, _, _ => []

end Scheme

variable {sec : Section} {words : List (List Char)} {text rest : List Char}

theorem Section.written_eq {body : List Char} (split : Text.Splits sec.separator body words) :
    sec.written words = body ++ sec.stop.getD [] := by
  rw [Section.written, if_neg (by simpa using split.ne_nil), split.join_eq]

/-- What a section takes is what it writes. -/
theorem Section.Takes.text_eq (h : sec.Takes text words rest) : text = sec.written words ++ rest := by
  cases h with
  | unended stop split => rw [Section.written_eq split, stop]; simp
  | ended stop _ split => rw [Section.written_eq split, stop]; rfl
  | absent => rfl

theorem Section.join_prefix_written (sec : Section) (words : List (List Char)) :
    Text.join sec.separator words <+: sec.written words := by
  rw [Section.written]
  split
  · next h => rw [List.isEmpty_iff.mp h]; exact List.prefix_rfl
  · exact List.prefix_append _ _

theorem Section.Takes.join_prefix (h : sec.Takes text words rest) :
    Text.join sec.separator words <+: text := by
  rw [h.text_eq]
  exact (sec.join_prefix_written words).trans (List.prefix_append _ _)

theorem Section.Takes.not_infix (h : sec.Takes text words rest) (hsep : sec.separator ≠ []) :
    ∀ word ∈ words, ¬ sec.separator <:+: word := by
  cases h with
  | unended _ split => exact split.not_infix hsep
  | ended _ _ split => exact split.not_infix hsep
  | absent => simp

theorem Section.Takes.marker_not_infix (h : sec.Takes text words rest) {marker : List Char}
    (stop : sec.stop = some marker) (hwords : words ≠ []) :
    ¬ marker <:+: Text.join sec.separator words := by
  cases h with
  | unended stop' => simp [stop'] at stop
  | ended stop' first split =>
    obtain rfl : _ = marker := Option.some.inj (stop'.symm.trans stop)
    rw [split.join_eq]
    exact first.not_infix
  | absent => exact absurd rfl hwords

theorem Section.Takes.absent_of_nil (h : sec.Takes text [] rest) :
    sec.required = false ∧ ∃ marker, sec.stop = some marker ∧ ¬ marker <:+: text := by
  cases h with
  | unended _ split => exact absurd rfl split.ne_nil
  | ended _ _ split => exact absurd rfl split.ne_nil
  | absent stop optional missing => exact ⟨optional, _, stop, missing⟩

namespace Scheme

variable {next : Section} {more sections : List Section} {rows : List (List (List Char))}
  {start : Nat} {layout : Layout}

theorem Writes.length_eq (h : Writes sections rows text) : rows.length = sections.length := by
  induction h with
  | last => rfl
  | cons _ _ ih => simp only [List.length_cons, ih]

theorem Writes.rebuild_eq (h : Writes sections rows text) : rebuild sections rows = text := by
  induction h with
  | last split => exact split.join_eq
  | cons takes _ ih => rw [rebuild, ih, takes.text_eq]

/-! ## One section -/

/-- After a stretch at a position the text goes on with what follows it. -/
theorem drop_after (hstart : start ≤ text.length) {stretch : List Char}
    (h : text.drop start = stretch ++ rest) :
    start + stretch.length ≤ text.length ∧ text.drop (start + stretch.length) = rest := by
  constructor
  · have hlength := congrArg List.length h
    simp only [List.length_drop, List.length_append] at hlength
    omega
  · rw [← List.drop_drop, h, List.drop_left]

theorem ofBounds_eq {body : List Char} (h : text.drop start = body ++ rest)
    (split : Text.Splits sec.separator body words) :
    Part.ofBounds sec text ⟨start, start + body.length⟩ = Part.at sec start words := by
  have hslice : (⟨start, start + body.length⟩ : Text.Span).slice text = body := by
    rw [Text.Span.slice_eq, h, List.take_left]
  rw [Part.ofBounds, Part.at, hslice, ← split.eq_splitOn, split.join_eq]

theorem ofBounds_eq_last (hstart : start ≤ text.length)
    (split : Text.Splits sec.separator (text.drop start) words) :
    Part.ofBounds sec text ⟨start, text.length⟩ = Part.at sec start words := by
  have hlength : text.length = start + (text.drop start).length := by
    rw [List.length_drop]
    omega
  rw [hlength]
  exact ofBounds_eq (List.append_nil _).symm split

/-- A section is laid out by what it takes, and the others from there on. -/
theorem layOutFrom_cons (hstart : start ≤ text.length) (hmarker : sec.stop ≠ some [])
    (takes : sec.Takes (text.drop start) words rest) :
    layOutFrom text start (sec :: next :: more) =
      (Part.at sec start words :: ·) <$>
        layOutFrom text (start + (sec.written words).length) (next :: more) := by
  generalize hdrop : text.drop start = remaining at takes
  cases takes with
  | unended stop split =>
    have hlength : start + (text.drop start).length = text.length := by
      rw [List.length_drop]
      omega
    rw [← hdrop] at split
    rw [Section.written_eq split, stop, Option.getD_none, List.append_nil, hlength]
    simp only [layOutFrom, stop, ofBounds_eq_last hstart split]
    rfl
  | @ended _ marker body _ stop first split =>
    have hnonempty : marker ≠ [] := fun heq => hmarker (heq ▸ stop)
    have hfind : Text.find? marker (text.drop start) = some body.length :=
      (Text.find?_eq_some hnonempty).mpr ⟨body, rest, hdrop, first, rfl⟩
    have hpart := ofBounds_eq (by rw [hdrop, List.append_assoc]) split
    rw [Section.written_eq split, stop, Option.getD_some, List.length_append, ← Nat.add_assoc]
    simp only [layOutFrom, stop, hfind, hpart]
    rfl
  | absent stop optional missing =>
    have hfind : Text.find? _ (text.drop start) = none :=
      Text.find?_eq_none.mpr (hdrop ▸ missing)
    simp only [layOutFrom, stop, hfind, optional]
    rfl

/-- A section can only be laid out if it takes something. -/
theorem takes_of_layOutFrom (hmarker : sec.stop ≠ some [])
    (h : layOutFrom text start (sec :: next :: more) = .ok layout) :
    ∃ words rest, sec.Takes (text.drop start) words rest := by
  cases stop : sec.stop with
  | none => exact ⟨_, [], .unended stop (Text.splits_splitOn sec.separator _)⟩
  | some marker =>
    cases hfind : Text.find? marker (text.drop start) with
    | some n =>
      have hnonempty : marker ≠ [] := fun heq => hmarker (heq ▸ stop)
      obtain ⟨body, rest, hsplit, first, -⟩ := (Text.find?_eq_some hnonempty).mp hfind
      rw [hsplit]
      exact ⟨_, rest, .ended stop first (Text.splits_splitOn sec.separator body)⟩
    | none =>
      cases optional : sec.required with
      | false => exact ⟨[], _, .absent stop optional (Text.find?_eq_none.mp hfind)⟩
      | true => simp [layOutFrom, stop, hfind, optional] at h

/-- A section that is not the last has words with its marker behind them, or is left out,
whatever its marker is. -/
theorem layOutFrom_cons_eq_ok (hstart : start ≤ text.length)
    (h : layOutFrom text start (sec :: next :: more) = .ok layout) :
    ∃ words parts start', layout = Part.at sec start words :: parts ∧
      Text.join sec.separator words <+: text.drop start ∧ start' ≤ text.length ∧
      layOutFrom text start' (next :: more) = .ok parts ∧
      (words ≠ [] ∧ text.drop start
          = Text.join sec.separator words ++ sec.stop.getD [] ++ text.drop start' ∨
        words = [] ∧ start' = start ∧ sec.required = false ∧ ∃ marker, sec.stop = some marker) := by
  by_cases hempty : sec.stop = some []
  · have hsplit := Text.splits_splitOn sec.separator []
    have hfind : Text.find? [] (text.drop start) = some 0 := by
      cases text.drop start <;> rfl
    have hbody : text.drop start = [] ++ text.drop start := rfl
    have hpart := ofBounds_eq hbody hsplit
    rw [List.length_nil] at hpart
    simp only [layOutFrom, hempty, hfind, hpart] at h
    obtain ⟨parts, hparts, hlayout⟩ := Except.bind_eq_ok.mp h
    refine ⟨_, parts, start, (Except.pure_eq_ok.mp hlayout).symm, ?_, hstart, hparts,
      .inl ⟨hsplit.ne_nil, ?_⟩⟩
    · rw [hsplit.join_eq]
      exact List.nil_prefix
    · rw [hsplit.join_eq, hempty]
      rfl
  · obtain ⟨words, rest, takes⟩ := takes_of_layOutFrom hempty h
    rw [layOutFrom_cons hstart hempty takes] at h
    obtain ⟨parts, hparts, hlayout⟩ := Except.map_eq_ok.mp h
    obtain ⟨hnext, hdrop⟩ := drop_after hstart takes.text_eq
    refine ⟨words, parts, _, hlayout.symm, takes.join_prefix, hnext, hparts, ?_⟩
    by_cases hwords : words = []
    · subst hwords
      obtain ⟨optional, marker, stop, -⟩ := takes.absent_of_nil
      exact .inr ⟨rfl, by simp [Section.written], optional, marker, stop⟩
    · refine .inl ⟨hwords, ?_⟩
      rw [hdrop, takes.text_eq, Section.written, if_neg (by simpa using hwords)]

/-! ## All sections -/

/-- A text that writes rows is laid out by their places. -/
theorem Writes.layOutFrom_eq (h : Writes sections rows rest)
    (hmarkers : ∀ sec ∈ sections, sec.stop ≠ some []) (hstart : start ≤ text.length)
    (hrest : text.drop start = rest) :
    layOutFrom text start sections = .ok (place start sections rows) := by
  induction h generalizing start with
  | last split =>
    rw [layOutFrom, ofBounds_eq_last hstart (hrest ▸ split)]
    rfl
  | cons takes _ ih =>
    obtain ⟨hmarker, hmarkers⟩ := List.forall_mem_cons.mp hmarkers
    obtain ⟨hnext, hdrop⟩ := drop_after hstart (hrest.trans takes.text_eq)
    rw [layOutFrom_cons hstart hmarker (hrest ▸ takes), ih hmarkers hnext hdrop]
    rfl

/-- Only texts that write rows are laid out. -/
theorem writes_of_layOutFrom (hne : sections ≠ [])
    (hmarkers : ∀ sec ∈ sections, sec.stop ≠ some []) (hstart : start ≤ text.length)
    (h : layOutFrom text start sections = .ok layout) :
    ∃ rows, Writes sections rows (text.drop start) := by
  induction sections generalizing start layout with
  | nil => exact absurd rfl hne
  | cons sec sections ih =>
    cases sections with
    | nil => exact ⟨_, .last (Text.splits_splitOn sec.separator _)⟩
    | cons next more =>
      obtain ⟨hmarker, hmarkers⟩ := List.forall_mem_cons.mp hmarkers
      obtain ⟨words, rest, takes⟩ := takes_of_layOutFrom hmarker h
      obtain ⟨hnext, hdrop⟩ := drop_after hstart takes.text_eq
      rw [layOutFrom_cons hstart hmarker takes] at h
      obtain ⟨parts, hparts, -⟩ := Except.map_eq_ok.mp h
      obtain ⟨rows, hrows⟩ := ih (List.cons_ne_nil next more) hmarkers hnext hparts
      rw [hdrop] at hrows
      exact ⟨words :: rows, .cons takes hrows⟩

theorem layOut_eq_ok {scheme : Scheme} (hne : scheme.sections ≠ [])
    (hmarkers : ∀ sec ∈ scheme.sections, sec.stop ≠ some []) :
    scheme.layOut text = .ok layout ↔
      ∃ rows, Writes scheme.sections rows text ∧ layout = place 0 scheme.sections rows := by
  constructor
  · intro h
    obtain ⟨rows, hrows⟩ := writes_of_layOutFrom hne hmarkers (Nat.zero_le _) h
    have hplace := hrows.layOutFrom_eq hmarkers (Nat.zero_le _) rfl
    rw [layOut, hplace] at h
    exact ⟨rows, hrows, (Except.ok.inj h).symm⟩
  · rintro ⟨rows, hrows, rfl⟩
    exact hrows.layOutFrom_eq hmarkers (Nat.zero_le _) rfl

end Scheme

end KeyExpansion
