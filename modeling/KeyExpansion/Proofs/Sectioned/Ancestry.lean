-- SUMMARY: Ancestors of a sectioned text: an order on texts, in which equal words make equal texts.
import KeyExpansion.Proofs.Sectioned.Tail

/-! # Ancestry

Texts are told apart by their characters, and ancestors are found by the texts of all
sections but the last and the words of the last one. These parts are all there is: since
no section is left out and each marker is known, they can be put together to the text
again. So a text with the same parts is the same text, and the relations between texts
are those between their parts. -/

namespace KeyExpansion

namespace Scheme

variable {sections : List Section} {rows : List (List (List Char))} {text : List Char}

/-- The texts of sections, with the marker of each but the last behind it. -/
def assemble : List Section → List (List Char) → List Char
  | sec :: next :: more, body :: bodies =>
    body ++ sec.stop.getD [] ++ assemble (next :: more) bodies
  | _, bodies => bodies.flatten

/-- The texts of sections with these words. -/
def bodies (sections : List Section) (rows : List (List (List Char))) : List (List Char) :=
  List.zipWith (fun sec words => Text.join sec.separator words) sections rows

/-- A text without sections that are left out is put together from those it has. -/
theorem Writes.assemble_eq (h : Writes sections rows text)
    (hrequired : ∀ sec ∈ sections, sec.required = true) :
    assemble sections (bodies sections rows) = text := by
  induction h with
  | last split => simp [bodies, assemble, split.join_eq]
  | @cons sec next more words rows text rest takes _ ih =>
    obtain ⟨hsec, hmore⟩ := List.forall_mem_cons.mp hrequired
    have hwords : words ≠ [] := by
      rintro rfl
      have hoptional := takes.absent_of_nil.1
      rw [hsec] at hoptional
      cases hoptional
    have hwritten : sec.written words = Text.join sec.separator words ++ sec.stop.getD [] := by
      rw [Section.written, if_neg (by simpa using hwords)]
    rw [takes.text_eq, hwritten, ← ih hmore]
    rfl

/-- The parts of a layout have the texts of their sections. -/
theorem Writes.map_slice_place {rest : List Char} {start : Nat} (h : Writes sections rows rest)
    (hstart : start ≤ text.length) (hrest : text.drop start = rest) :
    (place start sections rows).map (fun part => part.bounds.slice text)
      = bodies sections rows := by
  induction h generalizing start with
  | @last sec words body split =>
    have hjoin : Text.join sec.separator words <+: text.drop start := by
      rw [split.join_eq, hrest]
    simp [place, bodies, at_slice hjoin]
  | @cons sec next more words rows _ rest takes _ ih =>
    have hjoin : Text.join sec.separator words <+: text.drop start := by
      rw [hrest]
      exact takes.join_prefix
    obtain ⟨hnext, hdrop⟩ := drop_after hstart (hrest.trans takes.text_eq)
    have hlater := ih hnext hdrop
    simp only [bodies] at hlater ⊢
    rw [place, List.map_cons, at_slice hjoin, hlater, List.zipWith_cons_cons]

end Scheme

namespace Sectioned

variable {scheme : Scheme} {a b c : Sectioned scheme}

/-- A sectioned text as it comes out of parsing. -/
def IsParsed (s : Sectioned scheme) : Prop :=
  ∃ fresh text, parse scheme fresh text = .ok s

theorem IsParsed.layOut_eq (h : a.IsParsed) : scheme.layOut a.text = .ok a.layout := by
  obtain ⟨fresh, text, hparse⟩ := h
  obtain ⟨-, -, hlayout⟩ := parse_eq_ok hparse
  exact hlayout

/-- Words are read from the text and the layout. -/
theorem words?_last_congr (htext : a.text = b.text) (hlayout : a.layout = b.layout) :
    a.words? a.lastSection = b.words? b.lastSection := by
  obtain ⟨text, layout, _, _⟩ := a
  obtain ⟨_, _, _, _⟩ := b
  obtain rfl : text = _ := htext
  obtain rfl : layout = _ := hlayout
  rfl

/-- The texts of all sections but the last and the words of the last one. -/
structure HasParts (s : Sectioned scheme) (early words : List (List Char)) : Prop where
  layOut_eq : scheme.layOut s.text = .ok s.layout
  early_eq : s.layout.dropLast.map (fun part => part.bounds.slice s.text) = early
  words_eq : s.words? s.lastSection = some words
  /-- The parts are all there is. -/
  text_eq : s.text = Scheme.assemble scheme.sections (early ++ [Text.join ['.'] words])

theorem IsParsed.exists_hasParts (hdotted : scheme.IsDotted) (h : a.IsParsed) :
    ∃ early words, a.HasParts early words := by
  obtain ⟨parts, front, body, words, hends, -⟩ := exists_endsWith hdotted h.layOut_eq
  refine ⟨_, words, h.layOut_eq, rfl, hends.words?_last, ?_⟩
  obtain ⟨rows, hrows, hplace⟩ :=
    (Scheme.layOut_eq_ok hdotted.sections_ne_nil hdotted.stop_ne_nil).mp h.layOut_eq
  have hslices := hrows.map_slice_place (Nat.zero_le _) rfl
  obtain ⟨sec, hsep, hlayout⟩ := hends.layout_eq
  have hlast : (Part.at sec front.length words).bounds.slice a.text = Text.join ['.'] words := by
    rw [Scheme.at_slice (hsep ▸ hends.join_prefix), hsep]
  rw [← hplace, hlayout, List.map_append, List.map_singleton, hlast] at hslices
  rw [hlayout, List.dropLast_concat, hslices, hrows.assemble_eq hdotted.required]

namespace HasParts

variable {earlyA earlyB wordsA wordsB : List (List Char)} (ha : a.HasParts earlyA wordsA)
  (hb : b.HasParts earlyB wordsB)
include ha hb

theorem extends?_eq : a.extends? b =
    if earlyA = earlyB ∧ wordsA <+: wordsB then some (decide (wordsA.length < wordsB.length))
    else none := by
  rw [extends?, ha.words_eq, hb.words_eq]
  simp only [ha.early_eq, hb.early_eq, Bool.and_eq_true, beq_iff_eq, List.isPrefixOf_iff_prefix]

/-- A text has more words than its ancestors. -/
theorem isAncestorOf_iff : a.isAncestorOf b = true ↔
    earlyA = earlyB ∧ wordsA <+: wordsB ∧ wordsA ≠ wordsB := by
  rw [isAncestorOf, ha.extends?_eq hb, ← and_assoc]
  by_cases h : earlyA = earlyB ∧ wordsA <+: wordsB
  · have hlength : wordsA.length < wordsB.length ↔ wordsA ≠ wordsB := by
      rw [lt_iff_le_and_ne, and_iff_right h.2.length_le]
      exact not_congr ⟨h.2.eq_of_length, congrArg List.length⟩
    simp [h, hlength]
  · simp [h]

/-- The parts of a text tell it from all others. -/
theorem text_eq_iff_parts : a.text = b.text ↔ earlyA = earlyB ∧ wordsA = wordsB := by
  constructor
  · intro htext
    have hlayouts : a.layout = b.layout := by
      have hlaid := ha.layOut_eq
      rw [htext, hb.layOut_eq] at hlaid
      exact (Except.ok.inj hlaid).symm
    have hwords := words?_last_congr htext hlayouts
    rw [ha.words_eq, hb.words_eq] at hwords
    refine ⟨?_, Option.some.inj hwords⟩
    rw [← ha.early_eq, ← hb.early_eq, htext, hlayouts]
  · rintro ⟨rfl, rfl⟩
    rw [ha.text_eq, hb.text_eq]

theorem isAncestorOrEq_iff : a.isAncestorOrEq b = true ↔ earlyA = earlyB ∧ wordsA <+: wordsB := by
  rw [isAncestorOrEq, same, Bool.or_eq_true, beq_iff_eq, ha.text_eq_iff_parts hb,
    ha.isAncestorOf_iff hb]
  constructor
  · rintro (⟨hearly, rfl⟩ | ⟨hearly, hwords, -⟩)
    · exact ⟨hearly, List.prefix_rfl⟩
    · exact ⟨hearly, hwords⟩
  · rintro ⟨hearly, hwords⟩
    by_cases heq : wordsA = wordsB
    · exact .inl ⟨hearly, heq⟩
    · exact .inr ⟨hearly, hwords, heq⟩

theorem contains_iff : b.contains a = true ↔ earlyA = earlyB ∧ wordsA <+: wordsB := by
  rw [contains, ha.extends?_eq hb]
  split <;> simp_all

end HasParts

/-- Ancestors make a strict order of parsed texts, with equal texts a partial one, and a text
contains no others but its ancestors and itself. -/
theorem ancestry_consistent (hscheme : scheme = .basic ∨ scheme = .codeRef) (ha : a.IsParsed)
    (hb : b.IsParsed) (hc : c.IsParsed) :
    a.isAncestorOf a = false ∧
      (a.isAncestorOf b = true → b.isAncestorOf a = false) ∧
      (a.isAncestorOf b = true → b.isAncestorOf c = true → a.isAncestorOf c = true) ∧
      a.isAncestorOrEq a = true ∧
      (a.isAncestorOrEq b = true → b.isAncestorOrEq a = true → a.text = b.text) ∧
      (a.isAncestorOrEq b = true → b.isAncestorOrEq c = true → a.isAncestorOrEq c = true) ∧
      (a.contains b = true ↔ b.isAncestorOrEq a = true) := by
  have hdotted := Scheme.isDotted_of_declared hscheme
  obtain ⟨earlyA, wordsA, ha⟩ := ha.exists_hasParts hdotted
  obtain ⟨earlyB, wordsB, hb⟩ := hb.exists_hasParts hdotted
  obtain ⟨earlyC, wordsC, hc⟩ := hc.exists_hasParts hdotted
  refine ⟨?_, ?_, ?_, ?_, ?_, ?_, ?_⟩
  · rw [Bool.eq_false_iff, ne_eq, ha.isAncestorOf_iff ha]
    exact fun h => h.2.2 rfl
  · rw [Bool.eq_false_iff, ne_eq, ha.isAncestorOf_iff hb, hb.isAncestorOf_iff ha]
    rintro ⟨-, hab, hne⟩ ⟨-, hba, -⟩
    exact hne (hab.eq_of_length_le hba.length_le)
  · rw [ha.isAncestorOf_iff hb, hb.isAncestorOf_iff hc, ha.isAncestorOf_iff hc]
    rintro ⟨hearly, hab, hne⟩ ⟨hearly', hbc, -⟩
    refine ⟨hearly.trans hearly', hab.trans hbc, ?_⟩
    rintro rfl
    exact hne (hab.eq_of_length_le hbc.length_le)
  · rw [ha.isAncestorOrEq_iff ha]
    exact ⟨rfl, List.prefix_rfl⟩
  · rw [ha.isAncestorOrEq_iff hb, hb.isAncestorOrEq_iff ha, ha.text_eq_iff_parts hb]
    rintro ⟨hearly, hab⟩ ⟨-, hba⟩
    exact ⟨hearly, hab.eq_of_length_le hba.length_le⟩
  · rw [ha.isAncestorOrEq_iff hb, hb.isAncestorOrEq_iff hc, ha.isAncestorOrEq_iff hc]
    rintro ⟨hearly, hab⟩ ⟨hearly', hbc⟩
    exact ⟨hearly.trans hearly', hab.trans hbc⟩
  · rw [hb.contains_iff ha, hb.isAncestorOrEq_iff ha]

/-- A text, a generation of it, and a word pushed to that. -/
theorem ancestry_consistent_generation :
    ∃ a b c : Sectioned .basic, parse .basic (Uuid.ofSeed 1) "a.b::1".toList = .ok a ∧
      parse .basic (Uuid.ofSeed 2) "a.b::1..$gen$.<uuid>".toList = .ok b ∧
      parse .basic (Uuid.ofSeed 3)
        "a.b::1..$gen$.<uuid:00000000-0000-4000-8000-000000000002>..w".toList = .ok c ∧
      a.isAncestorOf b = true ∧ b.isAncestorOf c = true ∧ a.isAncestorOf c = true ∧
      b.isAncestorOf a = false ∧ (a.contains b = true ↔ b.isAncestorOrEq a = true) := by
  refine ⟨_, _, _, rfl, rfl, rfl, by decide, by decide, ?_⟩
  have hconsistent := ancestry_consistent (.inl rfl) ⟨Uuid.ofSeed 1, "a.b::1".toList, rfl⟩
    ⟨Uuid.ofSeed 2, "a.b::1..$gen$.<uuid>".toList, rfl⟩
    ⟨Uuid.ofSeed 3, "a.b::1..$gen$.<uuid:00000000-0000-4000-8000-000000000002>..w".toList, rfl⟩
  obtain ⟨-, hasymm, htrans, -, -, -, hcontains⟩ := hconsistent
  exact ⟨htrans (by decide) (by decide), hasymm (by decide), hcontains⟩

end Sectioned

end KeyExpansion
