-- SUMMARY: The schemes whose sections are separated by dots: what cleaning makes of a text.
import KeyExpansion.Proofs.Sectioned.Canonical
import KeyExpansion.Proofs.Sectioned.Grammar
import KeyExpansion.Sectioned.Basic

/-! # Dotted schemes

In both declared schemes words are separated by dots, every section is required, and every
section but the last ends with a marker. A parsed text of such a scheme is clean: it is
tidy, its uuid is canonical, and its markers are there. Cleaning leaves a clean text alone,
and takes off a dot at its end. -/

namespace KeyExpansion

namespace Scheme

/-- Every section is required and has dots between its words, and only the last has no
marker. -/
structure IsDotted (scheme : Scheme) : Prop where
  sections_ne_nil : scheme.sections ≠ []
  separator_eq : ∀ sec ∈ scheme.sections, sec.separator = ['.']
  required : ∀ sec ∈ scheme.sections, sec.required = true
  stop_ne_nil : ∀ sec ∈ scheme.sections, sec.stop ≠ some []
  stop_ne_none : ∀ sec ∈ scheme.sections.dropLast, sec.stop ≠ none
  last_stop : ∀ sec ∈ scheme.sections.getLast?, sec.stop = none

theorem isDotted_basic : basic.IsDotted := by
  constructor <;> decide

theorem isDotted_codeRef : codeRef.IsDotted := by
  constructor <;> decide

variable {scheme : Scheme} {text : List Char}

/-- The declared schemes are dotted. -/
theorem isDotted_of_declared (h : scheme = .basic ∨ scheme = .codeRef) : scheme.IsDotted := by
  rcases h with rfl | rfl
  · exact isDotted_basic
  · exact isDotted_codeRef

theorem foldr_insertOnce_of_eq {sep : List Char} {seps : List (List Char)} (hne : seps ≠ [])
    (h : ∀ other ∈ seps, other = sep) : seps.foldr insertOnce [] = [sep] := by
  induction seps with
  | nil => exact absurd rfl hne
  | cons first seps ih =>
    obtain ⟨rfl, hseps⟩ := List.forall_mem_cons.mp h
    rw [List.foldr_cons]
    cases seps with
    | nil => rfl
    | cons next seps =>
      rw [ih (List.cons_ne_nil next seps) hseps]
      simp [insertOnce]

theorem IsDotted.separators_eq (h : scheme.IsDotted) : scheme.separators = [['.']] := by
  refine foldr_insertOnce_of_eq ?_ ?_
  · simpa using h.sections_ne_nil
  · intro sep hsep
    obtain ⟨sec, hsec, rfl⟩ := List.mem_map.mp hsep
    exact h.separator_eq sec hsec

theorem IsDotted.lastSeparator_eq (h : scheme.IsDotted) : scheme.lastSeparator = ['.'] := by
  rw [lastSeparator, List.getLast?_eq_some_getLast h.sections_ne_nil]
  exact h.separator_eq _ (List.getLast_mem h.sections_ne_nil)

theorem IsDotted.tidy_eq (h : scheme.IsDotted) : scheme.tidy text = Text.tidy '.' text := by
  rw [tidy, h.separators_eq, h.lastSeparator_eq]
  rfl

/-! ## Markers -/

/-- Every marker of the scheme stands in the text. -/
def HasMarkers (scheme : Scheme) (text : List Char) : Prop :=
  ∀ sec ∈ scheme.sections, ∀ marker, sec.stop = some marker → marker <:+: text

theorem HasMarkers.append (h : scheme.HasMarkers text) (more : List Char) :
    scheme.HasMarkers (text ++ more) :=
  fun sec hsec marker hstop =>
    (h sec hsec marker hstop).trans (List.prefix_append text more).isInfix

theorem HasMarkers.missing_eq (h : scheme.HasMarkers text) : scheme.missing? text = none := by
  rw [missing?, List.findSome?_eq_none_iff]
  intro sec hsec
  cases hstop : sec.stop with
  | none => simp
  | some marker =>
    have hcontains : Text.contains marker text = true :=
      Text.contains_eq_true.mpr (h sec hsec marker hstop)
    cases sec.required <;> simp [hcontains]

theorem HasMarkers.withLead_eq (h : scheme.HasMarkers text) : scheme.withLead text = text := by
  rw [withLead]
  split
  · next lead marker _ hhead =>
    obtain ⟨sec, hsec, hstop⟩ := Option.bind_eq_some_iff.mp hhead
    have hcontains : Text.contains marker text = true :=
      Text.contains_eq_true.mpr (h sec (List.mem_of_mem_head? hsec) marker hstop)
    rw [if_pos hcontains]
  · rfl

theorem hasMarkers_basic (h : "::".toList <:+: text) : basic.HasMarkers text := by
  intro sec hsec marker hstop
  rcases List.mem_cons.mp hsec with rfl | hsec
  · obtain rfl := Option.some.inj hstop
    exact h
  · obtain rfl := List.mem_singleton.mp hsec
    cases hstop

theorem Writes.marker_infix {sections : List Section} {rows : List (List (List Char))}
    (h : Writes sections rows text) (hrequired : ∀ sec ∈ sections, sec.required = true)
    (hlast : ∀ sec ∈ sections.getLast?, sec.stop = none) :
    ∀ sec ∈ sections, ∀ marker, sec.stop = some marker → marker <:+: text := by
  induction h with
  | @last sec words body split =>
    intro sec' hsec marker hstop
    obtain rfl := List.mem_singleton.mp hsec
    rw [hlast sec' rfl] at hstop
    cases hstop
  | @cons sec next more words rows text rest takes _ ih =>
    obtain ⟨hsec, hmore⟩ := List.forall_mem_cons.mp hrequired
    refine List.forall_mem_cons.mpr ⟨?_, ?_⟩
    · intro marker hstop
      cases takes with
      | unended stop _ => rw [stop] at hstop; cases hstop
      | @ended _ marker' body _ stop _ _ =>
        obtain rfl : marker' = marker := Option.some.inj (stop.symm.trans hstop)
        exact ⟨body, rest, rfl⟩
      | absent _ optional _ => rw [hsec] at optional; cases optional
    · intro sec' hsec' marker hstop
      have hrest := ih hmore hlast sec' hsec' marker hstop
      rw [takes.text_eq]
      exact hrest.trans (List.suffix_append _ rest).isInfix

/-- A text that can be laid out has its markers. -/
theorem IsDotted.hasMarkers (h : scheme.IsDotted) {layout : Layout}
    (hlayout : scheme.layOut text = .ok layout) : scheme.HasMarkers text := by
  obtain ⟨rows, hrows, -⟩ := (layOut_eq_ok h.sections_ne_nil h.stop_ne_nil).mp hlayout
  exact hrows.marker_infix h.required h.last_stop

/-! ## Cleaning -/

variable {fresh : Uuid} {cleaned : Cleaned}

theorem clean_eq_ok (hclean : scheme.clean fresh text = .ok cleaned) :
    ∃ canonized, Canonizes fresh (scheme.withLead text) canonized ∧
      cleaned = ⟨scheme.tidy canonized.text, canonized.uuid⟩ := by
  rw [clean, cleanLed] at hclean
  split at hclean
  · cases hclean
  · obtain ⟨canonized, hcanon, heq⟩ := Except.bind_eq_ok.mp hclean
    exact ⟨canonized, canonUuid_eq_ok.mp hcanon, (Except.pure_eq_ok.mp heq).symm⟩

theorem clean_of_canonizes (hmarkers : scheme.HasMarkers text) (hcanon : Canonizes fresh text cleaned) :
    scheme.clean fresh text = .ok ⟨scheme.tidy cleaned.text, cleaned.uuid⟩ := by
  rw [clean, hmarkers.withLead_eq, cleanLed, hmarkers.missing_eq]
  show (canonUuid fresh text >>= fun cleaned => _) = _
  rw [canonUuid_eq_ok.mpr hcanon]
  rfl

theorem IsDotted.clean_eq_ok (h : scheme.IsDotted) (hclean : scheme.clean fresh text = .ok cleaned) :
    ∃ canonized, Canonizes fresh (scheme.withLead text) canonized ∧
      cleaned = ⟨Text.tidy '.' canonized.text, canonized.uuid⟩ := by
  obtain ⟨canonized, hcanon, rfl⟩ := Scheme.clean_eq_ok hclean
  exact ⟨canonized, hcanon, by rw [h.tidy_eq]⟩

theorem IsDotted.clean_of_canonizes (h : scheme.IsDotted) (hmarkers : scheme.HasMarkers text)
    (hcanon : Canonizes fresh text cleaned) :
    scheme.clean fresh text = .ok ⟨Text.tidy '.' cleaned.text, cleaned.uuid⟩ := by
  rw [Scheme.clean_of_canonizes hmarkers hcanon, h.tidy_eq]

/-- A dot at the end is taken off. -/
theorem IsDotted.clean_concat (h : scheme.IsDotted) (hmarkers : scheme.HasMarkers text)
    (hclean : scheme.clean fresh text = .ok cleaned) :
    scheme.clean fresh (text ++ ['.']) = .ok cleaned := by
  obtain ⟨canonized, hcanon, rfl⟩ := h.clean_eq_ok hclean
  rw [hmarkers.withLead_eq] at hcanon
  have hconcat := hcanon.concat (d := '.') (by decide)
  rw [h.clean_of_canonizes (hmarkers.append ['.']) hconcat, Text.tidy_concat]

/-- A text that cleaning leaves alone. -/
structure IsClean (scheme : Scheme) (text : List Char) (uuid : Option Uuid) : Prop where
  tidy : Text.IsTidy '.' text
  canonical : IsCanonical text uuid
  markers : scheme.HasMarkers text

theorem IsClean.clean_eq {uuid : Option Uuid} (h : scheme.IsClean text uuid) (hdotted : scheme.IsDotted)
    (fresh : Uuid) : scheme.clean fresh text = .ok ⟨text, uuid⟩ := by
  rw [hdotted.clean_of_canonizes h.markers (h.canonical.canonizes fresh), h.tidy.tidy_eq]

theorem IsClean.clean_concat {uuid : Option Uuid} (h : scheme.IsClean text uuid)
    (hdotted : scheme.IsDotted) (fresh : Uuid) :
    scheme.clean fresh (text ++ ['.']) = .ok ⟨text, uuid⟩ :=
  hdotted.clean_concat h.markers (h.clean_eq hdotted fresh)

end Scheme

namespace Sectioned

variable {scheme : Scheme} {fresh fresh' : Uuid} {text text' : List Char} {s t : Sectioned scheme}

theorem parse_eq_ok (h : parse scheme fresh text = .ok s) :
    ∃ uuid, scheme.clean fresh text = .ok ⟨s.text, uuid⟩ ∧ scheme.layOut s.text = .ok s.layout := by
  obtain ⟨cleaned, hclean, h⟩ := Except.bind_eq_ok.mp h
  obtain ⟨layout, hlayout, h⟩ := Except.bind_eq_ok.mp h
  obtain ⟨decoding, -, h⟩ := Except.bind_eq_ok.mp h
  obtain rfl := Except.pure_eq_ok.mp h
  exact ⟨cleaned.uuid, hclean, hlayout⟩

/-- Texts that are cleaned to the same are parsed to the same. -/
theorem parse_congr (h : scheme.clean fresh text = scheme.clean fresh' text') :
    parse scheme fresh text = parse scheme fresh' text' := by
  rw [parse, parse, h]

/-- What is parsed has a clean text. -/
theorem isClean_of_parse (hdotted : scheme.IsDotted) (hfresh : fresh.IsProper)
    (h : parse scheme fresh text = .ok s) :
    ∃ uuid, scheme.clean fresh text = .ok ⟨s.text, uuid⟩ ∧ scheme.IsClean s.text uuid := by
  obtain ⟨uuid, hclean, hlayout⟩ := parse_eq_ok h
  obtain ⟨canonized, hcanon, heq⟩ := hdotted.clean_eq_ok hclean
  obtain ⟨htext, rfl⟩ : s.text = Text.tidy '.' canonized.text ∧ uuid = canonized.uuid := by
    simpa using heq
  refine ⟨_, hclean, ?_, ?_, hdotted.hasMarkers hlayout⟩
  · rw [htext]
    exact Text.isTidy_tidy '.' canonized.text
  · rw [htext]
    exact (hcanon.isCanonical hfresh).tidy

/-- A parsed text reads as itself. -/
theorem parse_text_eq (hdotted : scheme.IsDotted) (hfresh : fresh.IsProper)
    (h : parse scheme fresh text = .ok s) (fresh' : Uuid) :
    parse scheme fresh' s.text = .ok s := by
  obtain ⟨uuid, hclean, hisClean⟩ := isClean_of_parse hdotted hfresh h
  rw [← h]
  exact parse_congr ((hisClean.clean_eq hdotted fresh').trans hclean.symm)

/-- A dot at the end makes no difference. -/
theorem parse_concat (hdotted : scheme.IsDotted) (hmarkers : scheme.HasMarkers text)
    (h : parse scheme fresh text = .ok s) : parse scheme fresh (text ++ ['.']) = .ok s := by
  obtain ⟨uuid, hclean, -⟩ := parse_eq_ok h
  rw [← h]
  exact parse_congr ((hdotted.clean_concat hmarkers hclean).trans hclean.symm)

theorem parse_text_concat (hdotted : scheme.IsDotted) (hfresh : fresh.IsProper)
    (h : parse scheme fresh text = .ok s) (fresh' : Uuid) :
    parse scheme fresh' (s.text ++ ['.']) = .ok s := by
  obtain ⟨-, -, hlayout⟩ := parse_eq_ok h
  exact parse_concat hdotted (hdotted.hasMarkers hlayout) (parse_text_eq hdotted hfresh h fresh')

end Sectioned

end KeyExpansion
