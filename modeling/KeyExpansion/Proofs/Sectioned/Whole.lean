-- SUMMARY: When a text without uuids and generation marks is its own structural identity.
import KeyExpansion.Proofs.Sectioned.Canon
import KeyExpansion.Proofs.Sectioned.Separators

/-! # Whole texts

The structural identity of a text is parsed from its words, with the marker of every section
that is not the last. A section that was left out has no marker in the text, so the identity
has one marker more. A text of which nothing is left out is rebuilt as it is. -/

namespace KeyExpansion

namespace Scheme

variable {sections : List Section} {text : List Char} {start : Nat} {layout : Layout}
  {entries : List (Section × List (List Char))}

/-! ## Sections with their words -/

/-- Sections with their words make up a text. Unlike `Writes` this does not say that they are
what is read from it, and it allows for markers without characters. -/
inductive Composes : List (Section × List (List Char)) → List Char → Prop where
  | last {sec : Section} {words : List (List Char)} :
      Composes [(sec, words)] (Text.join sec.separator words)
  | present {sec : Section} {words : List (List Char)} {next : Section × List (List Char)}
      {more : List (Section × List (List Char))} {rest : List Char} (hne : words ≠ [])
      (later : Composes (next :: more) rest) :
      Composes ((sec, words) :: next :: more)
        (Text.join sec.separator words ++ sec.stop.getD [] ++ rest)
  | absent {sec : Section} {marker : List Char} {next : Section × List (List Char)}
      {more : List (Section × List (List Char))} {text : List Char} (stop : sec.stop = some marker)
      (optional : sec.required = false) (later : Composes (next :: more) text) :
      Composes ((sec, []) :: next :: more) text

theorem length_of_layOutFrom (hstart : start ≤ text.length)
    (h : layOutFrom text start sections = .ok layout) : layout.length = sections.length := by
  induction sections generalizing start layout with
  | nil =>
    obtain rfl := Except.ok.inj h
    rfl
  | cons sec sections ih =>
    cases sections with
    | nil =>
      obtain rfl := Except.ok.inj h
      rfl
    | cons next more =>
      obtain ⟨words, parts, start', rfl, -, hstart', hparts, -⟩ := layOutFrom_cons_eq_ok hstart h
      rw [List.length_cons, List.length_cons, ih hstart' hparts]

/-- What is laid out makes up the text. -/
theorem composes_of_layOutFrom (hne : sections ≠ []) (hstart : start ≤ text.length)
    (h : layOutFrom text start sections = .ok layout) :
    Composes (sections.zip (layout.rows text)) (text.drop start) := by
  induction sections generalizing start layout with
  | nil => exact absurd rfl hne
  | cons sec sections ih =>
    cases sections with
    | nil =>
      have hsplit := Text.splits_splitOn sec.separator (text.drop start)
      rw [layOutFrom, ofBounds_eq_last hstart hsplit] at h
      obtain rfl := Except.ok.inj h
      rw [Layout.rows, List.map_singleton, at_words hsplit.join_prefix, List.zip_cons_cons]
      nth_rewrite 2 [← hsplit.join_eq]
      exact .last
    | cons next more =>
      obtain ⟨words, parts, start', rfl, hjoin, hstart', hparts, hstep⟩ := layOutFrom_cons_eq_ok hstart h
      have hlater := ih (List.cons_ne_nil next more) hstart' hparts
      obtain ⟨part, parts, rfl⟩ :=
        List.exists_cons_of_length_eq_add_one (length_of_layOutFrom hstart' hparts)
      rw [Layout.rows, List.map_cons, at_words hjoin, List.zip_cons_cons]
      rcases hstep with ⟨hwords, htext⟩ | ⟨rfl, rfl, optional, marker, stop⟩
      · rw [htext]
        exact .present hwords hlater
      · exact .absent stop optional hlater

/-! ## What is added -/

/-- The markers of the sections without words that are not the last. -/
def leftOut : List (Section × List (List Char)) → List (List Char)
  | (sec, words) :: next :: more =>
    (if words.isEmpty then [sec.stop.getD []] else []) ++ leftOut (next :: more)
  | _ => []

theorem gather_cons_cons (sec : Section) (words : List (List Char)) (next : Section × List (List Char))
    (more : List (Section × List (List Char))) :
    gather ((sec, words) :: next :: more)
      = Text.join sec.separator words ++ sec.stop.getD [] ++ gather (next :: more) := rfl

namespace Composes

/-- Gathering the words of sections adds the markers of those that are left out. -/
theorem gather_perm (h : Composes entries text) :
    (gather entries).Perm ((leftOut entries).flatten ++ text) := by
  induction h with
  | last => rfl
  | @present sec words next more rest hne later ih =>
    rw [gather_cons_cons, leftOut, if_neg (by simpa using hne), List.nil_append]
    exact (ih.append_left _).trans (List.perm_append_comm_assoc _ _ _)
  | @absent sec marker next more text stop optional later ih =>
    rw [gather_cons_cons, leftOut, stop]
    simpa [Text.join] using ih.append_left marker

/-- If none is left out, the text is as it was. -/
theorem gather_eq (h : Composes entries text) (hnone : leftOut entries = []) :
    gather entries = text := by
  induction h with
  | last => rfl
  | present hne later ih =>
    rw [leftOut, if_neg (by simpa using hne), List.nil_append] at hnone
    rw [gather_cons_cons, ih hnone]
  | absent stop optional later ih => simp [leftOut] at hnone

/-- Only sections that are not required are left out. -/
theorem exists_of_mem_leftOut (h : Composes entries text) {marker : List Char}
    (hmarker : marker ∈ leftOut entries) :
    ∃ sec ∈ (entries.map Prod.fst).dropLast, sec.required = false ∧ sec.stop = some marker := by
  induction h with
  | last => cases hmarker
  | @present sec words next more rest hne later ih =>
    rw [leftOut, if_neg (by simpa using hne), List.nil_append] at hmarker
    obtain ⟨sec', hsec, hoptional⟩ := ih hmarker
    exact ⟨sec', List.mem_cons_of_mem _ hsec, hoptional⟩
  | @absent sec own next more text stop optional later ih =>
    rw [leftOut, stop] at hmarker
    rcases List.mem_append.mp hmarker with hown | hmarker
    · obtain rfl : marker = own := by simpa using hown
      exact ⟨sec, List.mem_cons_self, optional, stop⟩
    · obtain ⟨sec', hsec, hoptional⟩ := ih hmarker
      exact ⟨sec', List.mem_cons_of_mem _ hsec, hoptional⟩

end Composes

/-- Every marker but that of the last section is written when words are gathered. -/
theorem stop_infix_gather (entries : List (Section × List (List Char))) :
    ∀ sec ∈ (entries.map Prod.fst).dropLast, sec.stop.getD [] <:+: gather entries := by
  induction entries with
  | nil => simp
  | cons entry entries ih =>
    cases entries with
    | nil => simp
    | cons next more =>
      obtain ⟨sec, words⟩ := entry
      intro other hother
      rw [gather_cons_cons]
      rcases List.mem_cons.mp hother with rfl | hother
      · exact ⟨_, _, rfl⟩
      · exact (ih other hother).trans (List.suffix_append _ _).isInfix

theorem leftOut_eq_nil_iff (entries : List (Section × List (List Char))) :
    leftOut entries = [] ↔ ∀ words ∈ (entries.map Prod.snd).dropLast, words ≠ [] := by
  induction entries with
  | nil => simp [leftOut]
  | cons entry entries ih =>
    cases entries with
    | nil => simp [leftOut]
    | cons next more =>
      obtain ⟨sec, words⟩ := entry
      rw [leftOut, List.map_cons, List.map_cons, List.dropLast_cons_cons, ← List.map_cons,
        List.forall_mem_cons, ← ih, List.append_eq_nil_iff]
      simp

/-- The marker of each section that may be left out has a character that stands neither in
a separator nor in a token. -/
def HasOwnMarkers (scheme : Scheme) : Prop :=
  ∀ sec ∈ scheme.sections.dropLast, sec.required = false →
    ∀ marker, sec.stop = some marker → ∃ c ∈ marker, scheme.isOwn c = true

theorem clean_nil {scheme : Scheme} (h : scheme.sections = []) (fresh : Uuid) :
    scheme.clean fresh [] = .ok ⟨[], none⟩ := by
  have hlead : scheme.withLead [] = [] := by
    rw [withLead, h]
    cases scheme.lead <;> rfl
  have htidy : scheme.tidy [] = [] := by
    rw [tidy, separators, lastSeparator, h]
    rfl
  have hmissing : scheme.missing? [] = none := by
    rw [missing?, h]
    rfl
  rw [clean, hlead, cleanLed, hmissing]
  show Except.ok (Cleaned.mk (scheme.tidy []) none) = _
  rw [htidy]

end Scheme

namespace Sectioned

variable {scheme : Scheme} {fresh fresh' : Uuid} {text : List Char} {s : Sectioned scheme}

/-! ## What is left without instances -/

theorem length_of_decodeWords {sec : Section} {count index : Nat} {words : List Text.Span}
    {carried carried' : Carried} {meanings : List Meaning}
    (h : decodeWords sec text count index words carried = .ok (meanings, carried')) :
    meanings.length = words.length := by
  induction words generalizing index carried meanings carried' with
  | nil =>
    obtain ⟨rfl, -⟩ := Prod.mk.inj (Except.ok.inj h)
    rfl
  | cons word words ih =>
    obtain ⟨⟨meaning, next⟩, -, h⟩ := Except.bind_eq_ok.mp h
    obtain ⟨⟨later, last⟩, hlater, h⟩ := Except.bind_eq_ok.mp h
    obtain ⟨rfl, -⟩ := Prod.mk.inj (Except.pure_eq_ok.mp h)
    rw [List.length_cons, List.length_cons, ih hlater]

theorem lastingWords_of_plain {part : Part} {meanings : List Meaning}
    (hlength : meanings.length = part.words.length) (hplain : ∀ m ∈ meanings, m.isInstance = false) :
    s.lastingWords part meanings = s.wordsOf part := by
  have hwords : (s.wordsOf part).length = meanings.length := by
    rw [wordsOf, List.length_map, hlength]
  rw [lastingWords]
  generalize s.wordsOf part = words at hwords
  have hkept : ∀ entry ∈ words.zip meanings,
      (if entry.2.isInstance then none else some entry.1) = (some ∘ Prod.fst) entry := by
    intro entry hentry
    rw [hplain entry.2 (List.of_mem_zip hentry).2]
    rfl
  rw [List.filterMap_congr hkept, List.filterMap_eq_map, List.map_fst_zip hwords.le]

/-- Each word has a meaning, and if none is that of an instance all words are left. -/
theorem lastingWords_of_decodeParts {parts : List (Section × Part)} {carried carried' : Carried}
    {meanings : List (List Meaning)} (h : decodeParts text parts carried = .ok (meanings, carried'))
    (hplain : ∀ m ∈ meanings.flatten, m.isInstance = false) :
    List.Forall₂ (fun entry ms => s.lastingWords entry.2 ms = s.wordsOf entry.2) parts meanings := by
  induction parts generalizing carried meanings carried' with
  | nil =>
    obtain ⟨rfl, -⟩ := Prod.mk.inj (Except.ok.inj h)
    exact .nil
  | cons entry parts ih =>
    obtain ⟨⟨first, next⟩, hfirst, h⟩ := Except.bind_eq_ok.mp h
    obtain ⟨⟨later, last⟩, hlater, h⟩ := Except.bind_eq_ok.mp h
    obtain ⟨rfl, -⟩ := Prod.mk.inj (Except.pure_eq_ok.mp h)
    rw [List.flatten_cons, List.forall_mem_append] at hplain
    exact .cons (lastingWords_of_plain (length_of_decodeWords hfirst) hplain.1) (ih hlater hplain.2)

theorem exists_decodeParts_of_parse (h : parse scheme fresh text = .ok s) :
    ∃ carried carried', decodeParts s.text (scheme.sections.zip s.layout) carried
      = .ok (s.meanings, carried') := by
  obtain ⟨cleaned, -, h⟩ := Except.bind_eq_ok.mp h
  obtain ⟨layout, -, h⟩ := Except.bind_eq_ok.mp h
  obtain ⟨decoding, hdecoding, h⟩ := Except.bind_eq_ok.mp h
  obtain ⟨⟨meanings, carried⟩, hparts, hdecoding⟩ := Except.bind_eq_ok.mp hdecoding
  obtain rfl := Except.pure_eq_ok.mp hdecoding
  obtain rfl := Except.pure_eq_ok.mp h
  exact ⟨_, carried, hparts⟩

section Plain

variable (h : parse scheme fresh text = .ok s)
include h

theorem canon_eq_parse_gather (hplain : ∀ m ∈ s.meanings.flatten, m.isInstance = false)
    (fresh' : Uuid) :
    s.canon fresh'
      = parse scheme fresh' (Scheme.gather (scheme.sections.zip (s.layout.rows s.text))) := by
  obtain ⟨carried, carried', hparts⟩ := exists_decodeParts_of_parse h
  have hlasting := lastingText_eq_gather (fun _ part => s.wordsOf part)
    (lastingWords_of_decodeParts hparts hplain)
  rw [canon, zip_zip_eq, hlasting, Layout.rows, List.zip_map_right]
  rfl

theorem layout_length_eq : s.layout.length = scheme.sections.length := by
  obtain ⟨-, -, hlayout⟩ := parse_eq_ok h
  exact Scheme.length_of_layOutFrom (Nat.zero_le _) hlayout

theorem composes (hne : scheme.sections ≠ []) :
    Scheme.Composes (scheme.sections.zip (s.layout.rows s.text)) s.text := by
  obtain ⟨-, -, hlayout⟩ := parse_eq_ok h
  exact Scheme.composes_of_layOutFrom hne (Nat.zero_le _) hlayout

end Plain

/-- Every section but the last has words, and without sections there is no text. -/
structure IsWhole (s : Sectioned scheme) : Prop where
  words_ne_nil : ∀ part ∈ s.layout.dropLast, part.words ≠ []
  text_eq_nil : scheme.sections = [] → s.text = []

theorem leftOut_eq_nil_iff (h : parse scheme fresh text = .ok s) :
    Scheme.leftOut (scheme.sections.zip (s.layout.rows s.text)) = []
      ↔ ∀ part ∈ s.layout.dropLast, part.words ≠ [] := by
  have hlength : (s.layout.rows s.text).length = scheme.sections.length := by
    rw [Layout.rows, List.length_map, layout_length_eq h]
  rw [Scheme.leftOut_eq_nil_iff, List.map_snd_zip hlength.le, Layout.rows, ← List.map_dropLast,
    List.forall_mem_map]
  simp

/-- A whole text is what gathering its words gives. -/
theorem IsWhole.gather_eq (hwhole : s.IsWhole) (h : parse scheme fresh text = .ok s) :
    Scheme.gather (scheme.sections.zip (s.layout.rows s.text)) = s.text := by
  by_cases hne : scheme.sections = []
  · rw [hwhole.text_eq_nil hne, hne]
    rfl
  · exact (composes h hne).gather_eq ((leftOut_eq_nil_iff h).mpr hwhole.words_ne_nil)

theorem map_fst_zip_rows (h : parse scheme fresh text = .ok s) :
    (scheme.sections.zip (s.layout.rows s.text)).map Prod.fst = scheme.sections := by
  refine List.map_fst_zip ?_
  rw [Layout.rows, List.length_map, layout_length_eq h]

/-- A whole text has all its markers, if the last section has none. -/
theorem IsWhole.hasMarkers (hwhole : s.IsWhole) (h : parse scheme fresh text = .ok s)
    (hlast : ∀ sec ∈ scheme.sections.getLast?, sec.stop = none) : scheme.HasMarkers s.text := by
  intro sec hsec marker hstop
  have hinner : sec ∈ scheme.sections.dropLast := by
    have hne := List.ne_nil_of_mem hsec
    rw [← List.dropLast_concat_getLast hne] at hsec
    rcases List.mem_append.mp hsec with hinner | hend
    · exact hinner
    · rw [List.mem_singleton.mp hend, hlast _ (List.getLast?_eq_some_getLast hne)] at hstop
      cases hstop
  have hinfix := Scheme.stop_infix_gather (scheme.sections.zip (s.layout.rows s.text)) sec
    (by rwa [map_fst_zip_rows h])
  rwa [hstop, hwhole.gather_eq h] at hinfix

/-- What is left out has no words, and may be left out. -/
theorem isWhole_of_leftOut (h : parse scheme fresh text = .ok s) (hne : scheme.sections ≠ [])
    (hnone : Scheme.leftOut (scheme.sections.zip (s.layout.rows s.text)) = []) : s.IsWhole :=
  ⟨(leftOut_eq_nil_iff h).mp hnone, fun hnil => absurd hnil hne⟩

/-- The markers that gathering adds are not cleaned away. -/
theorem leftOut_eq_nil_of_clean {uuid : Option Uuid} (h : parse scheme fresh text = .ok s)
    (hne : scheme.sections ≠ []) (hown : scheme.HasOwnMarkers) (hfresh' : fresh'.IsProper)
    (hclean : scheme.clean fresh' (Scheme.gather (scheme.sections.zip (s.layout.rows s.text)))
      = .ok ⟨s.text, uuid⟩) :
    Scheme.leftOut (scheme.sections.zip (s.layout.rows s.text)) = [] := by
  have hcomposes := composes h hne
  have hle := Scheme.countP_le_of_clean hfresh' hclean
  rw [hcomposes.gather_perm.countP_eq, List.countP_append] at hle
  refine List.eq_nil_iff_forall_not_mem.mpr fun marker hmarker => ?_
  obtain ⟨sec, hsec, hoptional, hstop⟩ := hcomposes.exists_of_mem_leftOut hmarker
  rw [map_fst_zip_rows h] at hsec
  obtain ⟨c, hc, hkept⟩ := hown sec hsec hoptional marker hstop
  have hpos := List.countP_pos_iff.mpr ⟨c, List.mem_flatten.mpr ⟨marker, hmarker, hc⟩, hkept⟩
  exact absurd hle (by dsimp only; omega)

theorem isWhole_of_clean {uuid : Option Uuid} (h : parse scheme fresh text = .ok s)
    (hown : scheme.HasOwnMarkers) (hfresh' : fresh'.IsProper)
    (hclean : scheme.clean fresh' (Scheme.gather (scheme.sections.zip (s.layout.rows s.text)))
      = .ok ⟨s.text, uuid⟩) : s.IsWhole := by
  by_cases hne : scheme.sections = []
  · have hgather : Scheme.gather (scheme.sections.zip (s.layout.rows s.text)) = [] := by
      rw [hne]
      rfl
    rw [hgather, Scheme.clean_nil hne] at hclean
    have hlayout : s.layout = [] :=
      List.length_eq_zero_iff.mp (by rw [layout_length_eq h, hne, List.length_nil])
    refine ⟨by simp [hlayout], fun _ => ?_⟩
    exact (congrArg Cleaned.text (Except.ok.inj hclean)).symm
  · exact isWhole_of_leftOut h hne (leftOut_eq_nil_of_clean h hne hown hfresh' hclean)

/-- Without uuids and generation marks the structural identity of a text is what its gathered
words are parsed to. A whole text is gathered as it is, and with plain separators it is its
own structural identity. A text of which a section with a marker of its own is left out is
not. -/
theorem canon_keeps_whole (h : parse scheme fresh text = .ok s)
    (hplain : ∀ m ∈ s.meanings.flatten, m.isInstance = false) :
    (s.IsWhole → ∀ fresh', s.canon fresh' = parse scheme fresh' s.text) ∧
    (s.IsWhole → scheme.IsPlain → fresh.IsProper → ∀ fresh', s.canon fresh' = .ok s) ∧
    (scheme.HasOwnMarkers → ∀ fresh', fresh'.IsProper → s.canon fresh' = .ok s → s.IsWhole) ∧
    (scheme.sections ≠ [] → (∀ sec ∈ scheme.sections.dropLast, sec.required = true) →
      s.IsWhole) := by
  have hcanon := canon_eq_parse_gather h hplain
  refine ⟨?_, ?_, ?_, ?_⟩
  · intro hwhole fresh'
    rw [hcanon, hwhole.gather_eq h]
  · intro hwhole hseps hfresh fresh'
    rw [hcanon, hwhole.gather_eq h]
    exact parse_text_of_hasMarkers hseps hfresh h (hwhole.hasMarkers h hseps.last_stop) fresh'
  · intro hown fresh' hfresh' hsame
    rw [hcanon] at hsame
    obtain ⟨uuid, hclean, -⟩ := parse_eq_ok hsame
    exact isWhole_of_clean h hown hfresh' hclean
  · intro hne hrequired
    refine isWhole_of_leftOut h hne (List.eq_nil_iff_forall_not_mem.mpr fun marker hmarker => ?_)
    obtain ⟨sec, hsec, hoptional, -⟩ := (composes h hne).exists_of_mem_leftOut hmarker
    rw [map_fst_zip_rows h] at hsec
    rw [hrequired sec hsec] at hoptional
    cases hoptional

/-- The scheme `head::note#body`, where the note may be left out. -/
def noted : Scheme where
  sections := [
    { name := "head", separator := ['.'], stop := some "::".toList },
    { name := "note", separator := ['.'], stop := some ['#'], required := false },
    { name := "body", separator := ['.'] }]

/-- With its note the text is kept, without it it is not. -/
theorem canon_keeps_note :
    (∃ s : Sectioned noted, parse noted (Uuid.ofSeed 1) "a.b::n#c".toList = .ok s ∧
      (∀ m ∈ s.meanings.flatten, m.isInstance = false) ∧ s.IsWhole ∧
      s.canon (Uuid.ofSeed 2) = .ok s) ∧
    (∃ s : Sectioned noted, parse noted (Uuid.ofSeed 1) "a.b::c".toList = .ok s ∧
      (∀ m ∈ s.meanings.flatten, m.isInstance = false) ∧ ¬ s.IsWhole ∧
      s.canon (Uuid.ofSeed 2) ≠ .ok s) := by
  have hseps : noted.IsPlain := by
    refine ⟨?_, ?_⟩
    · have hall : ∀ sec ∈ noted.sections, sec.separator = ['.'] := by decide
      exact fun sec hsec => .inr ⟨'.', hall sec hsec, by decide⟩
    · decide
  have hown : noted.HasOwnMarkers := by
    have hall : ∀ sec ∈ noted.sections.dropLast, sec.required = false → sec.stop = some ['#'] := by
      decide
    intro sec hsec hoptional marker hstop
    obtain rfl := Option.some.inj ((hall sec hsec hoptional).symm.trans hstop)
    exact ⟨'#', by decide, by decide⟩
  have hwith : parse noted (Uuid.ofSeed 1) "a.b::n#c".toList = .ok _ := rfl
  have hwithout : parse noted (Uuid.ofSeed 1) "a.b::c".toList = .ok _ := rfl
  refine ⟨⟨_, hwith, by decide, ⟨by decide, by decide⟩, ?_⟩, ⟨_, hwithout, by decide, ?_, ?_⟩⟩
  · have hkept := (canon_keeps_whole hwith (by decide)).2.1
    exact hkept ⟨by decide, by decide⟩ hseps (Uuid.isProper_ofSeed 1) _
  · exact fun hwhole => absurd hwhole.words_ne_nil (by decide)
  · intro hsame
    have hlost := (canon_keeps_whole hwithout (by decide)).2.2.1
    exact absurd (hlost hown _ (Uuid.isProper_ofSeed 2) hsame).words_ne_nil (by decide)

/-- The scheme `top|mid#low`, where the middle may be left out. -/
def triple : Scheme where
  sections := [
    { name := "top", separator := ['/'], stop := some ['|'] },
    { name := "mid", separator := ['-'], stop := some ['#'], required := false, uuids := false
      marks := false },
    { name := "low", separator := ['-', '-'] }]

/-- The marker of the middle is written although there is no middle. -/
theorem canon_writes_missing_marker :
    ∃ s c : Sectioned triple, parse triple (Uuid.ofSeed 1) "a|b".toList = .ok s ∧
      (∀ m ∈ s.meanings.flatten, m.isInstance = false) ∧ s.canon (Uuid.ofSeed 2) = .ok c ∧
      s.text = "a|b".toList ∧ c.text = "a|#b".toList ∧ s.canon (Uuid.ofSeed 2) ≠ .ok s := by
  refine ⟨_, _, rfl, by decide, rfl, rfl, rfl, ?_⟩
  exact fun hsame => absurd (congrArg text (Except.ok.inj hsame)) (by decide)

end Sectioned

end KeyExpansion
