-- SUMMARY: Words joined to a text are new words of its last section, and nothing else changes.
import KeyExpansion.Proofs.Sectioned.Pop

/-! # Joining words

Words are joined to the text as it was cleaned, and the result is cleaned and laid out again. The
markers of the sections before the last one are found first, so colons in the words move nothing.
Neither a run of dots nor one at the end comes with words that have none, and no token with words
that cannot end one. So the text is laid out as it is, with the words behind those of its last
section, and its uuid is the one it had. -/

namespace KeyExpansion.Sectioned

variable {scheme : Scheme} {fresh : Uuid} {text front body : List Char} {words old : List (List Char)}
  {parts : List Part} {base s : Sectioned scheme}

/-- The text is the base with these words behind those of its last section. An empty last section
has no words of its own. -/
structure IsJoined (words : List (List Char)) (base s : Sectioned scheme) : Prop where
  sectionCount_eq : s.sectionCount = base.sectionCount
  early_eq : ∀ n, n + 1 < base.sectionCount →
    s.sectionText? (.position n) = base.sectionText? (.position n)
  words_eq : ∃ old, base.words? base.lastSection = some old ∧
    (base.sectionText? base.lastSection = some [] → s.words? s.lastSection = some words) ∧
    (base.sectionText? base.lastSection ≠ some [] → s.words? s.lastSection = some (old ++ words))
  uuid_eq : s.uuid = base.uuid

/-- The words that a section with this text keeps when others are joined to it. -/
def ownWords (body : List Char) (old : List (List Char)) : List (List Char) :=
  if body = [] then [] else old

theorem Carries.uuid_eq (h : s.Carries parts front words) (hdotted : scheme.IsDotted)
    {uuid : Option Uuid} (hclean : scheme.IsClean s.text uuid) : s.uuid = uuid := by
  have hfresh := Uuid.isProper_ofSeed 0
  obtain ⟨hcleaned, -⟩ := clean_eq_of_parse hdotted hfresh (h.parse_eq (Uuid.ofSeed 0))
  rw [hclean.clean_eq hdotted] at hcleaned
  exact (congrArg Cleaned.uuid (Except.ok.inj hcleaned)).symm

/-- Whether the last section is empty is seen from its stretch. -/
theorem EndsWith.vacant_eq (h : s.EndsWith parts front body words) :
    ((s.layout.getLast?).map (·.bounds.isEmpty)).getD true = body.isEmpty := by
  obtain ⟨sec, hsep, hlayout⟩ := h.layout_eq
  rw [hlayout, List.getLast?_concat, Option.map_some, Option.getD_some, Part.at, hsep,
    h.split.join_eq]
  cases body <;> simp [Text.Span.isEmpty]

theorem dot_not_mem_ownWords (hsplit : Text.Splits ['.'] body old) :
    ∀ word ∈ ownWords body old, '.' ∉ word := by
  intro word hword
  rw [ownWords] at hword
  split at hword
  · cases hword
  · exact hsplit.not_mem word hword

theorem join_ownWords (hsplit : Text.Splits ['.'] body old) (hne : words ≠ []) :
    Text.join ['.'] (ownWords body old ++ words) =
      body ++ (if body = [] then [] else ['.']) ++ Text.join ['.'] words := by
  rw [ownWords]
  split
  · next hbody => simp [hbody]
  · rw [Text.join_append old hne, Text.flatMap_append_sep hsplit.ne_nil, hsplit.join_eq]

/-- Words are joined to those that the last section has, if there are any. -/
theorem withWords_eq (hdotted : scheme.IsDotted) (hbase : parse scheme fresh text = .ok base)
    (h : base.EndsWith parts front body old) (hne : words ≠ []) :
    withWords scheme fresh text words =
      parse scheme fresh (front ++ Text.join ['.'] (ownWords body old ++ words)) := by
  have hwords : words.isEmpty = false := by simpa using hne
  have hsections : scheme.sections.isEmpty = false := by simpa using hdotted.sections_ne_nil
  rw [withWords, hbase, join_ownWords h.split hne]
  simp only [bind, Except.bind, hwords, hsections, Bool.or_self, Bool.false_eq_true, if_false,
    h.vacant_eq, hdotted.lastSeparator_eq, List.isEmpty_iff, h.text_eq, List.append_assoc]

/-- Joined words bring no dots but those between them. -/
theorem isTidy_join_ownWords (htidy : Text.IsTidy '.' (front ++ body))
    (hsplit : Text.Splits ['.'] body old) (hne : words ≠ [])
    (hwords : ∀ word ∈ words, word ≠ [] ∧ '.' ∉ word) :
    Text.IsTidy '.' (front ++ Text.join ['.'] (ownWords body old ++ words)) := by
  rw [join_ownWords hsplit hne]
  split
  · next hbody =>
    rw [hbody, List.append_nil, List.nil_append]
    rw [hbody, List.append_nil] at htidy
    exact htidy.append_join hwords
  · rw [← List.append_assoc, ← List.append_assoc, ← Text.join_cons hne]
    exact htidy.join hwords

/-- What follows the text of a section has nothing that ends a token. -/
theorem isCanonical_join_ownWords {uuid : Option Uuid} (hcanonical : IsCanonical (front ++ body) uuid)
    (hsplit : Text.Splits ['.'] body old) (hne : words ≠ []) (hwords : ∀ word ∈ words, '>' ∉ word) :
    IsCanonical (front ++ Text.join ['.'] (ownWords body old ++ words)) uuid := by
  rw [join_ownWords hsplit hne, List.append_assoc, ← List.append_assoc]
  apply hcanonical.append
  intro hmem
  rcases List.mem_append.mp hmem with hmem | hmem
  · split at hmem
    · cases hmem
    · exact absurd (List.mem_singleton.mp hmem) (by decide)
  · rcases Text.mem_join hmem with hmem | ⟨word, hword, hmem⟩
    · exact absurd (List.mem_singleton.mp hmem) (by decide)
    · exact hwords word hword hmem

theorem isJoined_of_endsWith {body' : List Char} (hbase : base.EndsWith parts front body old)
    (hs : s.EndsWith parts front body' (ownWords body old ++ words)) (huuid : s.uuid = base.uuid) :
    IsJoined words base s := by
  refine ⟨by rw [hbase.sectionCount_eq, hs.sectionCount_eq], ?_, ⟨old, hbase.words?_last, ?_, ?_⟩, huuid⟩
  · intro n hn
    rw [hbase.sectionCount_eq] at hn
    have hearly : n < parts.length := by omega
    rw [hbase.sectionText?_early hearly, hs.sectionText?_early hearly]
  · intro hempty
    rw [hbase.sectionText?_last] at hempty
    rw [hs.words?_last, ownWords, if_pos (Option.some.inj hempty), List.nil_append]
  · intro hnonempty
    rw [hbase.sectionText?_last] at hnonempty
    have hbody : body ≠ [] := by
      rintro rfl
      exact hnonempty rfl
    rw [hs.words?_last, ownWords, if_neg hbody]

/-- No bare `<uuid>` comes with a first section that was left out. -/
theorem not_bare_withLead (hscheme : scheme = .basic ∨ scheme = .codeRef)
    (h : ¬ "<uuid>".toList <:+: text) : ¬ "<uuid>".toList <:+: scheme.withLead text := by
  rcases hscheme with rfl | rfl
  · exact h
  · have hled : Scheme.codeRef.withLead text =
        if Text.contains "::".toList text then text else "fn::".toList ++ text := rfl
    rw [hled]
    split
    · exact h
    · intro hin
      exact h (by simpa [List.infix_cons_iff, List.cons_prefix_cons] using hin)

/-- A text without a bare `<uuid>` is parsed alike, whatever uuid that would stand for. -/
theorem parse_of_no_bare (hscheme : scheme = .basic ∨ scheme = .codeRef)
    (h : ¬ "<uuid>".toList <:+: text) (fresh other : Uuid) :
    parse scheme fresh text = parse scheme other text := by
  apply parse_congr
  rw [Scheme.clean, Scheme.clean, Scheme.cleanLed, Scheme.cleanLed,
    canonUuid_of_no_bare (not_bare_withLead hscheme h) fresh other]

/-- Words that are not empty and have no dot and no `>` can be joined to every text, and they
are new words of its last section. Joining parses the text first: the base is what that gives, with
the same fresh uuid for `<uuid>`. By `parse_of_no_bare` it plays no part for other texts. -/
theorem withWords_isJoined (hscheme : scheme = .basic ∨ scheme = .codeRef) (hfresh : fresh.IsProper)
    (hbase : parse scheme fresh text = .ok base) (hne : words ≠ [])
    (hwords : ∀ word ∈ words, word ≠ [] ∧ '.' ∉ word ∧ '>' ∉ word) :
    ∃ s, withWords scheme fresh text words = .ok s ∧ IsJoined words base s := by
  have hdotted := Scheme.isDotted_of_declared hscheme
  have hplain : ∀ word ∈ words, word ≠ [] ∧ '.' ∉ word :=
    fun word hword => ⟨(hwords word hword).1, (hwords word hword).2.1⟩
  obtain ⟨parts, front, old, hleads, hx⟩ := exists_carries hdotted hfresh hbase
  obtain ⟨uuid, hclean⟩ := hx.isClean
  have hends := hx.endsWith
  have htidy := hclean.tidy
  have hcanonical := hclean.canonical
  rw [hends.text_eq] at htidy hcanonical
  generalize Text.join ['.'] old = body at hends htidy hcanonical
  have hdots : ∀ word ∈ ownWords body old ++ words, '.' ∉ word :=
    List.forall_mem_append.mpr ⟨dot_not_mem_ownWords hends.split, fun word hword => (hplain word hword).2⟩
  have htidyJoined := isTidy_join_ownWords htidy hends.split hne hplain
  have hcanonicalJoined :=
    isCanonical_join_ownWords hcanonical hends.split hne fun word hword => (hwords word hword).2.2
  obtain ⟨s, hs, hcleanJoined⟩ := hleads.exists_parse hdotted
    (List.append_ne_nil_of_right_ne_nil _ hne) hdots htidyJoined hcanonicalJoined
  -- Both texts are canonical for the same uuid.
  have huuid : s.uuid = base.uuid := by
    rw [hs.uuid_eq hdotted (hs.endsWith.text_eq ▸ hcleanJoined), hx.uuid_eq hdotted hclean]
  refine ⟨s, ?_, isJoined_of_endsWith hends hs.endsWith huuid⟩
  rw [withWords_eq hdotted hbase hends hne, ← hs.endsWith.text_eq, hs.parse_eq]

/-- Colons and the opening of a token in words that are joined to an empty section. -/
theorem withWords_isJoined_colons :
    ∃ base s : Sectioned .codeRef,
      parse .codeRef (Uuid.ofSeed 1) "g.<uuid>::m:".toList = .ok base ∧
      withWords .codeRef (Uuid.ofSeed 1) "g.<uuid>::m:".toList
        [":x".toList, "::".toList, "<uuid:".toList] = .ok s ∧
      s.text = "g.<uuid:00000000-0000-4000-8000-000000000001>::m::x.::.<uuid:".toList ∧
      IsJoined [":x".toList, "::".toList, "<uuid:".toList] base s := by
  have hparse : parse .codeRef (Uuid.ofSeed 1) "g.<uuid>::m:".toList = .ok _ := rfl
  obtain ⟨s, hs, hjoined⟩ := withWords_isJoined (.inr rfl) (Uuid.isProper_ofSeed 1) hparse
    (List.cons_ne_nil ":x".toList ["::".toList, "<uuid:".toList]) (by decide)
  have hjoin : withWords .codeRef (Uuid.ofSeed 1) "g.<uuid>::m:".toList
      [":x".toList, "::".toList, "<uuid:".toList] = .ok _ := rfl
  obtain rfl := Except.ok.inj (hjoin.symm.trans hs)
  exact ⟨_, _, hparse, hjoin, rfl, hjoined⟩

end KeyExpansion.Sectioned
