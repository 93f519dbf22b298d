-- SUMMARY: Which basic texts are accepted, and which error the others get.
import KeyExpansion.Proofs.Sectioned.Decoding
import KeyExpansion.Proofs.Text.Words

/-! # Acceptance

A basic text is accepted if it has the marker between its sections and at most one uuid
token, which can be read. These conditions are checked on the text as it is given. They
are enough for all that comes later, since writing the uuid and tidying neither take the
marker away nor make another token, so a text that was cleaned is laid out and decoded. -/

namespace KeyExpansion

/-- The text has one token, whose value cannot be read. -/
def IsUnreadable (values : List (Option (List Char))) (written : List Char) : Prop :=
  values = [some written] ∧ Uuid.read? written = none

/-- At most one word is a uuid, and that of the text. The text has one if it had a token. -/
structure Sectioned.HasUuidOf (s : Sectioned .basic) (values : List (Option (List Char))) : Prop where
  words : (s.meanings.flatten.filterMap Meaning.uuid?).Sublist s.uuid.toList
  text : s.uuid ≠ none ↔ values ≠ []

open Sectioned in
/-- What comes of parsing a basic text, by the tokens found in it. -/
structure Judged (fresh : Uuid) (text : List Char) (values : List (Option (List Char))) : Prop where
  unmarked : parse .basic fresh text = .error (.missingSection (String.ofList text) "head" "::") ↔
    ¬ "::".toList <:+: text
  crowded : "::".toList <:+: text →
    (parse .basic fresh text = .error (.tooManyUuids (String.ofList text)) ↔ 2 ≤ values.length)
  unreadable : "::".toList <:+: text → values.length < 2 → ∀ written,
    (parse .basic fresh text = .error (.badUuid (String.ofList text) (String.ofList written)) ↔
      IsUnreadable values written)
  accepted : "::".toList <:+: text → values.length < 2 → (∀ written, ¬ IsUnreadable values written) →
    ∃ s, parse .basic fresh text = .ok s ∧ s.HasUuidOf values
  /-- Once a text is cleaned nothing fails. -/
  decoded : ∀ cleaned, Scheme.basic.clean fresh text = .ok cleaned →
    ∃ layout decoding, Scheme.basic.layOut cleaned.text = .ok layout ∧
      Scheme.basic.decode cleaned.text layout cleaned.uuid = .ok decoding

variable {fresh : Uuid} {text : List Char} {cleaned : Cleaned}
  {values : List (Option (List Char))}

/-! ## What was cleaned is laid out and decoded -/

namespace Scheme

theorem exists_layOut_basic (h : "::".toList <:+: text) :
    ∃ layout, basic.layOut text = .ok layout := by
  have hcut : Text.cut? "::".toList text ≠ none := fun hnone => Text.cut?_eq_none.mp hnone h
  obtain ⟨⟨head, body⟩, hcut⟩ := Option.ne_none_iff_exists'.mp hcut
  obtain ⟨rfl, hfirst⟩ := (Text.cut?_eq_some (by decide)).mp hcut
  have hwrites : Writes basic.sections
      [Text.splitOn ['.'] head, Text.splitOn ['.'] body] (head ++ "::".toList ++ body) :=
    .cons (.ended rfl hfirst (Text.splits_splitOn ['.'] head)) (.last (Text.splits_splitOn ['.'] body))
  exact ⟨_, (layOut_eq_ok (by decide) (by decide)).mpr ⟨_, hwrites, rfl⟩⟩

theorem missing?_basic (text : List Char) : basic.missing? text =
    if Text.contains "::".toList text then none
    else some ({ name := "head", separator := ['.'], stop := some "::".toList }, "::".toList) := by
  rw [missing?, basic]
  simp only [List.findSome?_cons]
  split <;> simp_all

theorem clean_basic_of_unmarked (h : ¬ "::".toList <:+: text) :
    basic.clean fresh text = .error (.missingSection (String.ofList text) "head" "::") := by
  have hcontains : Text.contains "::".toList text = false := by
    rw [← Bool.not_eq_true, Text.contains_eq_true]
    exact h
  show basic.cleanLed fresh text = _
  rw [cleanLed, missing?_basic, hcontains]
  rfl

theorem clean_basic_of_marked (h : "::".toList <:+: text) :
    basic.clean fresh text =
      (fun cleaned => ⟨Text.tidy '.' cleaned.text, cleaned.uuid⟩) <$> canonUuid fresh text := by
  have htidy (text : List Char) : basic.tidy text = Text.tidy '.' text := isDotted_basic.tidy_eq
  show basic.cleanLed fresh text = _
  rw [cleanLed, missing?_basic, Text.contains_eq_true.mpr h]
  simp only [htidy]
  cases canonUuid fresh text <;> rfl

/-- Once a text is cleaned nothing fails. -/
theorem exists_decode_of_clean (hfresh : fresh.IsProper)
    (h : basic.clean fresh text = .ok cleaned) :
    ∃ layout meanings, basic.layOut cleaned.text = .ok layout ∧
      basic.decode cleaned.text layout cleaned.uuid = .ok ⟨meanings, cleaned.uuid⟩ ∧
      (meanings.flatten.filterMap Meaning.uuid?).Sublist cleaned.uuid.toList := by
  by_cases hmark : "::".toList <:+: text
  · rw [clean_basic_of_marked hmark] at h
    obtain ⟨canonized, hcanon, rfl⟩ := Except.map_eq_ok.mp h
    have hcanonizes := canonUuid_eq_ok.mp hcanon
    have hstays : "::".toList <:+: Text.tidy '.' canonized.text :=
      Text.infix_tidy (by decide) (by decide) (hcanonizes.colons_infix hmark)
    obtain ⟨layout, hlayout⟩ := exists_layOut_basic hstays
    have hcanonical := (hcanonizes.isCanonical hfresh).tidy
    obtain ⟨meanings, hdecode, -, huuids⟩ :=
      exists_decode isDotted_basic.sections_ne_nil isDotted_basic.stop_ne_nil hlayout hcanonical
    exact ⟨layout, meanings, hlayout, hdecode, huuids⟩
  · rw [clean_basic_of_unmarked hmark] at h
    cases h

end Scheme

/-! ## What comes of parsing -/

namespace Sectioned

variable {e : Error}

theorem parse_basic_of_unmarked (h : ¬ "::".toList <:+: text) :
    parse .basic fresh text = .error (.missingSection (String.ofList text) "head" "::") := by
  rw [parse, Scheme.clean_basic_of_unmarked h]
  rfl

theorem parse_basic_of_error (hmark : "::".toList <:+: text) (h : canonUuid fresh text = .error e) :
    parse .basic fresh text = .error e := by
  rw [parse, Scheme.clean_basic_of_marked hmark, h]
  rfl

theorem exists_parse_basic (hfresh : fresh.IsProper) (hmark : "::".toList <:+: text)
    (h : Canonizes fresh text cleaned) :
    ∃ s, parse .basic fresh text = .ok s ∧ s.uuid = cleaned.uuid ∧
      (s.meanings.flatten.filterMap Meaning.uuid?).Sublist s.uuid.toList := by
  have hclean : Scheme.basic.clean fresh text = .ok ⟨Text.tidy '.' cleaned.text, cleaned.uuid⟩ := by
    rw [Scheme.clean_basic_of_marked hmark, canonUuid_eq_ok.mpr h]
    rfl
  obtain ⟨layout, meanings, hlayout, hdecode, huuids⟩ := Scheme.exists_decode_of_clean hfresh hclean
  refine ⟨⟨Text.tidy '.' cleaned.text, layout, meanings, cleaned.uuid⟩, ?_, rfl, huuids⟩
  simp only [parse, hclean, hlayout, hdecode, bind, Except.bind, pure, Except.pure]

/-- What parsing a text with the marker comes to. -/
inductive Outcome (fresh : Uuid) (text : List Char) (values : List (Option (List Char))) : Prop where
  | crowded (many : 2 ≤ values.length)
      (fails : parse .basic fresh text = .error (.tooManyUuids (String.ofList text)))
  | unreadable {written : List Char} (bad : IsUnreadable values written)
      (fails : parse .basic fresh text
        = .error (.badUuid (String.ofList text) (String.ofList written)))
  | accepted {s : Sectioned .basic} (few : values.length < 2)
      (good : ∀ written, ¬ IsUnreadable values written) (parses : parse .basic fresh text = .ok s)
      (uuid : s.HasUuidOf values)

theorem readTokenValue_ne_none (hfew : values.length < 2)
    (hgood : ∀ written, ¬ IsUnreadable values written) :
    ∀ value ∈ values, readTokenValue fresh value ≠ none := by
  rcases values with _ | ⟨value, _ | ⟨other, values⟩⟩
  · simp
  · cases value with
    | none => simp [readTokenValue]
    | some written => simpa [IsUnreadable, readTokenValue] using hgood written
  · simp only [List.length_cons] at hfew
    omega

section Tokens

variable (hfresh : fresh.IsProper) (htokens : Tokens text values)
include hfresh htokens

theorem outcome_of_marked (hmark : "::".toList <:+: text) : Outcome fresh text values := by
  by_cases hmany : 2 ≤ values.length
  · exact .crowded hmany (parse_basic_of_error hmark (htokens.canonUuid_of_many hmany))
  by_cases hbad : ∃ written, IsUnreadable values written
  · obtain ⟨written, rfl, hread⟩ := hbad
    exact .unreadable ⟨rfl, hread⟩
      (parse_basic_of_error hmark (htokens.canonUuid_of_unreadable hread))
  · have hfew : values.length < 2 := Nat.lt_of_not_le hmany
    have hgood : ∀ written, ¬ IsUnreadable values written := not_exists.mp hbad
    obtain ⟨cleaned, hcanon, huuid⟩ :=
      htokens.exists_canonizes hfew (readTokenValue_ne_none hfew hgood)
    obtain ⟨s, hs, hsame, hwords⟩ := exists_parse_basic hfresh hmark hcanon
    exact .accepted hfew hgood hs ⟨hwords, hsame ▸ huuid⟩

theorem parse_unmarked_iff :
    parse .basic fresh text = .error (.missingSection (String.ofList text) "head" "::") ↔
      ¬ "::".toList <:+: text := by
  refine ⟨fun h hmark => ?_, parse_basic_of_unmarked⟩
  cases outcome_of_marked hfresh htokens hmark with
  | crowded _ fails => simp [fails] at h
  | unreadable _ fails => simp [fails] at h
  | accepted _ _ parses _ => simp [parses] at h

theorem parse_crowded_iff (hmark : "::".toList <:+: text) :
    parse .basic fresh text = .error (.tooManyUuids (String.ofList text)) ↔ 2 ≤ values.length := by
  cases outcome_of_marked hfresh htokens hmark with
  | crowded many fails => simp [fails, many]
  | unreadable bad fails => simp [fails, bad.1]
  | accepted few _ parses _ => simp [parses, few]

theorem parse_unreadable_iff (hmark : "::".toList <:+: text) (hfew : values.length < 2)
    (written : List Char) :
    parse .basic fresh text = .error (.badUuid (String.ofList text) (String.ofList written)) ↔
      IsUnreadable values written := by
  cases outcome_of_marked hfresh htokens hmark with
  | crowded many _ => exact absurd many (Nat.not_le.mpr hfew)
  | @unreadable other bad fails =>
    rw [fails]
    constructor
    · intro h
      obtain rfl : other = written := by simpa [String.ofList_inj] using h
      exact bad
    · rintro ⟨rfl, -⟩
      obtain rfl : written = other := by simpa using bad.1
      rfl
  | accepted _ good parses _ => simp [parses, good written]

theorem judged_of_tokens : Judged fresh text values where
  unmarked := parse_unmarked_iff hfresh htokens
  crowded := parse_crowded_iff hfresh htokens
  unreadable := parse_unreadable_iff hfresh htokens
  accepted hmark hfew hgood := by
    cases outcome_of_marked hfresh htokens hmark with
    | crowded many _ => exact absurd many (Nat.not_le.mpr hfew)
    | unreadable bad _ => exact absurd bad (hgood _)
    | accepted _ _ parses uuid => exact ⟨_, parses, uuid⟩
  decoded cleaned hclean := by
    obtain ⟨layout, meanings, hlayout, hdecode, -⟩ := Scheme.exists_decode_of_clean hfresh hclean
    exact ⟨layout, _, hlayout, hdecode⟩

end Tokens

/-- Every text has one list of tokens, which says together with the marker whether the text
is accepted, and which error it gets otherwise. -/
theorem parse_judged (hfresh : fresh.IsProper) (text : List Char) :
    ∃ values, Tokens text values ∧ (∀ others, Tokens text others → others = values) ∧
      Judged fresh text values := by
  obtain ⟨values, htokens⟩ := exists_tokens text
  refine ⟨values, htokens, ?_, judged_of_tokens hfresh htokens⟩
  intro others hothers
  exact htokens.unique hothers

/-- The tokens may overlap with what is no token, and with dots. -/
theorem parse_judged_nested :
    Judged (Uuid.ofSeed 1) "<uuid.::..<uuid:<uuid>..".toList [some "<uuid".toList] := by
  have htokens : Tokens "<uuid.::..<uuid:<uuid>..".toList [some "<uuid".toList] :=
    .next (cutToken?_eq_some_iff_firstToken.mp rfl) (.done (cutToken?_eq_none.mp rfl))
  obtain ⟨values, -, hunique, hjudged⟩ :=
    parse_judged (Uuid.isProper_ofSeed 1) "<uuid.::..<uuid:<uuid>..".toList
  rwa [hunique _ htokens]

end Sectioned

end KeyExpansion
