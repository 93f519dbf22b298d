-- SUMMARY: Parsed texts are fixed points of parsing, and texts that are equal mean the same.
import KeyExpansion.Proofs.Sectioned.Dotted

/-! # Fixed points

A parsed text reads as itself, with the same layout and the same meanings. So two parsed
texts that are equal as texts are equal in everything. The texts that are kept as they
are given are those without runs of three dots and without a dot at the end, whose uuid
token, if there is one, is already canonical. -/

namespace KeyExpansion

/-- Every token in the text writes a proper uuid in its hyphenated form. -/
def TokensCanonical (text : List Char) : Prop :=
  ∀ value, IsTokenValue value → uuidToken value <:+: text →
    ∃ u : Uuid, u.IsProper ∧ uuidToken value = u.token

variable {fresh : Uuid} {text : List Char} {cleaned : Cleaned}

theorem filter_eq_self_of_not_mem {d : Char} (h : d ∉ text) : text.filter (· ≠ d) = text := by
  rw [List.filter_eq_self]
  intro c hc
  have hne : c ≠ d := by
    rintro rfl
    exact h hc
  simpa using hne

/-- Separators apart, the text is only the same if the token is. -/
theorem Canonizes.tokensCanonical (hfresh : fresh.IsProper) (h : Canonizes fresh text cleaned)
    (heq : Text.tidy '.' cleaned.text = text) : TokensCanonical text := by
  cases h with
  | plain free =>
    intro value hvalue htoken
    exact absurd htoken (free value hvalue)
  | @token before after value u isValue read clear free =>
    have hproper := proper_of_readTokenValue hfresh read
    have hdot := dot_not_mem_uuidToken read
    have hdotCanonical := dot_not_mem_uuidToken (hproper.readTokenValue_eq fresh)
    have hfilter := Text.filter_tidy '.' (before ++ u.token ++ after)
    rw [heq] at hfilter
    simp only [List.filter_append, List.append_cancel_right_eq, List.append_cancel_left_eq]
      at hfilter
    have htoken : uuidToken value = u.token := by
      rwa [filter_eq_self_of_not_mem hdot, u.token_eq,
        filter_eq_self_of_not_mem hdotCanonical] at hfilter
    intro found hfound hinfix
    have hsame := eq_of_uuidToken_infix isValue (lt_not_mem_tail read) clear free hfound hinfix
    exact ⟨u, hproper, hsame ▸ htoken⟩

theorem Canonizes.tidy_eq (h : Canonizes fresh text cleaned) (htidy : Text.IsTidy '.' text)
    (htokens : TokensCanonical text) : Text.tidy '.' cleaned.text = text := by
  have hsame : cleaned.text = text := by
    cases h with
    | plain => rfl
    | @token before after value u isValue read clear free =>
      obtain ⟨u', hproper, htoken⟩ := htokens value isValue ⟨before, after, rfl⟩
      obtain rfl := uuidToken_inj isValue hproper.isTokenValue htoken
      rw [hproper.readTokenValue_eq fresh] at read
      obtain rfl := Option.some.inj read
      rfl
  rw [hsame, htidy.tidy_eq]

namespace Sectioned

variable {scheme : Scheme} {s : Sectioned scheme}

theorem text_eq_iff (hdotted : scheme.IsDotted) (hlead : scheme.lead = none)
    (hfresh : fresh.IsProper) (h : parse scheme fresh text = .ok s) :
    s.text = text ↔ Text.IsTidy '.' text ∧ TokensCanonical text := by
  obtain ⟨uuid, hclean, hisClean⟩ := isClean_of_parse hdotted hfresh h
  obtain ⟨canonized, hcanon, heq⟩ := hdotted.clean_eq_ok hclean
  have htext : s.text = Text.tidy '.' canonized.text := congrArg Cleaned.text heq
  have hled : scheme.withLead text = text := by rw [Scheme.withLead, hlead]
  rw [hled] at hcanon
  constructor
  · intro hsame
    exact ⟨hsame ▸ hisClean.tidy, hcanon.tokensCanonical hfresh (htext.symm.trans hsame)⟩
  · rintro ⟨htidy, htokens⟩
    rw [htext]
    exact hcanon.tidy_eq htidy htokens

/-- Parsed texts are fixed points; texts that are equal are equal in everything; and a basic
text is kept as it was given if it has no run of three dots, no dot at its end and no
token but a canonical one. -/
theorem parse_fixedPoint (hscheme : scheme = .basic ∨ scheme = .codeRef)
    (hfresh : fresh.IsProper) (h : parse scheme fresh text = .ok s) :
    (∀ fresh', parse scheme fresh' s.text = .ok s) ∧
      (∀ (fresh' : Uuid) (other : List Char) (t : Sectioned scheme), fresh'.IsProper →
        parse scheme fresh' other = .ok t → t.same s = true → t = s) ∧
      (scheme = .basic → (s.text = text ↔
        ¬ "...".toList <:+: text ∧ ¬ ['.'] <:+ text ∧ TokensCanonical text)) := by
  have hdotted := Scheme.isDotted_of_declared hscheme
  refine ⟨parse_text_eq hdotted hfresh h, ?_, ?_⟩
  · intro fresh' other t hfresh' ht hsame
    have htext : t.text = s.text := by simpa [same] using hsame
    have hs := parse_text_eq hdotted hfresh h fresh
    have ht := parse_text_eq hdotted hfresh' ht fresh
    rw [htext, hs] at ht
    exact (Except.ok.inj ht).symm
  · rintro rfl
    rw [text_eq_iff hdotted rfl hfresh h]
    constructor
    · rintro ⟨htidy, htokens⟩
      exact ⟨htidy.no_run, htidy.no_end, htokens⟩
    · rintro ⟨hrun, hend, htokens⟩
      exact ⟨⟨hrun, hend⟩, htokens⟩

/-- The fresh uuid that `<uuid>` stood for is not drawn again. -/
theorem parse_fixedPoint_fresh :
    ∃ s : Sectioned .basic, parse .basic (Uuid.ofSeed 1) "a...b::1.<uuid>..".toList = .ok s ∧
      s.text = "a..b::1.<uuid:00000000-0000-4000-8000-000000000001>".toList ∧
      ∀ fresh', parse .basic fresh' s.text = .ok s := by
  refine ⟨_, rfl, rfl, ?_⟩
  have hparse : parse .basic (Uuid.ofSeed 1) "a...b::1.<uuid>..".toList = .ok _ := rfl
  exact (parse_fixedPoint (.inl rfl) (Uuid.isProper_ofSeed 1) hparse).1

end Sectioned

end KeyExpansion
