-- SUMMARY: All uuid tokens of a text, found from the left, and what cleaning makes of them.
import KeyExpansion.Proofs.Sectioned.Canonical
import KeyExpansion.Proofs.Text.InOrder

/-! # All tokens of a text

The tokens of a text are found from the left, each in what follows the one before it.
Cleaning accepts a text with no token or with one that can be read, and its errors say
which of the two fails. In a canonical text all of this is settled: there is one place
for a token, so no two pieces of the text that stand one after the other both have one. -/

namespace KeyExpansion

/-- The token that begins first in a text. -/
structure FirstToken (text before : List Char) (value : Option (List Char)) (after : List Char) :
    Prop where
  text_eq : text = before ++ uuidToken value ++ after
  isValue : IsTokenValue value
  leftmost : ∀ front found back, IsTokenValue found → text = front ++ uuidToken found ++ back →
    before.length ≤ front.length

/-- The values of the tokens that are found one after the other. -/
inductive Tokens : List Char → List (Option (List Char)) → Prop where
  | done {text : List Char} (free : TokenFree text) : Tokens text []
  | next {text before after : List Char} {value : Option (List Char)}
      {values : List (Option (List Char))} (first : FirstToken text before value after)
      (later : Tokens after values) : Tokens text (value :: values)

variable {text before after front back : List Char} {value found : Option (List Char)}
  {values others : List (Option (List Char))} {fresh u : Uuid} {uuid : Option Uuid}

/-- A token is the first one if the text before it is clear. -/
theorem IsClear.firstToken (h : IsClear before) (hvalue : IsTokenValue value) (after : List Char) :
    FirstToken (before ++ uuidToken value ++ after) before value after := by
  refine ⟨rfl, hvalue, ?_⟩
  intro front found back hfound heq
  rw [List.append_assoc, List.append_assoc] at heq
  rcases List.append_eq_append_iff.mp heq with ⟨more, rfl, -⟩ | ⟨more, rfl, hmore⟩
  · simp
  · cases more with
    | nil => simp
    | cons c more =>
      have hclear := h.mono (List.suffix_append front (c :: more)).isInfix
      have htoken := tokenAt?_uuidToken_append hfound back
      rw [hmore, hclear.tokenAt?_append (List.cons_ne_nil c more)] at htoken
      cases htoken

namespace FirstToken

theorem unique (h : FirstToken text before value after) (h' : FirstToken text front found back) :
    before = front ∧ value = found ∧ after = back := by
  have hle := h.leftmost _ _ _ h'.isValue h'.text_eq
  have hge := h'.leftmost _ _ _ h.isValue h.text_eq
  have heq : before ++ (uuidToken value ++ after) = front ++ (uuidToken found ++ back) := by
    rw [← List.append_assoc, ← List.append_assoc, ← h.text_eq, ← h'.text_eq]
  obtain ⟨hbefore, hrest⟩ := List.append_inj heq (Nat.le_antisymm hle hge)
  have htoken := tokenAt?_uuidToken_append h.isValue after
  rw [hrest, tokenAt?_uuidToken_append h'.isValue back] at htoken
  simp only [Option.some.injEq, Prod.mk.injEq] at htoken
  exact ⟨hbefore, htoken.1.symm, htoken.2.symm⟩

theorem not_tokenFree (h : FirstToken text before value after) : ¬ TokenFree text :=
  fun hfree => hfree value h.isValue ⟨before, after, h.text_eq.symm⟩

end FirstToken

/-- A text is cut at its first token. -/
theorem cutToken?_eq_some_iff_firstToken :
    cutToken? text = some ⟨before, value, after⟩ ↔ FirstToken text before value after := by
  constructor
  · intro h
    obtain ⟨rfl, hvalue, hclear⟩ := cutToken?_eq_some.mp h
    exact hclear.firstToken hvalue after
  · intro h
    cases hcut : cutToken? text with
    | none => exact absurd (cutToken?_eq_none.mp hcut) h.not_tokenFree
    | some cut =>
      obtain ⟨front, found, back⟩ := cut
      obtain ⟨rfl, hfound, hclear⟩ := cutToken?_eq_some.mp hcut
      obtain ⟨rfl, rfl, rfl⟩ := h.unique (hclear.firstToken hfound back)
      rfl

theorem FirstToken.isClear (h : FirstToken text before value after) : IsClear before :=
  (cutToken?_eq_some.mp (cutToken?_eq_some_iff_firstToken.mpr h)).2.2

/-! ## One list of tokens -/

theorem exists_tokens (text : List Char) : ∃ values, Tokens text values := by
  induction hn : text.length using Nat.strong_induction_on generalizing text with
  | _ n ih =>
    cases hcut : cutToken? text with
    | none => exact ⟨[], .done (cutToken?_eq_none.mp hcut)⟩
    | some cut =>
      obtain ⟨before, value, after⟩ := cut
      have hfirst := cutToken?_eq_some_iff_firstToken.mp hcut
      have hshorter : after.length < n := by
        have hlength := congrArg List.length hfirst.text_eq
        have hpos := List.length_pos_of_ne_nil (uuidToken_ne_nil value)
        simp only [List.length_append] at hlength
        omega
      obtain ⟨values, hvalues⟩ := ih after.length hshorter after rfl
      exact ⟨value :: values, .next hfirst hvalues⟩

theorem Tokens.unique (h : Tokens text values) (h' : Tokens text others) : others = values := by
  induction h generalizing others with
  | done free =>
    cases h' with
    | done => rfl
    | next first => exact absurd free first.not_tokenFree
  | next first _ ih =>
    cases h' with
    | done free => exact absurd free first.not_tokenFree
    | next first' later' =>
      obtain ⟨-, rfl, rfl⟩ := first.unique first'
      rw [ih later']

/-! ## What cleaning makes of them -/

theorem Tokens.canonUuid_of_many (h : Tokens text values) (hmany : 2 ≤ values.length) :
    canonUuid fresh text = .error (.tooManyUuids (String.ofList text)) := by
  cases h with
  | done => simp at hmany
  | @next _ before after value _ first later =>
    cases later with
    | done => simp at hmany
    | @next _ front back found _ second =>
      rw [canonUuid, cutToken?_eq_some_iff_firstToken.mpr first]
      simp [cutToken?_eq_some_iff_firstToken.mpr second]

theorem Tokens.canonUuid_of_unreadable {written : List Char} (h : Tokens text [some written])
    (hread : Uuid.read? written = none) :
    canonUuid fresh text = .error (.badUuid (String.ofList text) (String.ofList written)) := by
  cases h with
  | @next _ before after _ _ first later =>
    cases later with
    | done free =>
      rw [canonUuid, cutToken?_eq_some_iff_firstToken.mpr first]
      simp [cutToken?_eq_none.mpr free, hread]

/-- With no other token a text can be written canonically, and it has a uuid if it had a
token. -/
theorem Tokens.exists_canonizes (h : Tokens text values) (hfew : values.length < 2)
    (hread : ∀ value ∈ values, readTokenValue fresh value ≠ none) :
    ∃ cleaned, Canonizes fresh text cleaned ∧ (cleaned.uuid ≠ none ↔ values ≠ []) := by
  cases h with
  | done free => exact ⟨_, .plain free, by simp⟩
  | @next _ before after value _ first later =>
    cases later with
    | done free =>
      obtain ⟨u, hu⟩ := Option.ne_none_iff_exists'.mp (hread value List.mem_cons_self)
      rw [first.text_eq]
      exact ⟨_, .token first.isValue hu first.isClear free, by simp⟩
    | next =>
      simp only [List.length_cons] at hfew
      omega

/-! ## Tokens of a canonical text -/

namespace IsCanonical

theorem proper (h : IsCanonical text (some u)) : u.IsProper := by
  cases h with
  | token proper => exact proper

theorem token_infix (h : IsCanonical text (some u)) : u.token <:+: text := by
  cases h with
  | @token before after => exact ⟨before, after, rfl⟩

theorem tokenFree (h : IsCanonical text none) : TokenFree text := by
  cases h with
  | plain free => exact free

/-- A token in a canonical text is the canonical one, and none follows it. -/
theorem cut (h : IsCanonical text uuid) (hfound : IsTokenValue found)
    (htext : text = front ++ uuidToken found ++ back) :
    ∃ u, uuid = some u ∧ found = some u.hyphenated ∧ IsClear front ∧ TokenFree back := by
  cases h with
  | plain free => exact absurd ⟨front, back, htext.symm⟩ (free found hfound)
  | @token before after u proper clear free =>
    rw [u.token_eq] at htext
    obtain ⟨rfl, rfl, rfl⟩ := append_uuidToken_inj proper.isTokenValue
      (lt_not_mem_tail (proper.readTokenValue_eq u)) clear free hfound htext.symm
    exact ⟨u, rfl, rfl, clear, free⟩

/-- Of two pieces that stand one after the other only one has a token. -/
theorem tokenFree_or (h : IsCanonical text uuid) {first second : List Char}
    (horder : Text.Precedes text first second) : TokenFree first ∨ TokenFree second := by
  by_contra hboth
  simp only [TokenFree, not_or, not_forall, not_not] at hboth
  obtain ⟨⟨value, hvalue, front, more, rfl⟩, ⟨other, hother, hsecond⟩⟩ := hboth
  obtain ⟨gap, rest, htext, hrest⟩ := horder
  have hcut : text = (gap ++ front) ++ uuidToken value ++ (more ++ rest) := by
    rw [htext]
    simp only [List.append_assoc]
  obtain ⟨u, -, -, -, hfree⟩ := h.cut hvalue hcut
  exact hfree other hother (hsecond.trans ( hrest.trans (List.suffix_append more rest).isInfix))

end IsCanonical

end KeyExpansion
