-- SUMMARY: Where uuid tokens stand in a text, and what writing them canonically changes.
import KeyExpansion.Proofs.Text.Tidy
import KeyExpansion.Proofs.Uuid
import KeyExpansion.Sectioned.Clean

/-! # Uuid tokens

A token is `<uuid>`, or `<uuid:` and `>` around a value without a `>`. The first token of a
text is the one before which none of the two openings stands. A text is canonical if it has
no token, or one that writes a proper uuid in its hyphenated form. Canonical texts stay
canonical when they are tidied, since no separator stands in a token and none of the
pieces that make a token comes out of collapsing. -/

namespace KeyExpansion

/-- The token with a value, or the one that stands for a fresh uuid. -/
def uuidToken : Option (List Char) → List Char
  | none => "<uuid>".toList
  | some value => "<uuid:".toList ++ value ++ ['>']

/-- The value ends where the token ends. -/
def IsTokenValue (value : Option (List Char)) : Prop :=
  ∀ written, value = some written → '>' ∉ written

/-- No token stands in the text. -/
def TokenFree (text : List Char) : Prop :=
  ∀ value, IsTokenValue value → ¬ uuidToken value <:+: text

/-- No token begins in the text, whatever follows it. -/
structure IsClear (text : List Char) : Prop where
  no_fresh : ¬ "<uuid>".toList <:+: text
  no_opening : ¬ "<uuid:".toList <:+: text

variable {text before after rest : List Char} {value : Option (List Char)}

theorem isTokenValue_none : IsTokenValue none := by
  intro written h
  cases h

theorem isTokenValue_some {written : List Char} :
    IsTokenValue (some written) ↔ '>' ∉ written := by
  simp [IsTokenValue]

theorem uuidToken_eq_cons (value : Option (List Char)) :
    ∃ inner, uuidToken value = '<' :: inner := by
  cases value with
  | none => exact ⟨_, rfl⟩
  | some written => exact ⟨_, rfl⟩

theorem uuidToken_eq_concat (value : Option (List Char)) :
    ∃ inner, uuidToken value = inner ++ ['>'] := by
  cases value with
  | none => exact ⟨"<uuid".toList, rfl⟩
  | some written => exact ⟨_, rfl⟩

theorem opening_append (rest : List Char) :
    "<uuid".toList ++ ':' :: rest = "<uuid:".toList ++ rest := rfl

theorem uuidToken_some_append (written rest : List Char) :
    uuidToken (some written) ++ rest = "<uuid:".toList ++ (written ++ ['>'] ++ rest) := rfl

theorem uuidToken_ne_nil (value : Option (List Char)) : uuidToken value ≠ [] := by
  obtain ⟨inner, h⟩ := uuidToken_eq_cons value
  simp [h]

/-- What has no bracket stands before, in or after a token. -/
theorem infix_append_uuidToken {piece : List Char} (hopen : '<' ∉ piece) (hclose : '>' ∉ piece)
    (h : piece <:+: before ++ uuidToken value ++ after) :
    piece <:+: before ∨ piece <:+: uuidToken value ∨ piece <:+: after := by
  have hends : ∃ inner, uuidToken value = '<' :: (inner ++ ['>']) := by
    cases value with
    | none => exact ⟨"uuid".toList, rfl⟩
    | some written => exact ⟨"uuid:".toList ++ written, rfl⟩
  obtain ⟨inner, htoken⟩ := hends
  have htext : before ++ uuidToken value ++ after = before ++ '<' :: (inner ++ '>' :: after) := by
    simp [htoken]
  rw [htext] at h
  rcases Text.infix_of_infix_append_cons hopen h with h | h
  · exact .inl h
  rcases Text.infix_of_infix_append_cons hclose h with h | h
  · refine .inr (.inl ( h.trans ?_))
    rw [htoken]
    exact ⟨['<'], ['>'], rfl⟩
  · exact .inr (.inr h)

/-! ## Finding a token -/

theorem tokenAt?_eq_some :
    tokenAt? text = some (value, rest) ↔ IsTokenValue value ∧ text = uuidToken value ++ rest := by
  constructor
  · intro h
    rw [tokenAt?] at h
    split at h
    · next hstrip =>
      obtain ⟨rfl, rfl⟩ : none = value ∧ _ = rest := by simpa using h
      rw [Text.stripPrefix?_eq_some.mp hstrip]
      exact ⟨isTokenValue_none, rfl⟩
    · next hstrip =>
      obtain ⟨⟨written, after⟩, hcut, heq⟩ := Option.map_eq_some_iff.mp h
      obtain ⟨rfl, rfl⟩ : some written = value ∧ after = rest := by simpa using heq
      obtain ⟨rfl, hfirst⟩ := (Text.cut?_eq_some (by simp)).mp hcut
      refine ⟨isTokenValue_some.mpr (Text.isFirst_singleton.mp hfirst), ?_⟩
      rw [Text.stripPrefix?_eq_some.mp hstrip, opening_append, uuidToken_some_append]
    · cases h
  · rintro ⟨hvalue, rfl⟩
    cases value with
    | none => rfl
    | some written =>
      have hcut : Text.cut? ['>'] (written ++ ['>'] ++ rest) = some (written, rest) :=
        (Text.cut?_eq_some (by simp)).mpr
          ⟨rfl, Text.isFirst_singleton.mpr (isTokenValue_some.mp hvalue)⟩
      show (Text.cut? ['>'] (written ++ ['>'] ++ rest)).map _ = _
      rw [hcut]
      rfl

theorem tokenAt?_uuidToken_append (hvalue : IsTokenValue value) (rest : List Char) :
    tokenAt? (uuidToken value ++ rest) = some (value, rest) :=
  tokenAt?_eq_some.mpr ⟨hvalue, rfl⟩

theorem uuidToken_inj {other : Option (List Char)} (hvalue : IsTokenValue value)
    (hother : IsTokenValue other) (h : uuidToken value = uuidToken other) : value = other := by
  have htoken := tokenAt?_uuidToken_append hvalue []
  have htokenOther := tokenAt?_uuidToken_append hother []
  rw [h, htokenOther] at htoken
  exact (congrArg Prod.fst (Option.some.inj htoken)).symm

/-- A token that begins before the first `<` after some text has its opening in the text. -/
theorem prefix_of_append_eq {opening xs ys zs : List Char} (hopening : '<' ∉ opening.tail)
    (hxs : xs ≠ []) (h : xs ++ '<' :: ys = opening ++ zs) : opening <+: xs := by
  rcases List.append_eq_append_iff.mp h with ⟨more, rfl, hmore⟩ | ⟨more, rfl, -⟩
  · cases more with
    | nil => simp
    | cons c more =>
      obtain ⟨x, xs, rfl⟩ := List.exists_cons_of_ne_nil hxs
      obtain ⟨rfl, -⟩ := List.cons.inj hmore
      simp at hopening
  · exact List.prefix_append opening more

/-- No token begins in a clear text before a token. -/
theorem IsClear.tokenAt?_append (h : IsClear before) (hne : before ≠ []) :
    tokenAt? (before ++ (uuidToken value ++ after)) = none := by
  obtain ⟨inner, hinner⟩ := uuidToken_eq_cons value
  rw [hinner, Option.eq_none_iff_forall_ne_some]
  rintro ⟨found, rest⟩ htoken
  obtain ⟨-, htext⟩ := tokenAt?_eq_some.mp htoken
  cases found with
  | none =>
    apply h.no_fresh
    exact (prefix_of_append_eq (by decide) hne htext).isInfix
  | some written =>
    rw [uuidToken_some_append] at htext
    apply h.no_opening
    exact (prefix_of_append_eq (by decide) hne htext).isInfix

theorem IsClear.tokenFree (h : IsClear text) : TokenFree text := by
  intro value _ htoken
  cases value with
  | none => exact h.no_fresh htoken
  | some written =>
    have hopening : "<uuid:".toList <+: uuidToken (some written) :=
      ⟨written ++ ['>'], rfl⟩
    exact h.no_opening (hopening.isInfix.trans htoken)

/-- An opening is that of a token if its end follows. -/
theorem exists_uuidToken_of_mem (h : '>' ∈ rest) :
    ∃ value after, IsTokenValue value ∧ "<uuid:".toList ++ rest = uuidToken value ++ after := by
  obtain ⟨written, after, rfl, hwritten⟩ := List.eq_append_cons_of_mem h
  refine ⟨some written, after, isTokenValue_some.mpr hwritten, ?_⟩
  rw [uuidToken_some_append, List.append_assoc]
  rfl

theorem isClear_nil : IsClear [] := by
  constructor <;> simp

theorem IsClear.mono (h : IsClear text) (hbefore : before <:+: text) : IsClear before :=
  ⟨fun hfresh => h.no_fresh (hfresh.trans hbefore),
    fun hopening => h.no_opening (hopening.trans hbefore)⟩

theorem TokenFree.mono (h : TokenFree text) (hbefore : before <:+: text) : TokenFree before :=
  fun value hvalue htoken => h value hvalue (htoken.trans hbefore)

/-- No token begins in a text without a `<`. -/
theorem TokenFree.append_left (h : TokenFree text) (hbefore : '<' ∉ before) :
    TokenFree (before ++ text) := by
  intro value hvalue htoken
  induction before with
  | nil => exact h value hvalue htoken
  | cons c before ih =>
    obtain ⟨hc, hrest⟩ := not_or.mp (List.mem_cons.not.mp hbefore)
    rcases List.infix_cons_iff.mp htoken with ⟨rest, hprefix⟩ | htoken
    · obtain ⟨inner, hinner⟩ := uuidToken_eq_cons value
      rw [hinner] at hprefix
      exact hc (List.cons.inj hprefix).1
    · exact ih hrest htoken

/-- No token ends in a text without a `>`. -/
theorem TokenFree.append (h : TokenFree text) (hafter : '>' ∉ after) : TokenFree (text ++ after) := by
  intro value hvalue htoken
  induction after using List.reverseRecOn with
  | nil => exact h value hvalue (List.append_nil text ▸ htoken)
  | append_singleton after c ih =>
    rw [List.mem_append, List.mem_singleton, not_or] at hafter
    rw [← List.append_assoc] at htoken
    rcases List.infix_concat_iff.mp htoken with ⟨front, hsuffix⟩ | htoken
    · obtain ⟨inner, hinner⟩ := uuidToken_eq_concat value
      rw [hinner, ← List.append_assoc] at hsuffix
      exact hafter.2 (List.singleton_inj.mp (List.append_inj' hsuffix rfl).2)
    · exact ih hafter.1 htoken

theorem cutToken?_eq_none : cutToken? text = none ↔ TokenFree text := by
  induction text with
  | nil =>
    have hfree : TokenFree [] := by
      intro value _ h
      exact uuidToken_ne_nil value (List.infix_nil.mp h)
    simp [cutToken?, hfree]
  | cons c text ih =>
    rw [cutToken?]
    cases htoken : tokenAt? (c :: text) with
    | some token =>
      obtain ⟨value, rest⟩ := token
      obtain ⟨hvalue, htext⟩ := tokenAt?_eq_some.mp htoken
      have hnot : ¬ TokenFree (c :: text) := fun h => h value hvalue ⟨[], rest, htext.symm⟩
      simp [hnot]
    | none =>
      simp only [Option.map_eq_none_iff, ih]
      constructor
      · intro h value hvalue hinfix
        rcases List.infix_cons_iff.mp hinfix with ⟨rest, hrest⟩ | hinfix
        · rw [tokenAt?_eq_some.mpr ⟨hvalue, hrest.symm⟩] at htoken
          cases htoken
        · exact h value hvalue hinfix
      · intro h
        exact h.mono (List.suffix_cons c text).isInfix

/-- A text before a token is clear if no token begins at any of its positions. -/
theorem IsClear.cons {c : Char} (h : IsClear before)
    (hnone : tokenAt? (c :: (before ++ uuidToken value ++ after)) = none) :
    IsClear (c :: before) := by
  have hnot {found : Option (List Char)} (hfound : IsTokenValue found) (rest : List Char) :
      c :: before ++ (uuidToken value ++ after) ≠ uuidToken found ++ rest := by
    intro heq
    rw [← List.append_assoc, List.cons_append, List.cons_append] at heq
    rw [tokenAt?_eq_some.mpr ⟨hfound, heq⟩] at hnone
    cases hnone
  constructor
  · intro hfresh
    rcases List.infix_cons_iff.mp hfresh with ⟨rest, hrest⟩ | hfresh
    · refine hnot isTokenValue_none (rest ++ (uuidToken value ++ after)) ?_
      rw [← hrest, List.append_assoc]
      rfl
    · exact h.no_fresh hfresh
  · intro hopening
    rcases List.infix_cons_iff.mp hopening with ⟨rest, hrest⟩ | hopening
    · obtain ⟨inner, hinner⟩ := uuidToken_eq_concat value
      have hend : '>' ∈ rest ++ (uuidToken value ++ after) := by simp [hinner]
      obtain ⟨found, later, hfound, heq⟩ := exists_uuidToken_of_mem hend
      refine hnot hfound later ?_
      rw [← hrest, List.append_assoc, heq]
    · exact h.no_opening hopening

/-- The text is cut at its first token. -/
theorem cutToken?_eq_some :
    cutToken? text = some ⟨before, value, after⟩ ↔
      text = before ++ uuidToken value ++ after ∧ IsTokenValue value ∧ IsClear before := by
  induction text generalizing before with
  | nil => simp [cutToken?, uuidToken_ne_nil]
  | cons c text ih =>
    rw [cutToken?]
    cases htoken : tokenAt? (c :: text) with
    | some token =>
      obtain ⟨found, rest⟩ := token
      simp only [Option.some.injEq, TokenCut.mk.injEq]
      constructor
      · rintro ⟨rfl, rfl, rfl⟩
        obtain ⟨hvalue, htext⟩ := tokenAt?_eq_some.mp htoken
        exact ⟨htext, hvalue, isClear_nil⟩
      · rintro ⟨htext, hvalue, hclear⟩
        have hbefore : before = [] := by
          by_contra hne
          rw [htext, List.append_assoc, hclear.tokenAt?_append hne] at htoken
          cases htoken
        rw [hbefore, List.nil_append] at htext
        rw [tokenAt?_eq_some.mpr ⟨hvalue, htext⟩] at htoken
        simp only [Option.some.injEq, Prod.mk.injEq] at htoken
        exact ⟨hbefore.symm, htoken.1.symm, htoken.2.symm⟩
    | none =>
      constructor
      · intro h
        obtain ⟨⟨front, value, after⟩, hcut, heq⟩ := Option.map_eq_some_iff.mp h
        obtain ⟨rfl, rfl, rfl⟩ : c :: front = before ∧ _ = _ ∧ _ = _ := by simpa using heq
        obtain ⟨rfl, hvalue, hclear⟩ := ih.mp hcut
        exact ⟨rfl, hvalue, hclear.cons htoken⟩
      · rintro ⟨htext, hvalue, hclear⟩
        cases before with
        | nil =>
          rw [tokenAt?_eq_some.mpr ⟨hvalue, htext⟩] at htoken
          cases htoken
        | cons b front =>
          obtain ⟨rfl, htail⟩ := List.cons.inj htext
          have hfront := hclear.mono (List.suffix_cons c front).isInfix
          rw [ih.mpr ⟨htail, hvalue, hfront⟩]
          rfl

/-- No token begins behind the start of a token that has no `<` inside and none after it. -/
theorem append_ne_append_uuidToken {found : Option (List Char)} {gap back : List Char}
    (hinner : '<' ∉ (uuidToken value).tail) (hfree : TokenFree after) (hfound : IsTokenValue found)
    (hgap : gap ≠ []) : uuidToken value ++ after ≠ gap ++ (uuidToken found ++ back) := by
  intro h
  have hnot : ¬ uuidToken found <:+: after := hfree found hfound
  rcases List.append_eq_append_iff.mp h with ⟨more, -, hafter⟩ | ⟨more, htoken, hback⟩
  · apply hnot
    exact ⟨more, back, by rw [hafter, List.append_assoc]⟩
  · cases more with
    | nil =>
      apply hnot
      exact ⟨[], back, hback⟩
    | cons b more =>
      obtain ⟨c, gap, rfl⟩ := List.exists_cons_of_ne_nil hgap
      obtain ⟨innerFound, hconsFound⟩ := uuidToken_eq_cons found
      rw [hconsFound] at hback
      obtain ⟨rfl, -⟩ := List.cons.inj hback
      apply hinner
      rw [htoken]
      simp

/-- A token stands only at one place in a text, if the text is clear before that one, has none
after it, and no `<` stands inside. -/
theorem append_uuidToken_inj {found : Option (List Char)} {front back : List Char}
    (hvalue : IsTokenValue value) (hinner : '<' ∉ (uuidToken value).tail) (hclear : IsClear before)
    (hfree : TokenFree after) (hfound : IsTokenValue found)
    (h : front ++ uuidToken found ++ back = before ++ uuidToken value ++ after) :
    front = before ∧ found = value ∧ back = after := by
  have htoken := tokenAt?_uuidToken_append hvalue after
  have htokenFound := tokenAt?_uuidToken_append hfound back
  have heq_of_same (hsame : uuidToken found ++ back = uuidToken value ++ after) :
      found = value ∧ back = after := by
    rw [hsame, htoken] at htokenFound
    simp only [Option.some.injEq, Prod.mk.injEq] at htokenFound
    exact ⟨htokenFound.1.symm, htokenFound.2.symm⟩
  rw [List.append_assoc, List.append_assoc] at h
  rcases List.append_eq_append_iff.mp h with ⟨more, hbefore, hmore⟩ | ⟨more, hfront, hmore⟩
  · -- It begins before the other one: there the text is clear.
    cases more with
    | nil => exact ⟨by simpa using hbefore.symm, heq_of_same hmore⟩
    | cons c more =>
      have hclearMore := hclear.mono (hbefore ▸ (List.suffix_append front (c :: more)).isInfix)
      rw [hmore, hclearMore.tokenAt?_append (List.cons_ne_nil c more)] at htokenFound
      cases htokenFound
  · -- It begins inside the other one or after it.
    cases more with
    | nil => exact ⟨by simpa using hfront, heq_of_same hmore.symm⟩
    | cons c more =>
      exact absurd hmore
        (append_ne_append_uuidToken hinner hfree hfound (List.cons_ne_nil c more))

theorem eq_of_uuidToken_infix {found : Option (List Char)} (hvalue : IsTokenValue value)
    (hinner : '<' ∉ (uuidToken value).tail) (hclear : IsClear before) (hfree : TokenFree after)
    (hfound : IsTokenValue found) (h : uuidToken found <:+: before ++ uuidToken value ++ after) :
    found = value := by
  obtain ⟨front, back, heq⟩ := h
  exact (append_uuidToken_inj hvalue hinner hclear hfree hfound heq).2.1

end KeyExpansion
