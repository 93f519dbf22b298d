-- SUMMARY: Texts whose uuid is written canonically stay so when they are cleaned again.
import KeyExpansion.Proofs.Sectioned.Token

/-! # Canonical uuids

Writing the uuid of a text canonically replaces its one token and leaves everything else
as it is. A text with at most one token, a canonical one, is left alone, and it stays such
a text when runs of separators are reduced or separators at its end come and go. -/

namespace KeyExpansion

/-- The uuid that a token value stands for. -/
def readTokenValue (fresh : Uuid) : Option (List Char) → Option Uuid
  | none => some fresh
  | some written => Uuid.read? written

/-- Writing the uuid of a text canonically replaces its only token, if it has one. -/
inductive Canonizes (fresh : Uuid) : List Char → Cleaned → Prop where
  | plain {text : List Char} (free : TokenFree text) : Canonizes fresh text ⟨text, none⟩
  | token {before after : List Char} {value : Option (List Char)} {u : Uuid}
      (isValue : IsTokenValue value) (read : readTokenValue fresh value = some u)
      (clear : IsClear before) (free : TokenFree after) :
      Canonizes fresh (before ++ uuidToken value ++ after) ⟨before ++ u.token ++ after, some u⟩

/-- The text has no token but the canonical one of the uuid. -/
inductive IsCanonical : List Char → Option Uuid → Prop where
  | plain {text : List Char} (free : TokenFree text) : IsCanonical text none
  | token {before after : List Char} {u : Uuid} (proper : u.IsProper) (clear : IsClear before)
      (free : TokenFree after) : IsCanonical (before ++ u.token ++ after) (some u)

variable {fresh u : Uuid} {text before after : List Char} {cleaned : Cleaned}
  {value : Option (List Char)} {uuid : Option Uuid}

/-- A text with a token is cleaned if the token is its only one and its value is read. -/
theorem canonUuid_of_cut {cut : TokenCut} (hcut : cutToken? text = some cut) :
    canonUuid fresh text = .ok cleaned ↔
      cutToken? cut.after = none ∧ ∃ u, readTokenValue fresh cut.value = some u ∧
        ⟨cut.before ++ u.token ++ cut.after, some u⟩ = cleaned := by
  rw [canonUuid, hcut]
  cases hafter : cutToken? cut.after with
  | some later => simp [hafter]
  | none =>
    cases hvalue : cut.value with
    | none => simp [hafter, hvalue, readTokenValue]
    | some written =>
      cases hread : Uuid.read? written with
      | none => simp [hafter, hvalue, readTokenValue, hread]
      | some u => simp [hafter, hvalue, readTokenValue, hread]

/-- Without a bare `<uuid>` the uuid that it would stand for plays no part. -/
theorem canonUuid_of_no_bare (h : ¬ "<uuid>".toList <:+: text) (fresh other : Uuid) :
    canonUuid fresh text = canonUuid other text := by
  rw [canonUuid, canonUuid]
  cases hcut : cutToken? text with
  | none => rfl
  | some cut =>
    obtain ⟨before, value, after⟩ := cut
    cases value with
    | none => exact absurd ⟨before, after, (cutToken?_eq_some.mp hcut).1.symm⟩ h
    | some written => rfl

theorem canonUuid_eq_ok : canonUuid fresh text = .ok cleaned ↔ Canonizes fresh text cleaned := by
  constructor
  · intro h
    cases hcut : cutToken? text with
    | none =>
      rw [canonUuid, hcut] at h
      obtain rfl := Except.ok.inj h
      exact .plain (cutToken?_eq_none.mp hcut)
    | some cut =>
      obtain ⟨rfl, hvalue, hclear⟩ := cutToken?_eq_some.mp hcut
      obtain ⟨hafter, u, hread, rfl⟩ := (canonUuid_of_cut hcut).mp h
      exact .token hvalue hread hclear (cutToken?_eq_none.mp hafter)
  · intro h
    cases h with
    | plain free => rw [canonUuid, cutToken?_eq_none.mpr free]
    | token isValue read clear free =>
      refine (canonUuid_of_cut (cutToken?_eq_some.mpr ⟨rfl, isValue, clear⟩)).mpr ?_
      exact ⟨cutToken?_eq_none.mpr free, _, read, rfl⟩

theorem proper_of_readTokenValue (hfresh : fresh.IsProper)
    (h : readTokenValue fresh value = some u) : u.IsProper := by
  cases value with
  | none => exact Option.some.inj h ▸ hfresh
  | some written => exact (Uuid.read_some h).1

/-- After its `<` a token that is read has nothing in it that no uuid has, but for its `>`. -/
theorem tail_uuidToken_subset (h : readTokenValue fresh value = some u) :
    (uuidToken value).tail ⊆ '>' :: uuidChars := by
  cases value with
  | none => decide
  | some written =>
    have hread : Uuid.read? written = some u := h
    have hopening : "uuid:".toList ⊆ '>' :: uuidChars := by decide
    intro c hc
    have hsplit : c ∈ "uuid:".toList ++ written ++ ['>'] := hc
    rcases List.mem_append.mp hsplit with hc | hc
    · rcases List.mem_append.mp hc with hc | hc
      · exact hopening hc
      · exact List.mem_cons_of_mem _ ((Uuid.read_some hread).2 c hc)
    · rw [List.mem_singleton.mp hc]
      exact List.mem_cons_self

theorem lt_not_mem_tail (h : readTokenValue fresh value = some u) :
    '<' ∉ (uuidToken value).tail := by
  intro hlt
  have hmem := tail_uuidToken_subset h hlt
  revert hmem
  decide

/-- What may stand in tokens that are read. -/
def tokenChars : List Char :=
  '<' :: '>' :: uuidChars

theorem uuidToken_subset (h : readTokenValue fresh value = some u) :
    uuidToken value ⊆ tokenChars := by
  obtain ⟨inner, hcons⟩ := uuidToken_eq_cons value
  have htail := tail_uuidToken_subset h
  rw [hcons, List.tail_cons] at htail
  rw [hcons]
  exact List.cons_subset_cons '<' htail

/-- No separator stands in a token that is read. -/
theorem not_mem_uuidToken {d : Char} (hd : d ∉ tokenChars) (h : readTokenValue fresh value = some u) :
    d ∉ uuidToken value :=
  fun hmem => hd (uuidToken_subset h hmem)

theorem dot_not_mem_uuidToken (h : readTokenValue fresh value = some u) :
    '.' ∉ uuidToken value :=
  not_mem_uuidToken (by decide) h

/-- No marker stands in a token that is read. -/
theorem not_colons_uuidToken (h : readTokenValue fresh value = some u) :
    ¬ "::".toList <:+: uuidToken value := by
  cases value with
  | none => decide
  | some written =>
    have hread : Uuid.read? written = some u := h
    have hnot := Uuid.not_colons_of_read hread
    intro hin
    have htoken : uuidToken (some written)
        = '<' :: 'u' :: 'u' :: 'i' :: 'd' :: ':' :: written ++ ['>'] := rfl
    rw [htoken] at hin
    rcases Text.infix_of_infix_append_cons (by decide) hin with hin | hin
    · apply hnot
      simpa [List.infix_cons_iff (a := '<'), List.infix_cons_iff (a := 'u'),
        List.infix_cons_iff (a := 'i'), List.infix_cons_iff (a := 'd')] using hin
    · simp at hin

theorem Uuid.token_eq (u : Uuid) : u.token = uuidToken (some u.hyphenated) := rfl

theorem Uuid.token_ne_nil (u : Uuid) : u.token ≠ [] :=
  uuidToken_ne_nil (some u.hyphenated)

theorem Uuid.IsProper.readTokenValue_eq (h : u.IsProper) (fresh : Uuid) :
    readTokenValue fresh (some u.hyphenated) = some u :=
  h.read_hyphenated

theorem Uuid.IsProper.isTokenValue (h : u.IsProper) : IsTokenValue (some u.hyphenated) := by
  rw [isTokenValue_some]
  intro hclose
  have hmem := h.mem_hyphenated '>' hclose
  revert hmem
  decide

theorem Canonizes.isCanonical (hfresh : fresh.IsProper) (h : Canonizes fresh text cleaned) :
    IsCanonical cleaned.text cleaned.uuid := by
  cases h with
  | plain free => exact .plain free
  | token _ read clear free => exact .token (proper_of_readTokenValue hfresh read) clear free

/-- A canonical text is left alone. -/
theorem IsCanonical.canonizes (h : IsCanonical text uuid) (fresh : Uuid) :
    Canonizes fresh text ⟨text, uuid⟩ := by
  cases h with
  | plain free => exact .plain free
  | token proper clear free =>
    exact .token proper.isTokenValue (proper.readTokenValue_eq fresh) clear free

/-- No marker goes when the uuid is written canonically. -/
theorem Canonizes.colons_infix (h : Canonizes fresh text cleaned) (hin : "::".toList <:+: text) :
    "::".toList <:+: cleaned.text := by
  cases h with
  | plain => exact hin
  | token _ read =>
    rcases infix_append_uuidToken (by decide) (by decide) hin with hin | hin | hin
    · rw [List.append_assoc]
      exact hin.trans (List.prefix_append _ _).isInfix
    · exact absurd hin (not_colons_uuidToken read)
    · exact hin.trans (List.suffix_append _ _).isInfix

/-! ## Tidying -/

variable {d : Char}

theorem infix_of_infix_collapse {piece : List Char} (hne : piece ≠ []) (hd : d ∉ piece)
    {run : Nat} (h : piece <:+: Text.collapseFrom [d] 0 run text) : piece <:+: text := by
  obtain ⟨front, back, heq⟩ := h
  obtain ⟨before, after, rfl, -⟩ := Text.exists_of_collapseFrom_eq hne hd heq.symm
  exact ⟨before, after, rfl⟩

theorem fresh_subset : "<uuid>".toList ⊆ tokenChars := by
  decide

theorem opening_subset : "<uuid:".toList ⊆ tokenChars := by
  decide

theorem IsClear.collapse (h : IsClear text) (hd : d ∉ tokenChars) (run : Nat) :
    IsClear (Text.collapseFrom [d] 0 run text) := by
  constructor
  · intro hfresh
    exact h.no_fresh (infix_of_infix_collapse (by decide) (fun hmem => hd (fresh_subset hmem)) hfresh)
  · intro hopening
    exact h.no_opening
      (infix_of_infix_collapse (by decide) (fun hmem => hd (opening_subset hmem)) hopening)

theorem TokenFree.collapse (h : TokenFree text) (hd : d ∉ tokenChars) (run : Nat) :
    TokenFree (Text.collapseFrom [d] 0 run text) := by
  intro value hvalue htoken
  cases value with
  | none =>
    exact h none isTokenValue_none
      (infix_of_infix_collapse (by decide) (fun hmem => hd (fresh_subset hmem)) htoken)
  | some written =>
    -- The opening comes from the text, and the `>` from what follows it there.
    obtain ⟨front, back, heq⟩ := htoken
    have hsplit : Text.collapseFrom [d] 0 run text
        = front ++ "<uuid:".toList ++ (written ++ ['>'] ++ back) := by
      rw [← heq, List.append_assoc front, List.append_assoc front, uuidToken_some_append]
    obtain ⟨before, after, rfl, hafter⟩ :=
      Text.exists_of_collapseFrom_eq (by decide) (fun hmem => hd (opening_subset hmem)) hsplit
    have hend : '>' ∈ after := by
      have hmem : '>' ∈ Text.collapseFrom [d] 0 0 after := by simp [← hafter]
      exact Text.collapseFrom_sublist.mem hmem
    obtain ⟨found, later, hfound, hlater⟩ := exists_uuidToken_of_mem hend
    refine h found hfound ⟨before, later, ?_⟩
    rw [List.append_assoc, ← hlater, List.append_assoc]

theorem IsCanonical.collapse (h : IsCanonical text uuid) (hd : d ∉ tokenChars) :
    IsCanonical (Text.collapseRuns [d] text) uuid := by
  cases h with
  | plain free => exact .plain (free.collapse hd 0)
  | @token before after u proper clear free =>
    have htoken : d ∉ u.token := not_mem_uuidToken hd (proper.readTokenValue_eq u)
    rw [Text.collapseRuns_single, Text.collapseFrom_append_piece u.token_ne_nil htoken]
    exact .token proper (clear.collapse hd 0) (free.collapse hd 0)

theorem not_gt_mem_of_separator (hd : d ∉ tokenChars) : '>' ∉ [d] := by
  intro hgt
  exact hd (List.mem_singleton.mp hgt ▸ by decide)

theorem TokenFree.concat (h : TokenFree text) (hd : d ∉ tokenChars) : TokenFree (text ++ [d]) :=
  h.append (not_gt_mem_of_separator hd)

/-- A text that is canonical stays so if nothing behind it can end a token. -/
theorem IsCanonical.append (h : IsCanonical text uuid) (hafter : '>' ∉ after) :
    IsCanonical (text ++ after) uuid := by
  cases h with
  | plain free => exact .plain (free.append hafter)
  | token proper clear free =>
    rw [List.append_assoc]
    exact .token proper clear (free.append hafter)

/-- A separator at the end stays there. -/
theorem Canonizes.concat (h : Canonizes fresh text cleaned) (hd : d ∉ tokenChars) :
    Canonizes fresh (text ++ [d]) ⟨cleaned.text ++ [d], cleaned.uuid⟩ := by
  cases h with
  | plain free => exact .plain (free.concat hd)
  | token isValue read clear free =>
    have htoken := Canonizes.token isValue read clear (free.concat hd)
    simpa only [List.append_assoc] using htoken

/-- A separator at the end makes no difference. -/
theorem isCanonical_concat (hd : d ∉ tokenChars) :
    IsCanonical (text ++ [d]) uuid ↔ IsCanonical text uuid := by
  constructor
  · intro h
    generalize htext : text ++ [d] = whole at h
    cases h with
    | plain free => exact .plain ((htext ▸ free).mono (List.prefix_append text [d]).isInfix)
    | @token before after u proper clear free =>
      rcases List.eq_nil_or_concat after with rfl | ⟨front, c, rfl⟩
      · obtain ⟨inner, hinner⟩ := uuidToken_eq_concat (some u.hyphenated)
        rw [List.append_nil, u.token_eq, hinner, ← List.append_assoc] at htext
        have hlast : [d] = ['>'] := (List.append_inj' htext rfl).2
        exact absurd (by simp [tokenChars, List.singleton_inj.mp hlast]) hd
      · rw [List.concat_eq_append] at htext free
        rw [← List.append_assoc] at htext
        obtain ⟨rfl, -⟩ := List.append_inj' htext rfl
        exact .token proper clear (free.mono (List.prefix_append front [c]).isInfix)
  · intro h
    exact h.append (not_gt_mem_of_separator hd)

theorem IsCanonical.stripTrailing (h : IsCanonical text uuid) (hd : d ∉ tokenChars) :
    IsCanonical (Text.stripTrailing [d] text) uuid :=
  Text.stripTrailing_induction (motive := fun text => IsCanonical text uuid)
    (fun _ => (isCanonical_concat hd).mp) h

/-- A canonical text stays canonical when it is tidied. -/
theorem IsCanonical.tidy (h : IsCanonical text uuid) :
    IsCanonical (Text.tidy '.' text) uuid :=
  (h.collapse (by decide)).stripTrailing (by decide)

/-! ## Words

A token that is read has no dot in it, so it stands in one word of a text, and writing the
uuid of the text canonically is writing it so in that word. -/

theorem eq_append_of_append_cons {d : Char} {left right token : List Char} (hne : token ≠ [])
    (hd : d ∉ token) (h : left ++ d :: right = before ++ token ++ after) :
    (∃ later, left = before ++ token ++ later ∧ after = later ++ d :: right) ∨
      ∃ early, right = early ++ token ++ after ∧ before = left ++ d :: early := by
  rw [List.append_assoc] at h
  rcases List.append_eq_append_iff.mp h with ⟨gap, rfl, hgap⟩ | ⟨gap, rfl, hgap⟩
  · cases gap with
    | nil =>
      obtain ⟨c, token, rfl⟩ := List.exists_cons_of_ne_nil hne
      exact absurd (List.mem_cons.mpr (.inl (List.cons.inj hgap).1)) hd
    | cons c gap =>
      obtain ⟨rfl, rfl⟩ := List.cons.inj hgap
      exact .inr ⟨gap, (List.append_assoc _ _ _).symm, rfl⟩
  · rcases List.append_eq_append_iff.mp hgap with ⟨later, rfl, hafter⟩ | ⟨later, htoken, hlater⟩
    · exact .inl ⟨later, (List.append_assoc _ _ _).symm, hafter⟩
    · cases later with
      | nil =>
        refine .inl ⟨[], ?_, hlater.symm⟩
        rw [htoken, List.append_nil, List.append_nil]
      | cons c later =>
        refine absurd ?_ hd
        rw [htoken, (List.cons.inj hlater).1]
        simp

/-- What stands before a dot in a canonical text is canonical, with or without the uuid. -/
theorem IsCanonical.exists_before {left right : List Char}
    (h : IsCanonical (left ++ '.' :: right) uuid) : ∃ found, IsCanonical left found := by
  generalize htext : left ++ '.' :: right = whole at h
  cases h with
  | plain free =>
    rw [← htext] at free
    exact ⟨none, .plain (free.mono (List.prefix_append left ('.' :: right)).isInfix)⟩
  | @token before after u proper clear free =>
    have hdot : '.' ∉ u.token := dot_not_mem_uuidToken (proper.readTokenValue_eq u)
    rcases eq_append_of_append_cons u.token_ne_nil hdot htext with ⟨later, rfl, rfl⟩ | ⟨early, -, rfl⟩
    · have hlater := free.mono (List.prefix_append later ('.' :: right)).isInfix
      exact ⟨some u, .token proper clear hlater⟩
    · have hleft := clear.mono (List.prefix_append left ('.' :: early)).isInfix
      exact ⟨none, .plain hleft.tokenFree⟩

theorem Canonizes.split {left right : List Char}
    (h : Canonizes fresh (left ++ '.' :: right) cleaned) :
    ∃ leftOut rightOut, (∃ uuid, Canonizes fresh left ⟨leftOut, uuid⟩) ∧
      (∃ uuid, Canonizes fresh right ⟨rightOut, uuid⟩) ∧
      cleaned.text = leftOut ++ '.' :: rightOut := by
  generalize htext : left ++ '.' :: right = whole at h
  cases h with
  | plain free =>
    rw [← htext] at free
    have hleft := free.mono (List.prefix_append left ('.' :: right)).isInfix
    have hright := free.mono (List.suffix_append_of_suffix (List.suffix_cons '.' right)).isInfix
    exact ⟨left, right, ⟨none, .plain hleft⟩, ⟨none, .plain hright⟩, htext.symm⟩
  | @token before after value u isValue read clear free =>
    have hdot := dot_not_mem_uuidToken read
    rcases eq_append_of_append_cons (uuidToken_ne_nil value) hdot htext with
      ⟨later, rfl, rfl⟩ | ⟨early, rfl, rfl⟩
    · have hlater := free.mono (List.prefix_append later ('.' :: right)).isInfix
      have hright := free.mono (List.suffix_append_of_suffix (List.suffix_cons '.' right)).isInfix
      refine ⟨before ++ u.token ++ later, right, ⟨some u, .token isValue read clear hlater⟩,
        ⟨none, .plain hright⟩, ?_⟩
      simp only [List.append_assoc]
    · have hleft := clear.mono (List.prefix_append left ('.' :: early)).isInfix
      have hearly := clear.mono
        (List.suffix_append_of_suffix (List.suffix_cons '.' early)).isInfix
      refine ⟨left, early ++ u.token ++ after, ⟨none, .plain hleft.tokenFree⟩,
        ⟨some u, .token isValue read hearly free⟩, ?_⟩
      simp only [List.append_assoc, List.cons_append]

/-- The word that is written for a word when uuids are written canonically. -/
def WritesWord (fresh : Uuid) (word out : List Char) : Prop :=
  ∃ uuid, Canonizes fresh word ⟨out, uuid⟩

/-- The uuid of joined words is written canonically word by word. -/
theorem Canonizes.words {words : List (List Char)} (hne : words ≠ [])
    (h : Canonizes fresh (Text.join ['.'] words) cleaned) :
    ∃ outs, List.Forall₂ (WritesWord fresh) words outs ∧ cleaned.text = Text.join ['.'] outs := by
  induction words generalizing cleaned with
  | nil => exact absurd rfl hne
  | cons word words ih =>
    cases words with
    | nil =>
      rw [Text.join_singleton] at h
      exact ⟨[cleaned.text], .cons ⟨cleaned.uuid, h⟩ .nil, Text.join_singleton _ |>.symm⟩
    | cons next words =>
      rw [Text.join_cons (List.cons_ne_nil next words), List.append_assoc, List.singleton_append]
        at h
      obtain ⟨out, rest, hword, ⟨uuid, hrest⟩, htext⟩ := h.split
      obtain ⟨outs, houts, rfl⟩ := ih (List.cons_ne_nil next words) hrest
      refine ⟨out :: outs, .cons hword houts, ?_⟩
      have hnonempty : outs ≠ [] := by
        rintro rfl
        cases houts
      rw [htext, Text.join_cons hnonempty, List.append_assoc, List.singleton_append]

namespace WritesWord

variable {word out : List Char}

theorem ne_nil (h : WritesWord fresh word out) (hne : word ≠ []) : out ≠ [] := by
  obtain ⟨uuid, h⟩ := h
  cases h with
  | plain => exact hne
  | @token before after value u => simp [u.token_ne_nil]

theorem dot_not_mem (hfresh : fresh.IsProper) (h : WritesWord fresh word out) (hdot : '.' ∉ word) :
    '.' ∉ out := by
  obtain ⟨uuid, h⟩ := h
  cases h with
  | plain => exact hdot
  | @token before after value u _ read =>
    have hproper := proper_of_readTokenValue hfresh read
    have htoken : '.' ∉ u.token := dot_not_mem_uuidToken (hproper.readTokenValue_eq fresh)
    simp only [List.mem_append, not_or] at hdot ⊢
    exact ⟨⟨hdot.1.1, htoken⟩, hdot.2⟩

/-- A canonical word is written as it is. -/
theorem eq_of_isCanonical (h : WritesWord fresh word out) {uuid : Option Uuid}
    (hcanonical : IsCanonical word uuid) : out = word := by
  obtain ⟨found, h⟩ := h
  have hself := canonUuid_eq_ok.mpr (hcanonical.canonizes fresh)
  rw [canonUuid_eq_ok.mpr h] at hself
  exact congrArg Cleaned.text (Except.ok.inj hself)

end WritesWord

end KeyExpansion
