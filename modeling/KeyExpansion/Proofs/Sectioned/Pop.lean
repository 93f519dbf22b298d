-- SUMMARY: Popping never fails and walks up, boundary by boundary, to where popping to the top goes.
import KeyExpansion.Proofs.Sectioned.Decoding
import KeyExpansion.Proofs.Sectioned.Tail
import Mathlib.Data.List.TakeWhile

/-! # Popping

A cut at a boundary is cleaned again, which takes off the dots before the cut, so that a
string of boundaries may go at once. What is left has the words before the boundary, or an
empty word if there are none. So each cut has fewer words than the text before it, and the
words before the first boundary are the same as before. Those are where it ends. -/

namespace KeyExpansion

/-- Every section but the last ends in a colon. -/
def Scheme.EndsInColons (scheme : Scheme) : Prop :=
  ∀ sec ∈ scheme.sections.dropLast, sec.stop.bind List.getLast? = some ':'

/-- The words before a boundary. There is always one. -/
def kept (words : List (List Char)) : List (List Char) :=
  if words.isEmpty then [[]] else words

/-- The words before the first boundary. -/
def summit (words : List (List Char)) : List (List Char) :=
  kept (words.takeWhile fun word => !word.isEmpty)

/-! ## The words before a boundary -/

section Words

variable {words left right : List (List Char)}

theorem kept_of_ne_nil (h : left ≠ []) : kept left = left := by
  rw [kept, if_neg (by simpa using h)]

theorem kept_ne_nil (words : List (List Char)) : kept words ≠ [] := by
  rw [kept]
  split
  · exact List.cons_ne_nil _ _
  · next h => simpa using h

/-- The words before a boundary start those of the text, and there are more. -/
theorem exists_eq_kept_append (left : List (List Char)) (hne : right ≠ []) :
    ∃ more, more ≠ [] ∧ left ++ [] :: right = kept left ++ more := by
  cases left with
  | nil => exact ⟨right, hne, rfl⟩
  | cons word left => exact ⟨[] :: right, List.cons_ne_nil _ _, rfl⟩

theorem takeWhile_append_nil_cons (left right : List (List Char)) :
    (left ++ [] :: right).takeWhile (fun word => !word.isEmpty)
      = left.takeWhile fun word => !word.isEmpty := by
  induction left with
  | nil => rfl
  | cons word left ih => rw [List.cons_append, List.takeWhile_cons, List.takeWhile_cons, ih]

/-- The words before the first boundary are before every other one. -/
theorem summit_kept (left right : List (List Char)) :
    summit (kept left) = summit (left ++ [] :: right) := by
  rw [summit, summit, takeWhile_append_nil_cons]
  cases left <;> rfl

theorem takeWhile_of_ne_nil (h : ∀ word ∈ words, word ≠ []) :
    words.takeWhile (fun word => !word.isEmpty) = words := by
  rw [List.takeWhile_eq_self_iff]
  intro word hword
  simpa using h word hword

theorem summit_of_first (h : ∀ word ∈ left, word ≠ []) :
    summit (left ++ [] :: right) = kept left := by
  rw [summit, takeWhile_append_nil_cons, takeWhile_of_ne_nil h]

/-- The first boundary, or the last one. -/
theorem exists_boundary {init : List (List Char)} (hmem : [] ∈ init) (top : Bool) :
    ∃ left right, init = left ++ [] :: right ∧ [] ∉ if top then left else right := by
  cases top with
  | true => exact List.eq_append_cons_of_mem hmem
  | false =>
    obtain ⟨left, right, hinit, hnot⟩ := List.eq_append_cons_of_mem (List.mem_reverse.mpr hmem)
    refine ⟨right.reverse, left.reverse, ?_, by simpa using hnot⟩
    rw [← List.reverse_reverse init, hinit]
    simp

end Words

/-! ## What stands before the last section -/

namespace Scheme

variable {scheme : Scheme} {sections : List Section} {rows : List (List (List Char))}
  {text : List Char}

theorem endsInColons_of_declared (h : scheme = .basic ∨ scheme = .codeRef) :
    scheme.EndsInColons := by
  rcases h with rfl | rfl <;> unfold EndsInColons <;> decide

/-- If the last section is empty, a text ends in the colon before it. -/
theorem Writes.getLast?_of_empty (h : Writes sections rows text)
    (hrequired : ∀ sec ∈ sections, sec.required = true)
    (hcolons : ∀ sec ∈ sections.dropLast, sec.stop.bind List.getLast? = some ':')
    (hlast : rows.getLast? = some [[]]) : text.getLast? = none ∨ text.getLast? = some ':' := by
  induction h with
  | last split =>
    obtain rfl := Option.some.inj hlast
    rw [← split.join_eq]
    exact .inl rfl
  | @cons sec next more words rows text rest takes later ih =>
    obtain ⟨hsec, hmore⟩ := List.forall_mem_cons.mp hrequired
    rw [List.dropLast_cons_cons] at hcolons
    obtain ⟨hcolon, hcolons⟩ := List.forall_mem_cons.mp hcolons
    have hrows : rows ≠ [] := by
      rintro rfl
      cases later
    rw [List.getLast?_cons_of_ne_nil hrows] at hlast
    have hrest := ih hmore hcolons hlast
    right
    cases takes with
    | unended stop _ => rw [stop] at hcolon; cases hcolon
    | absent _ optional _ => rw [hsec] at optional; cases optional
    | ended stop first split =>
      rw [stop, Option.bind_some] at hcolon
      rw [List.getLast?_append, List.getLast?_append, hcolon]
      rcases hrest with hrest | hrest <;> rw [hrest] <;> rfl

end Scheme

namespace Sectioned

variable {scheme : Scheme} {parts : List Part} {front : List Char} {words left right : List (List Char)}
  {s t x : Sectioned scheme}

/-- No dot stands before the last section. -/
theorem Leads.not_suffix (hdotted : scheme.IsDotted) (hcolons : scheme.EndsInColons)
    (hleads : Leads scheme parts front) : ¬ ['.'] <:+ front := by
  obtain ⟨early, hwrites⟩ := hleads.writes
  have hempty := hwrites [] [[]] (Text.splits_splitOn ['.'] [])
  rw [List.append_nil] at hempty
  have hlast := hempty.getLast?_of_empty hdotted.required hcolons List.getLast?_concat
  rintro ⟨before, rfl⟩
  simp at hlast

/-- What is known of a text that reads as itself: that it is clean, and which words its last
section has behind `front`. -/
structure Carries (s : Sectioned scheme) (parts : List Part) (front : List Char)
    (words : List (List Char)) : Prop where
  isClean : ∃ uuid, scheme.IsClean s.text uuid
  parse_eq : ∀ fresh, parse scheme fresh s.text = .ok s
  endsWith : s.EndsWith parts front (Text.join ['.'] words) words

theorem Carries.eq_of_text_eq (hs : s.Carries parts front words) (ht : t.Carries parts front left)
    (h : s.text = t.text) : s = t := by
  have hparse := hs.parse_eq (Uuid.ofSeed 0)
  rw [h, ht.parse_eq] at hparse
  exact (Except.ok.inj hparse).symm

/-- Words tell texts with the same front apart. -/
theorem Carries.unique (hs : s.Carries parts front words) (ht : t.Carries parts front words) :
    s = t := by
  apply hs.eq_of_text_eq ht
  rw [hs.endsWith.text_eq, ht.endsWith.text_eq]

theorem exists_carries (hdotted : scheme.IsDotted) {fresh : Uuid} {text : List Char}
    (hfresh : fresh.IsProper) (h : parse scheme fresh text = .ok x) :
    ∃ parts front words, Leads scheme parts front ∧ x.Carries parts front words := by
  obtain ⟨uuid, -, hclean⟩ := isClean_of_parse hdotted hfresh h
  obtain ⟨-, -, hlayout⟩ := parse_eq_ok h
  obtain ⟨parts, front, body, words, hleads, hends⟩ := exists_leads hdotted hlayout
  obtain rfl := hends.split.join_eq
  exact ⟨parts, front, words, hleads, ⟨uuid, hclean⟩, parse_text_eq hdotted hfresh h, hends⟩

/-- Words behind `front` are parsed as they are if they make a clean text with it. -/
theorem Leads.exists_parse (hdotted : scheme.IsDotted) (hleads : Leads scheme parts front)
    {uuid : Option Uuid} (hne : words ≠ []) (hdots : ∀ word ∈ words, '.' ∉ word)
    (htidy : Text.IsTidy '.' (front ++ Text.join ['.'] words))
    (hcanonical : IsCanonical (front ++ Text.join ['.'] words) uuid) :
    ∃ s : Sectioned scheme, s.Carries parts front words ∧
      scheme.IsClean (front ++ Text.join ['.'] words) uuid := by
  have hsplits := Text.splits_join hne hdots
  obtain ⟨early, hwrites⟩ := hleads.writes
  have hlayout := (hwrites _ _ hsplits).layOutFrom_eq hdotted.stop_ne_nil (Nat.zero_le _) rfl
  have hclean : scheme.IsClean (front ++ Text.join ['.'] words) uuid :=
    ⟨htidy, hcanonical, hdotted.hasMarkers hlayout⟩
  obtain ⟨s, htext, hplace, hparse⟩ := exists_parse_of_isClean hdotted hclean hlayout
  have hends : s.EndsWith parts front (Text.join ['.'] words) words := by
    apply hleads.endsWith s _ _ _ htext hsplits
    rw [htext, hplace]
    exact hlayout
  exact ⟨s, ⟨⟨uuid, htext ▸ hclean⟩, htext ▸ hparse, hends⟩, hclean⟩

/-! ## One cut -/

namespace Carries

section Cut

variable (hdotted : scheme.IsDotted) (hfront : ¬ ['.'] <:+ front)
  (h : s.Carries parts front (left ++ [] :: right)) (hne : right ≠ [])

include h hne

/-- The text goes on with a dot behind the words before a boundary. -/
theorem text_eq_kept : ∃ rest, s.text = front ++ Text.join ['.'] (kept left) ++ '.' :: rest ∧
    (left ≠ [] → ['.'] <+: rest) := by
  obtain ⟨word, right, rfl⟩ := List.exists_cons_of_ne_nil hne
  rw [h.endsWith.text_eq]
  cases left with
  | nil =>
    refine ⟨Text.join ['.'] (word :: right), ?_, fun hleft => absurd rfl hleft⟩
    rw [List.nil_append, Text.join_cons (List.cons_ne_nil word right)]
    simp [kept]
  | cons first left =>
    refine ⟨'.' :: Text.join ['.'] (word :: right), ?_, fun _ => ⟨_, rfl⟩⟩
    rw [Text.join_append _ (List.cons_ne_nil _ _), Text.flatMap_append_sep (List.cons_ne_nil _ _),
      Text.join_cons (List.cons_ne_nil word right), kept_of_ne_nil (List.cons_ne_nil first left)]
    simp

include hfront

theorem isTidy_kept : Text.IsTidy '.' (front ++ Text.join ['.'] (kept left)) := by
  obtain ⟨uuid, hclean⟩ := h.isClean
  obtain ⟨rest, htext, hrest⟩ := h.text_eq_kept hne
  have htidy := hclean.tidy
  rw [htext] at htidy
  constructor
  · intro hrun
    exact htidy.no_run (hrun.trans (List.prefix_append _ _).isInfix)
  · intro hend
    by_cases hleft : left = []
    · subst hleft
      apply hfront
      simpa [kept] using hend
    · -- Two dots follow, so a third one makes a run.
      obtain ⟨before, hbefore⟩ := hend
      obtain ⟨after, hafter⟩ := hrest hleft
      apply htidy.no_run
      refine ⟨before, after, ?_⟩
      rw [← hbefore, ← hafter]
      simp

include hdotted

/-- The text up to a boundary is parsed, and its last section has the words before it. -/
theorem exists_cut (hleads : Leads scheme parts front) :
    ∃ r : Sectioned scheme, r.Carries parts front (kept left) ∧
      ∀ fresh, parse scheme fresh (front ++ left.flatMap (· ++ ['.'])) = .ok r := by
  obtain ⟨uuid, hclean⟩ := h.isClean
  obtain ⟨rest, htext, -⟩ := h.text_eq_kept hne
  have hcanonical := hclean.canonical
  rw [htext] at hcanonical
  obtain ⟨found, hfound⟩ := hcanonical.exists_before
  have hdots : ∀ word ∈ kept left, '.' ∉ word := by
    intro word hword
    obtain ⟨more, -, hmore⟩ := exists_eq_kept_append left hne
    refine h.endsWith.split.not_mem word ?_
    rw [hmore]
    exact List.mem_append_left more hword
  obtain ⟨r, hr, hcleanCut⟩ :=
    hleads.exists_parse hdotted (kept_ne_nil left) hdots (h.isTidy_kept hfront hne) hfound
  refine ⟨r, hr, ?_⟩
  intro fresh
  rw [← hr.parse_eq fresh, hr.endsWith.text_eq]
  by_cases hleft : left = []
  · subst hleft
    rfl
  · -- The dot behind the last word is cleaned away.
    rw [Text.flatMap_append_sep hleft, kept_of_ne_nil hleft, ← List.append_assoc]
    rw [kept_of_ne_nil hleft] at hcleanCut
    apply parse_congr
    rw [hcleanCut.clean_concat hdotted, hcleanCut.clean_eq hdotted]

end Cut

/-! ## One pop -/

section Pop

variable (hdotted : scheme.IsDotted) (hfront : ¬ ['.'] <:+ front) (hleads : Leads scheme parts front)
  (h : s.Carries parts front words)

include h

/-- Without a boundary the words before the first one are all there are. -/
theorem summit_eq (hnone : [] ∉ words.dropLast) : summit words = words := by
  obtain ⟨uuid, hclean⟩ := h.isClean
  have hwords := List.dropLast_concat_getLast h.endsWith.split.ne_nil
  have hinit : ∀ word ∈ words.dropLast, word ≠ [] := by
    rintro word hword rfl
    exact hnone hword
  generalize words.getLast h.endsWith.split.ne_nil = last at hwords
  generalize hdrop : words.dropLast = init at hwords hinit
  by_cases hlast : last = []
  · have hnil : init = [] := by
      by_contra hne
      exact h.endsWith.last_ne_nil hclean.tidy.no_end hwords.symm hne hlast
    rw [← hwords, hlast, hnil]
    rfl
  · have hall : ∀ word ∈ words, word ≠ [] := by
      rw [← hwords, List.forall_mem_append]
      exact ⟨hinit, by simpa using hlast⟩
    rw [summit, takeWhile_of_ne_nil hall, kept_of_ne_nil h.endsWith.split.ne_nil]

theorem pop_eq_self (hnone : [] ∉ words.dropLast) (fresh : Uuid) (top : Bool) :
    s.pop fresh top = .ok s := by
  apply h.endsWith.pop_eq_self
  rintro word hword rfl
  exact hnone hword

include hdotted hfront hleads

/-- With a boundary popping gives a text with the words before it. -/
theorem exists_pop (hmem : [] ∈ words.dropLast) (top : Bool) :
    ∃ left right, words = left ++ [] :: right ∧ right ≠ [] ∧ (top = true → ∀ word ∈ left, word ≠ []) ∧
      ∃ r : Sectioned scheme, r.Carries parts front (kept left) ∧ ∀ fresh, s.pop fresh top = .ok r := by
  obtain ⟨uuid, hclean⟩ := h.isClean
  obtain ⟨left, mid, hdrop, hnot⟩ := exists_boundary hmem top
  have hwords := List.dropLast_concat_getLast h.endsWith.split.ne_nil
  generalize words.getLast h.endsWith.split.ne_nil = last at hwords
  rw [hdrop] at hwords
  have hlast : last ≠ [] := h.endsWith.last_ne_nil hclean.tidy.no_end hwords.symm (by simp)
  rw [List.append_assoc, List.cons_append] at hwords
  have hne : mid ++ [last] ≠ [] := by simp
  have hcarries : s.Carries parts front (left ++ [] :: (mid ++ [last])) := hwords ▸ h
  obtain ⟨r, hr, hparse⟩ := hcarries.exists_cut hdotted hfront hne hleads
  refine ⟨left, mid ++ [last], hwords.symm, hne, ?_, r, hr, ?_⟩
  · rintro rfl word hword rfl
    exact hnot hword
  · intro fresh
    rw [← hparse fresh]
    cases top with
    | true =>
      apply hcarries.endsWith.pop_top_eq rfl hne
      rintro word hword rfl
      exact hnot hword
    | false =>
      apply hcarries.endsWith.pop_eq rfl hne
      rintro word hword rfl
      rcases List.mem_append.mp hword with hword | hword
      · exact hnot hword
      · exact hlast (List.mem_singleton.mp hword).symm

end Pop

end Carries

/-! ## Popping again and again -/

/-- Pop to the last boundary as many times as told. -/
def popTimes (supply : Nat → Uuid) : Nat → Sectioned scheme → Except Error (Sectioned scheme)
  | 0, s => .ok s
  | count + 1, s => do
    let next ← s.pop (supply count) false
    popTimes supply count next

section Walk

variable (hdotted : scheme.IsDotted) (hfront : ¬ ['.'] <:+ front) (hleads : Leads scheme parts front)

include hdotted hfront hleads

/-- By induction on the words: each pop takes at least one off and keeps those before the first
boundary, and without boundaries these are all. -/
theorem Carries.exists_popTimes (h : s.Carries parts front words) :
    ∃ (r : Sectioned scheme) (count : Nat), r.Carries parts front (summit words) ∧
      count < words.length ∧ (∀ supply, popTimes supply count s = .ok r) ∧
      ∀ fresh, r.pop fresh false = .ok r := by
  induction hlength : words.length using Nat.strong_induction_on generalizing words s with
  | _ length ih =>
    subst hlength
    by_cases hmem : [] ∈ words.dropLast
    · obtain ⟨left, right, rfl, hne, -, next, hnext, hpop⟩ :=
        h.exists_pop hdotted hfront hleads hmem false
      have hshorter : (kept left).length < (left ++ [] :: right).length := by
        obtain ⟨more, hmore, heq⟩ := exists_eq_kept_append left hne
        have hpos := List.length_pos_of_ne_nil hmore
        rw [heq, List.length_append]
        omega
      obtain ⟨r, count, hr, hcount, hrun, hstays⟩ := ih _ hshorter hnext rfl
      refine ⟨r, count + 1, summit_kept left right ▸ hr, by omega, ?_, hstays⟩
      intro supply
      rw [popTimes, hpop]
      exact hrun supply
    · refine ⟨s, 0, ?_, List.length_pos_of_ne_nil h.endsWith.split.ne_nil, fun _ => rfl, ?_⟩
      · rwa [h.summit_eq hmem]
      · intro fresh
        exact h.pop_eq_self hmem fresh false

/-- Popping to the top goes there at once. -/
theorem Carries.exists_pop_top (h : s.Carries parts front words) :
    ∃ r : Sectioned scheme, r.Carries parts front (summit words) ∧
      ∀ fresh, s.pop fresh true = .ok r := by
  by_cases hmem : [] ∈ words.dropLast
  · obtain ⟨left, right, rfl, -, hfirst, r, hr, hpop⟩ := h.exists_pop hdotted hfront hleads hmem true
    refine ⟨r, ?_, hpop⟩
    rwa [summit_of_first (hfirst rfl)]
  · refine ⟨s, ?_, fun fresh => h.pop_eq_self hmem fresh true⟩
    rwa [h.summit_eq hmem]

end Walk

/-! ## What popping comes to -/

/-- Popping gives an ancestor or the text itself, and the latter if there is no boundary between
the words. Popping to the last boundary again and again ends where popping to the top goes. -/
structure WalksUp (x : Sectioned scheme) (words : List (List Char)) : Prop where
  words_eq : x.words? x.lastSection = some words
  words_suffix : words <:+ x.allWords
  pops : ∀ top, ∃ r, (∀ fresh, x.pop fresh top = .ok r) ∧ r.isAncestorOrEq x = true ∧
    (r.same x = true ↔ [] ∉ words.dropLast) ∧ (r.same x = true → r = x)
  /-- Each time but the last there is a word less. -/
  ends : ∃ r count, (∀ fresh, x.pop fresh true = .ok r) ∧ count < words.length ∧
    (∀ supply, popTimes supply count x = .ok r) ∧ ∀ fresh, r.pop fresh false = .ok r

theorem EndsWith.suffix_allWords {body : List Char} (h : s.EndsWith parts front body words) :
    words <:+ s.allWords := by
  obtain ⟨sec, hsep, hlayout⟩ := h.layout_eq
  have hlast : s.wordsOf (Part.at sec front.length words) = words :=
    Scheme.at_words (hsep ▸ h.join_prefix)
  refine ⟨parts.flatMap s.wordsOf, ?_⟩
  rw [allWords, hlayout, List.flatMap_append, List.flatMap_singleton, hlast]

section Walk

variable (hdotted : scheme.IsDotted) (hfront : ¬ ['.'] <:+ front) (hleads : Leads scheme parts front)

include hdotted hfront hleads

theorem Carries.pops (h : s.Carries parts front words) (top : Bool) :
    ∃ r, (∀ fresh, s.pop fresh top = .ok r) ∧ r.isAncestorOrEq s = true ∧
      (r.same s = true ↔ [] ∉ words.dropLast) ∧ (r.same s = true → r = s) := by
  by_cases hmem : [] ∈ words.dropLast
  · obtain ⟨left, right, rfl, hne, -, r, hr, hpop⟩ := h.exists_pop hdotted hfront hleads hmem top
    obtain ⟨more, hmore, heq⟩ := exists_eq_kept_append left hne
    obtain ⟨hancestor, hnot⟩ := hr.endsWith.isAncestorOf_append hmore (heq ▸ h.endsWith)
    have hother : r.same s = false := by
      rw [← Bool.not_eq_true]
      intro hsame
      obtain rfl := hr.eq_of_text_eq h (by simpa [same] using hsame)
      rw [hnot] at hancestor
      cases hancestor
    refine ⟨r, hpop, ?_, ?_, ?_⟩
    · rw [isAncestorOrEq, hancestor, Bool.or_true]
    · simpa only [hother, Bool.false_eq_true, false_iff, not_not] using hmem
    · simp [hother]
  · refine ⟨s, fun fresh => h.pop_eq_self hmem fresh top, ?_, ?_, fun _ => rfl⟩
    · simp [isAncestorOrEq, same]
    · simp [same, hmem]

theorem Carries.walksUp (h : s.Carries parts front words) : s.WalksUp words := by
  obtain ⟨r, count, hr, hcount, hrun, hstays⟩ := h.exists_popTimes hdotted hfront hleads
  obtain ⟨top, htop, hpop⟩ := h.exists_pop_top hdotted hfront hleads
  obtain rfl := hr.unique htop
  exact {
    words_eq := h.endsWith.words?_last
    words_suffix := h.endsWith.suffix_allWords
    pops := h.pops hdotted hfront hleads
    ends := ⟨r, count, hpop, hcount, hrun, hstays⟩ }

end Walk

/-- Popping never fails, whatever the text is, and walks up to where popping to the top goes. -/
theorem pop_walksUp (hscheme : scheme = .basic ∨ scheme = .codeRef) {fresh : Uuid} {text : List Char}
    (hfresh : fresh.IsProper) (h : parse scheme fresh text = .ok x) : ∃ words, x.WalksUp words := by
  have hdotted := Scheme.isDotted_of_declared hscheme
  have hcolons := Scheme.endsInColons_of_declared hscheme
  obtain ⟨parts, front, words, hleads, hx⟩ := exists_carries hdotted hfresh h
  exact ⟨words, hx.walksUp hdotted (hleads.not_suffix hdotted hcolons) hleads⟩

/-- Two boundaries at the start of a section go at once, and the text has no other word there. -/
theorem pop_walksUp_twice :
    ∃ x r : Sectioned .codeRef, parse .codeRef (Uuid.ofSeed 1) "g::m:..a.<uuid>..b".toList = .ok x ∧
      x.WalksUp [[], [], ['a'], "<uuid:00000000-0000-4000-8000-000000000001>".toList, [], ['b']] ∧
      r.text = "g::m:".toList ∧ ∀ fresh, x.pop fresh true = .ok r := by
  have hparse : parse .codeRef (Uuid.ofSeed 1) "g::m:..a.<uuid>..b".toList = .ok _ := rfl
  obtain ⟨words, hwalks⟩ := pop_walksUp (.inr rfl) (Uuid.isProper_ofSeed 1) hparse
  obtain rfl := Option.some.inj hwalks.words_eq
  exact ⟨_, _, hparse, hwalks, rfl, fun fresh => rfl⟩

end Sectioned

end KeyExpansion
