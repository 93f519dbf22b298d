-- SUMMARY: Pushing words extends a text by them and nothing else, and popping takes them off.
import KeyExpansion.Proofs.Sectioned.Tail

/-! # Push and pop

Pushing joins words to the text behind a boundary, and the result is cleaned and laid out
again. The text before the boundary is clean already, and the words neither bring a run of
dots nor end in one, so cleaning changes nothing but a uuid token in one of the words. -/

namespace KeyExpansion

/-- The text `p` is `x` with these values pushed: behind an empty word they are the new
words of the last section, popping takes them off, and nothing else is different. -/
structure IsPushed {scheme : Scheme} (fresh : Uuid) (values : List Addition)
    (x p : Sectioned scheme) : Prop where
  sectionCount_eq : p.sectionCount = x.sectionCount
  early_eq : ∀ n, n + 1 < x.sectionCount →
    p.sectionText? (.position n) = x.sectionText? (.position n)
  words_eq : ∃ old new, x.words? x.lastSection = some old ∧
    List.Forall₂ (fun (value : Addition) word => WritesWord fresh value.render word) values new ∧
    (x.sectionText? x.lastSection = some [] →
      old = [[]] ∧ p.words? p.lastSection = some (old ++ new)) ∧
    (x.sectionText? x.lastSection ≠ some [] →
      p.words? p.lastSection = some (old ++ [] :: new))
  ancestor : x.isAncestorOf p = true
  not_ancestor : p.isAncestorOf x = false
  pop_eq : ∀ fresh', p.pop fresh' false = .ok x

/-! ## The words that are pushed -/

namespace Scheme

variable {scheme : Scheme} {values : List Addition} {words : List (List Char)}

theorem IsDotted.wordFor_eq_ok (h : scheme.IsDotted) {value : Addition} {word : List Char}
    (hword : scheme.wordFor value = .ok word) :
    word = value.render ∧ (value.isUuid = false → '.' ∉ value.render) := by
  rw [wordFor] at hword
  split at hword
  · cases hword
  · next hnone =>
    refine ⟨(Except.ok.inj hword).symm, ?_⟩
    intro huuid hdot
    have hbreak : ['.'] ∈ scheme.breaks := by simp [breaks, h.lastSeparator_eq]
    have hnot := List.find?_eq_none.mp hnone ['.'] hbreak
    have hcontains : Text.contains ['.'] value.render = true :=
      Text.contains_eq_true.mpr ((List.singleton_infix_iff _ _).mpr hdot)
    simp [huuid, hcontains] at hnot

/-- The words are what the values render to, and no dot stands in them. -/
theorem IsDotted.mapM_wordFor (h : scheme.IsDotted)
    (hproper : ∀ u, Addition.uuid (some u) ∈ values → u.IsProper)
    (hwords : values.mapM scheme.wordFor = .ok words) :
    words = values.map Addition.render ∧ ∀ word ∈ words, '.' ∉ word := by
  have hforall := Except.mapM_eq_ok.mp hwords
  clear hwords
  induction hforall with
  | nil => simp
  | @cons value word values words hword _ ih =>
    obtain ⟨rfl, hdot⟩ := h.wordFor_eq_ok hword
    obtain ⟨rfl, hwords⟩ := ih fun u hu => hproper u (List.mem_cons_of_mem value hu)
    refine ⟨rfl, List.forall_mem_cons.mpr ⟨?_, hwords⟩⟩
    cases value with
    | word w => exact hdot rfl
    | int i => exact hdot rfl
    | mark m => exact hdot rfl
    | uuid value =>
      cases value with
      | none => decide
      | some u =>
        have hu : u.IsProper := hproper u List.mem_cons_self
        exact dot_not_mem_uuidToken (hu.readTokenValue_eq u)

end Scheme

namespace Sectioned

variable {scheme : Scheme} {fresh : Uuid} {values : List Addition} {x p : Sectioned scheme}

/-- The empty word before the pushed ones, unless the last section is empty and has it. -/
def boundaryWord (body : List Char) : List (List Char) :=
  if body.isEmpty then [] else [[]]

theorem boundaryWord_of_ne_nil {body : List Char} (h : body ≠ []) : boundaryWord body = [[]] := by
  rw [boundaryWord, if_neg (by simpa using h)]

theorem eq_nil_of_mem_boundaryWord {body word : List Char} (h : word ∈ boundaryWord body) :
    word = [] := by
  rw [boundaryWord] at h
  split at h
  · cases h
  · exact List.mem_singleton.mp h

/-- What is parsed for a push: the words joined to the text behind a boundary. -/
theorem push_eq_ok (hdotted : scheme.IsDotted) {parts : List Part} {front body : List Char}
    {old : List (List Char)} (hx : x.EndsWith parts front body old) (hend : ¬ ['.'] <:+ x.text)
    (h : x.push fresh values = .ok p) :
    ∃ words, values.mapM scheme.wordFor = .ok words ∧
      parse scheme fresh (Text.join ['.'] (x.text :: (boundaryWord body ++ words))) = .ok p := by
  have hne : scheme.sections.isEmpty = false := by simpa using hdotted.sections_ne_nil
  rw [push, hne, if_neg Bool.false_ne_true] at h
  obtain ⟨words, hwords, hparse⟩ := Except.bind_eq_ok.mp h
  refine ⟨words, hwords, ?_⟩
  rw [hx.endsInBoundary_eq hend, hdotted.lastSeparator_eq] at hparse
  rw [← hparse, Text.join_cons_eq, boundaryWord]
  cases body.isEmpty <;> simp

/-- A word that is a boundary is written as it is. -/
theorem forall₂_boundaryWord {body : List Char} {words outs : List (List Char)}
    (h : List.Forall₂ (WritesWord fresh) (boundaryWord body ++ words) outs) :
    ∃ new, outs = boundaryWord body ++ new ∧ List.Forall₂ (WritesWord fresh) words new := by
  rw [boundaryWord] at h ⊢
  split at h
  · next hbody =>
    rw [if_pos hbody]
    exact ⟨outs, rfl, h⟩
  · next hbody =>
    rw [if_neg hbody]
    cases h with
    | @cons _ out _ new hout hnew =>
      have hempty : IsCanonical [] none := .plain isClear_nil.tokenFree
      exact ⟨new, by rw [hout.eq_of_isCanonical hempty]; rfl, hnew⟩

theorem new_words {words new : List (List Char)} (hfresh : fresh.IsProper)
    (hnew : List.Forall₂ (WritesWord fresh) words new)
    (hwords : ∀ word ∈ words, word ≠ [] ∧ '.' ∉ word) : ∀ word ∈ new, word ≠ [] ∧ '.' ∉ word := by
  induction hnew with
  | nil => simp
  | cons hword _ ih =>
    obtain ⟨⟨hne, hdot⟩, hwords⟩ := List.forall_mem_cons.mp hwords
    exact List.forall_mem_cons.mpr ⟨⟨hword.ne_nil hne, hword.dot_not_mem hfresh hdot⟩, ih hwords⟩

/-- Cleaning changes no more than the uuid token among the words that were joined. -/
theorem text_of_parse_join (hdotted : scheme.IsDotted) (hfresh : fresh.IsProper)
    {uuid : Option Uuid} (hclean : scheme.IsClean x.text uuid) {body : List Char}
    {words : List (List Char)} (hne : words ≠ []) (hwords : ∀ word ∈ words, word ≠ [] ∧ '.' ∉ word)
    (h : parse scheme fresh (Text.join ['.'] (x.text :: (boundaryWord body ++ words))) = .ok p) :
    ∃ new, List.Forall₂ (WritesWord fresh) words new ∧ (∀ word ∈ new, word ≠ [] ∧ '.' ∉ word) ∧
      p.text = Text.join ['.'] (x.text :: (boundaryWord body ++ new)) := by
  obtain ⟨found, hcleaned, -⟩ := parse_eq_ok h
  obtain ⟨canonized, hcanon, heq⟩ := hdotted.clean_eq_ok hcleaned
  have hmarkers := hclean.markers.append
    ((boundaryWord body ++ words).flatMap (['.'] ++ ·))
  rw [← Text.join_cons_eq] at hmarkers
  rw [hmarkers.withLead_eq] at hcanon
  obtain ⟨outs, houts, htext⟩ := hcanon.words (List.cons_ne_nil _ _)
  cases houts with
  | @cons _ first _ rest hfirst hrest =>
    obtain rfl := hfirst.eq_of_isCanonical hclean.canonical
    obtain ⟨new, rfl, hnew⟩ := forall₂_boundaryWord hrest
    have hnewWords := new_words hfresh hnew hwords
    have hnewNe : new ≠ [] := by
      rintro rfl
      cases hnew
      exact hne rfl
    have htidy : Text.IsTidy '.' (Text.join ['.'] (x.text :: (boundaryWord body ++ new))) := by
      rw [boundaryWord]
      split
      · exact hclean.tidy.join hnewWords
      · exact hclean.tidy.join_gap hnewNe hnewWords
    refine ⟨new, hnew, hnewWords, ?_⟩
    calc
      p.text = Text.tidy '.' canonized.text := congrArg Cleaned.text heq
      _ = Text.join ['.'] (x.text :: (boundaryWord body ++ new)) := by rw [htext, htidy.tidy_eq]

/-- The last section of a text with words joined to it has these words behind its own. -/
theorem endsWith_join {parts : List Part} {front body : List Char} {old more : List (List Char)}
    (hx : x.EndsWith parts front body old) (hne : more ≠ []) (hmore : ∀ word ∈ more, '.' ∉ word)
    (hsame : ∀ (t : Sectioned scheme) body' words', scheme.layOut t.text = .ok t.layout →
      t.text = front ++ body' → Text.Splits ['.'] body' words' →
      t.EndsWith parts front body' words')
    (hlayout : scheme.layOut p.text = .ok p.layout)
    (htext : p.text = Text.join ['.'] (x.text :: more)) :
    p.EndsWith parts front (Text.join ['.'] (body :: more)) (old ++ more) := by
  refine hsame p _ _ hlayout ?_ (hx.split.join_cons hne hmore)
  rw [htext, hx.text_eq, Text.join_cons_eq, Text.join_cons_eq, List.append_assoc]

/-- The only word of an empty section. -/
theorem words_of_empty {parts : List Part} {front : List Char} {old : List (List Char)}
    (hx : x.EndsWith parts front [] old) : old = [[]] :=
  hx.split.eq_splitOn

/-- Popping cuts back to the text that was pushed to, or leaves a dot behind it. -/
theorem pop_eq_parse {parts : List Part} {front body body' : List Char}
    {old new : List (List Char)} (hx : x.EndsWith parts front body old)
    (hp : p.EndsWith parts front body' (old ++ (boundaryWord body ++ new))) (hne : new ≠ [])
    (hnew : ∀ word ∈ new, word ≠ []) (fresh : Uuid) :
    p.pop fresh false = parse scheme fresh x.text ∨
      p.pop fresh false = parse scheme fresh (x.text ++ ['.']) := by
  rw [hx.text_eq]
  cases body with
  | nil =>
    obtain rfl := words_of_empty hx
    have hwords : [[]] ++ (boundaryWord [] ++ new) = [] ++ [] :: new := rfl
    exact .inl (hp.pop_eq hwords hne hnew fresh)
  | cons c body =>
    have hwords : old ++ (boundaryWord (c :: body) ++ new) = old ++ [] :: new := rfl
    right
    rw [hp.pop_eq hwords hne hnew fresh, Text.flatMap_append_sep hx.split.ne_nil, hx.split.join_eq,
      List.append_assoc]

/-- What is known of the last sections tells that a text was pushed. -/
theorem isPushed_of_endsWith {parts : List Part} {front body body' : List Char}
    {old new : List (List Char)} (hx : x.EndsWith parts front body old)
    (hp : p.EndsWith parts front body' (old ++ (boundaryWord body ++ new))) (hne : new ≠ [])
    (hnew : List.Forall₂ (fun (value : Addition) word => WritesWord fresh value.render word)
      values new)
    (hpop : ∀ fresh', p.pop fresh' false = .ok x) : IsPushed fresh values x p := by
  have hmore : boundaryWord body ++ new ≠ [] := List.append_ne_nil_of_right_ne_nil _ hne
  obtain ⟨hancestor, hnotAncestor⟩ := hx.isAncestorOf_append hmore hp
  refine {
    sectionCount_eq := by rw [hx.sectionCount_eq, hp.sectionCount_eq]
    early_eq := ?_
    words_eq := ⟨old, new, hx.words?_last, hnew, ?_, ?_⟩
    ancestor := hancestor
    not_ancestor := hnotAncestor
    pop_eq := hpop }
  · intro n hn
    rw [hx.sectionCount_eq] at hn
    have hlt : n < parts.length := by omega
    rw [hx.sectionText?_early hlt, hp.sectionText?_early hlt]
  · intro hempty
    rw [hx.sectionText?_last] at hempty
    obtain rfl := Option.some.inj hempty
    exact ⟨words_of_empty hx, hp.words?_last⟩
  · intro hnonempty
    have hbody : body ≠ [] := by
      rintro rfl
      exact hnonempty hx.sectionText?_last
    rw [hp.words?_last, boundaryWord_of_ne_nil hbody]
    rfl

/-- A text, a text pushed from it, and where the new words stand. -/
structure Pushed (fresh : Uuid) (values : List Addition) (x p : Sectioned scheme)
    (parts : List Part) (front body : List Char) (old new : List (List Char)) : Prop where
  parsed : ∃ text, parse scheme fresh text = .ok p
  base : x.EndsWith parts front body old
  text_eq : p.text = Text.join ['.'] (x.text :: (boundaryWord body ++ new))
  endsWith : p.EndsWith parts front (Text.join ['.'] (body :: (boundaryWord body ++ new)))
    (old ++ (boundaryWord body ++ new))
  ne_nil : new ≠ []
  writes : List.Forall₂ (fun (value : Addition) word => WritesWord fresh value.render word) values new
  words : ∀ word ∈ new, word ≠ [] ∧ '.' ∉ word
  pop_eq : ∀ fresh', p.pop fresh' false = .ok x

theorem exists_pushed (hdotted : scheme.IsDotted) {fresh₀ : Uuid} {text : List Char}
    (hfresh₀ : fresh₀.IsProper) (hfresh : fresh.IsProper) (hx : parse scheme fresh₀ text = .ok x)
    (hne : values ≠ []) (hproper : ∀ u, Addition.uuid (some u) ∈ values → u.IsProper)
    (hrender : ∀ value ∈ values, value.render ≠ []) (h : x.push fresh values = .ok p) :
    ∃ parts front body old new, Pushed fresh values x p parts front body old new := by
  obtain ⟨uuid, -, hclean⟩ := isClean_of_parse hdotted hfresh₀ hx
  obtain ⟨-, -, hlayout⟩ := parse_eq_ok hx
  obtain ⟨parts, front, body, old, hends, hsame⟩ := exists_endsWith hdotted hlayout
  obtain ⟨words, hmap, hparse⟩ := push_eq_ok hdotted hends hclean.tidy.no_end h
  obtain ⟨rfl, hdots⟩ := hdotted.mapM_wordFor hproper hmap
  have hwords : ∀ word ∈ values.map Addition.render, word ≠ [] ∧ '.' ∉ word := by
    intro word hword
    obtain ⟨value, hvalue, rfl⟩ := List.mem_map.mp hword
    exact ⟨hrender value hvalue, hdots _ hword⟩
  obtain ⟨new, hnew, hnewWords, htext⟩ :=
    text_of_parse_join hdotted hfresh hclean (by simpa using hne) hwords hparse
  have hnewNe : new ≠ [] := by
    rintro rfl
    exact hne (by simpa using hnew)
  have hmore : ∀ word ∈ boundaryWord body ++ new, '.' ∉ word := by
    intro word hword
    rcases List.mem_append.mp hword with hword | hword
    · simp [eq_nil_of_mem_boundaryWord hword]
    · exact (hnewWords word hword).2
  obtain ⟨-, -, hlayoutPushed⟩ := parse_eq_ok hparse
  have hpushed := endsWith_join hends (List.append_ne_nil_of_right_ne_nil _ hnewNe) hmore hsame
    hlayoutPushed htext
  refine ⟨parts, front, body, old, new, ⟨_, hparse⟩, hends, htext, hpushed, hnewNe,
    List.forall₂_map_left_iff.mp hnew, hnewWords, ?_⟩
  intro fresh'
  rcases pop_eq_parse hends hpushed hnewNe (fun word hword => (hnewWords word hword).1) fresh'
    with hpop | hpop
  · rw [hpop, parse_text_eq hdotted hfresh₀ hx]
  · rw [hpop, parse_text_concat hdotted hfresh₀ hx]

/-- Pushing values extends a text strictly by them, and popping takes them off. -/
theorem isPushed_of_push (hscheme : scheme = .basic ∨ scheme = .codeRef) {fresh₀ : Uuid}
    {text : List Char} (hfresh₀ : fresh₀.IsProper) (hfresh : fresh.IsProper)
    (hx : parse scheme fresh₀ text = .ok x) (hne : values ≠ [])
    (hproper : ∀ u, Addition.uuid (some u) ∈ values → u.IsProper)
    (hrender : ∀ value ∈ values, value.render ≠ []) (h : x.push fresh values = .ok p) :
    IsPushed fresh values x p := by
  have hdotted := Scheme.isDotted_of_declared hscheme
  obtain ⟨parts, front, body, old, new, hpushed⟩ :=
    exists_pushed hdotted hfresh₀ hfresh hx hne hproper hrender h
  exact isPushed_of_endsWith hpushed.base hpushed.endsWith hpushed.ne_nil hpushed.writes hpushed.pop_eq

/-- A generation mark and a fresh uuid pushed to a text. -/
theorem isPushed_of_push_generation :
    ∃ x p : Sectioned .basic, parse .basic (Uuid.ofSeed 1) "a::b".toList = .ok x ∧
      x.push (Uuid.ofSeed 2) [.mark .gen, .uuid none] = .ok p ∧
      p.text = "a::b..$gen$.<uuid:00000000-0000-4000-8000-000000000002>".toList ∧
      IsPushed (Uuid.ofSeed 2) [.mark .gen, .uuid none] x p := by
  refine ⟨_, _, rfl, rfl, rfl, ?_⟩
  have hparse : parse .basic (Uuid.ofSeed 1) "a::b".toList = .ok _ := rfl
  exact isPushed_of_push (.inl rfl) (Uuid.isProper_ofSeed 1) (Uuid.isProper_ofSeed 2) hparse
    (by simp) (by simp) (by decide) rfl

end Sectioned

end KeyExpansion
