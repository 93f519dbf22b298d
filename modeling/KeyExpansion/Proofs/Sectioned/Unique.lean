-- SUMMARY: Making a text unique adds a generation mark and a uuid, which can be taken off again.
import KeyExpansion.Proofs.Sectioned.Instances
import KeyExpansion.Proofs.Sectioned.Push

/-! # Unique texts

A text without a uuid is made unique by pushing a generation mark and a fresh uuid. The mark
is the first word of the new ones, and a text without a uuid has no word that tells instances
apart, unless it has such a mark itself. So what is before the first such word of the unique
text is the text, with one dot or two behind it, and these are cleaned away. -/

namespace KeyExpansion

variable {fresh : Uuid} {out : List Char}

/-- The fresh uuid is written for `<uuid>`. -/
theorem WritesWord.eq_token (h : WritesWord fresh "<uuid>".toList out) : out = fresh.token := by
  obtain ⟨uuid, h⟩ := h
  have htoken : canonUuid fresh "<uuid>".toList = .ok ⟨[] ++ fresh.token ++ [], some fresh⟩ := rfl
  rw [canonUuid_eq_ok.mpr h, List.nil_append, List.append_nil] at htoken
  exact congrArg Cleaned.text (Except.ok.inj htoken)

theorem WritesWord.eq_gen (h : WritesWord fresh WordMark.gen.text out) : out = WordMark.gen.text := by
  have hfree : TokenFree WordMark.gen.text := cutToken?_eq_none.mp rfl
  exact h.eq_of_isCanonical (.plain hfree)

namespace Sectioned

variable {x u c : Sectioned .basic} {suffix : List (List Char)} {parts : List Part}
  {front body : List Char} {old new left right : List (List Char)} {fresh₀ : Uuid} {text : List Char}

/-! ## The words of a unique text -/

/-- The text `u` is `x` with a generation mark, the token of a uuid and more words pushed. -/
structure HasInstance (x u : Sectioned .basic) (parts : List Part) (front body : List Char)
    (old more : List (List Char)) (own : Uuid) : Prop where
  isDecoded : u.IsDecoded
  base : x.EndsWith parts front body old
  text_eq : u.text = Text.join ['.']
    (x.text :: (boundaryWord body ++ WordMark.gen.text :: own.token :: more))
  endsWith : u.EndsWith parts front
    (Text.join ['.'] (body :: (boundaryWord body ++ WordMark.gen.text :: own.token :: more)))
    (old ++ (boundaryWord body ++ WordMark.gen.text :: own.token :: more))
  dots : ∀ word ∈ boundaryWord body ++ WordMark.gen.text :: own.token :: more, '.' ∉ word
  proper : own.IsProper
  pop_eq : ∀ fresh', u.pop fresh' false = .ok x

theorem exists_hasInstance (hfresh₀ : fresh₀.IsProper) (hfresh : fresh.IsProper)
    (hx : parse .basic fresh₀ text = .ok x) (hnone : x.uuid = none)
    (hsuffix : ∀ word ∈ suffix, word ≠ []) (h : x.toUnique fresh suffix = .ok u) :
    ∃ parts front body old more, HasInstance x u parts front body old more fresh ∧
      (suffix = [] → more = []) := by
  rw [toUnique, hnone, Option.isSome_none, if_neg Bool.false_ne_true] at h
  have hproper : ∀ v, Addition.uuid (some v) ∈ .mark .gen :: .uuid none :: suffix.map .word →
      v.IsProper := by
    simp
  have hrender : ∀ value ∈ .mark .gen :: .uuid none :: suffix.map Addition.word, value.render ≠ [] := by
    refine List.forall_mem_cons.mpr ⟨by decide, List.forall_mem_cons.mpr ⟨by decide, ?_⟩⟩
    exact List.forall_mem_map.mpr hsuffix
  obtain ⟨parts, front, body, old, new, hpushed⟩ :=
    exists_pushed Scheme.isDotted_basic hfresh₀ hfresh hx (List.cons_ne_nil _ _) hproper hrender h
  obtain ⟨gen, rest, hgen, hrest, rfl⟩ := List.forall₂_cons_left_iff.mp hpushed.writes
  obtain ⟨token, more, htoken, hmore, rfl⟩ := List.forall₂_cons_left_iff.mp hrest
  obtain rfl : gen = WordMark.gen.text := WritesWord.eq_gen hgen
  obtain rfl : token = fresh.token := WritesWord.eq_token htoken
  obtain ⟨pushedText, hparse⟩ := hpushed.parsed
  refine ⟨parts, front, body, old, more, ?_, ?_⟩
  · refine ⟨isDecoded_of_parse Scheme.isDotted_basic hfresh hparse, hpushed.base, hpushed.text_eq,
      hpushed.endsWith, ?_, hfresh, hpushed.pop_eq⟩
    intro word hword
    rcases List.mem_append.mp hword with hword | hword
    · simp [eq_nil_of_mem_boundaryWord hword]
    · exact (hpushed.words word hword).2
  · rintro rfl
    exact List.forall₂_nil_left_iff.mp hmore

/-- Of a text without a uuid the words that tell instances apart are generation marks. -/
theorem Halves.isInstanceWord_eq (hx : x.IsDecoded) (h : x.Halves left right) (hnone : x.uuid = none)
    {word : List Char} (hword : word ∈ left ++ right) (hgen : word ≠ WordMark.gen.text) :
    isInstanceWord word = false := by
  apply isInstanceWord_of_tokenFree _ hgen
  exact (hx.tokenFree hnone).mono (h.infix_of_mem hx hword)

namespace HasInstance

variable {more : List (List Char)} {own : Uuid} (h : HasInstance x u parts front body old more own)

include h

/-- A unique text has a uuid. -/
theorem uuid_ne_none : u.uuid ≠ none := by
  intro hnone
  apply h.isDecoded.tokenFree hnone _ h.proper.isTokenValue
  rw [← own.token_eq, h.text_eq]
  exact (Text.inOrder_join ['.'] _).infix_of_mem own.token (by simp)

theorem isAncestorOf : x.isAncestorOf u = true :=
  (h.base.isAncestorOf_append (List.append_ne_nil_of_right_ne_nil _ (List.cons_ne_nil _ _))
    h.endsWith).1

/-- A text that has a uuid is unique already. -/
theorem toUnique_eq (fresh : Uuid) (words : List (List Char)) : u.toUnique fresh words = .ok u := by
  rw [toUnique, if_pos (Option.isSome_iff_ne_none.mpr h.uuid_ne_none)]

/-- The words of the text that was made unique are followed by the new ones. -/
theorem halves (hx : x.Halves left right) :
    u.Halves left (right ++ (boundaryWord body ++ WordMark.gen.text :: own.token :: more)) := by
  obtain ⟨left', right', hu⟩ := h.isDecoded.exists_halves
  have htext : u.text = Text.join ['.'] left ++ "::".toList ++ Text.join ['.']
      (Text.join ['.'] right :: (boundaryWord body ++ WordMark.gen.text :: own.token :: more)) := by
    rw [h.text_eq, hx.text_eq, Text.join_cons_eq, Text.join_cons_eq]
    simp only [List.append_assoc]
  obtain ⟨rfl, rfl⟩ := hu.words_eq hx.first htext
  rw [← hx.left_splits.eq_splitOn] at hu
  have hsplits := hx.right_splits.join_cons
    (List.append_ne_nil_of_right_ne_nil _ (List.cons_ne_nil _ _)) h.dots
  rwa [← hsplits.eq_splitOn] at hu

theorem old_eq (hx : x.Halves left right) : old = right := by
  have hwords := h.base.words?_last
  rw [hx.lastSection_eq, hx.words?_body] at hwords
  exact (Option.some.inj hwords).symm

/-! ## Cutting the generation mark off -/

/-- What is before the generation mark is the text with one dot or two behind it. -/
theorem parse_before (hfresh₀ : fresh₀.IsProper) (hx : parse .basic fresh₀ text = .ok x) (fresh : Uuid) :
    parse .basic fresh (front ++ (old ++ boundaryWord body).flatMap (· ++ ['.'])) = .ok x := by
  have hconcat := parse_text_concat Scheme.isDotted_basic hfresh₀ hx fresh
  have hfront : front ++ old.flatMap (· ++ ['.']) = x.text ++ ['.'] := by
    rw [Text.flatMap_append_sep h.base.split.ne_nil, h.base.split.join_eq, h.base.text_eq,
      List.append_assoc]
  rw [List.flatMap_append, ← List.append_assoc, hfront]
  by_cases hbody : body = []
  · subst hbody
    simpa [boundaryWord] using hconcat
  · obtain ⟨-, -, hlayout⟩ := parse_eq_ok hx
    have hmarkers := Scheme.isDotted_basic.hasMarkers hlayout
    rw [boundaryWord_of_ne_nil hbody]
    exact parse_concat Scheme.isDotted_basic (hmarkers.append ['.']) hconcat

theorem deUnique_eq (hfresh₀ : fresh₀.IsProper) (hx : parse .basic fresh₀ text = .ok x)
    (hhalves : x.Halves left right)
    (hplain : ∀ word ∈ right, isInstanceWord word = false) (fresh : Uuid) :
    u.deUnique fresh = .ok x := by
  obtain ⟨heads, bodies, hmeanings, -, hbodies⟩ := (h.halves hhalves).exists_meanings h.isDecoded
  have hwords : old ++ (boundaryWord body ++ WordMark.gen.text :: own.token :: more)
      = (old ++ boundaryWord body) ++ WordMark.gen.text :: own.token :: more := by
    rw [List.append_assoc]
  have hearly : ∀ word ∈ old ++ boundaryWord body, isInstanceWord word = false := by
    intro word hword
    rcases List.mem_append.mp hword with hword | hword
    · exact hplain word (h.old_eq hhalves ▸ hword)
    · rw [eq_nil_of_mem_boundaryWord hword]
      rfl
  have hindex : bodies.findIdx? Meaning.isInstance = some (old ++ boundaryWord body).length := by
    have hnone : (old ++ boundaryWord body).findIdx? isInstanceWord = none := by
      rw [List.findIdx?_eq_none_iff]
      exact hearly
    have hgen : isInstanceWord WordMark.gen.text = true := rfl
    rw [findIdx?_isInstance hbodies, ← h.old_eq hhalves, hwords, List.findIdx?_append, hnone,
      List.findIdx?_cons, hgen]
    simp
  have hspan := h.endsWith.wordSpan?_last hwords
  have hcut := h.endsWith.take_before hwords
  simp only [deUnique, hmeanings, List.getLast?_cons_cons, List.getLast?_singleton,
    Option.bind_eq_bind, Option.bind_some, hindex, hspan, cutAt, hcut]
  exact h.parse_before hfresh₀ hx fresh

/-! ## Structural identity -/

/-- Without further words what is left of the unique text is what is left of the text, perhaps
with a dot behind it. -/
theorem lastingHalves_eq (left right : List (List Char)) (hmore : more = []) :
    lastingHalves left (right ++ (boundaryWord body ++ WordMark.gen.text :: own.token :: more))
        = lastingHalves left right ∨
      lastingHalves left (right ++ (boundaryWord body ++ WordMark.gen.text :: own.token :: more))
        = lastingHalves left right ++ ['.'] := by
  subst hmore
  have htoken : isInstanceWord own.token = true := by
    rw [isInstanceWord, h.proper.wordUuid?_token]
    rfl
  have hnew : lasting [WordMark.gen.text, own.token] = [] := by
    have hgen : isInstanceWord WordMark.gen.text = true := rfl
    simp [lasting_eq_filter, htoken, hgen]
  have hlasting : lasting (right ++ (boundaryWord body ++ [WordMark.gen.text, own.token]))
      = lasting right ++ boundaryWord body := by
    have hboundary : lasting (boundaryWord body) = boundaryWord body := by
      rw [boundaryWord]
      split <;> rfl
    rw [← lasting_append, ← lasting_append, hnew, hboundary, List.append_nil]
  rw [lastingHalves, lastingHalves, hlasting, boundaryWord]
  split
  · exact .inl (by rw [List.append_nil])
  · rcases Text.join_concat_nil (lasting right) with hjoin | hjoin
    · exact .inl (by rw [hjoin])
    · exact .inr (by rw [hjoin, ← List.append_assoc])

end HasInstance

/-- If a text without a uuid has a structural identity, no token is left in what it is parsed
from, and it is the same whichever uuid is fresh. -/
theorem Halves.parse_lasting (h : x.Halves left right) (hx : x.IsDecoded) (hnone : x.uuid = none)
    {fresh : Uuid} (hc : parse .basic fresh (lastingHalves left right) = .ok c) (fresh' : Uuid) :
    parse .basic fresh' (lastingHalves left right) = .ok c := by
  obtain ⟨uuid, hclean, -⟩ := parse_eq_ok hc
  obtain ⟨canonized, hcanon, -⟩ := Scheme.isDotted_basic.clean_eq_ok hclean
  have hfree : TokenFree (lastingHalves left right) := by
    rcases (h.canonizes_cases hx hcanon).2 with ⟨-, hfree⟩ | ⟨-, word, hword, hnot⟩
    · exact hfree
    · exact absurd ((hx.tokenFree hnone).mono (h.infix_of_mem hx (mem_lasting.mp hword).1)) hnot
  have hmarkers : Scheme.basic.HasMarkers (lastingHalves left right) :=
    Scheme.hasMarkers_basic ⟨_, _, rfl⟩
  have hclean (fresh : Uuid) := Scheme.isDotted_basic.clean_of_canonizes hmarkers
    (.plain hfree : Canonizes fresh _ _)
  rw [← hc]
  exact parse_congr ((hclean fresh').trans (hclean fresh).symm)

theorem HasInstance.canon_eq {more : List (List Char)} {own : Uuid}
    (h : HasInstance x u parts front body old more own) (hx : x.IsDecoded)
    (hhalves : x.Halves left right) (hnone : x.uuid = none) (hmore : more = []) {fresh : Uuid}
    (hc : x.canon fresh = .ok c) (fresh' : Uuid) : u.canon fresh' = .ok c := by
  rw [hhalves.canon_eq hx] at hc
  rw [(h.halves hhalves).canon_eq h.isDecoded]
  have hparse := hhalves.parse_lasting hx hnone hc fresh'
  have hmarkers : Scheme.basic.HasMarkers (lastingHalves left right) :=
    Scheme.hasMarkers_basic ⟨_, _, rfl⟩
  rcases h.lastingHalves_eq left right hmore with hsame | hdot
  · rw [hsame]
    exact hparse
  · rw [hdot]
    exact parse_concat Scheme.isDotted_basic hmarkers hparse

/-! ## What making a text unique comes to -/

/-- The text `u` is `x` made unique with these words: it has a uuid and is unique already, and
popping, or taking off what tells instances apart, gives the text back. -/
structure IsUnique (x u : Sectioned .basic) (suffix : List (List Char)) : Prop where
  uuid : u.uuid ≠ none
  ancestor : x.isAncestorOf u = true
  pop_eq : ∀ fresh, u.pop fresh false = .ok x
  toUnique_eq : ∀ fresh words, u.toUnique fresh words = .ok u
  deUnique_eq : (∀ index, x.meaning? (.name "body") index ≠ some (.mark .gen)) →
    ∀ fresh, u.deUnique fresh = .ok x
  canon_eq : suffix = [] → ∀ fresh c fresh', x.canon fresh = .ok c → u.canon fresh' = .ok c

/-- A body in which no word means the generation mark has no word that writes it. -/
theorem Halves.gen_not_mem_of_meaning? (h : x.Halves left right) (hx : x.IsDecoded)
    (hgen : ∀ index, x.meaning? (.name "body") index ≠ some (.mark .gen)) :
    WordMark.gen.text ∉ right := by
  obtain ⟨heads, bodies, hmeanings, -, hbodies⟩ := h.exists_meanings hx
  intro hword
  obtain ⟨n, hn, hat⟩ := List.mem_iff_getElem.mp hword
  have hlength : n < bodies.length := hbodies.length_eq ▸ hn
  have hmeans := (List.forall₂_iff_get.mp hbodies).2 n hn hlength
  apply hgen n
  rw [meaning?_body hmeanings (wordIndex?_natCast hlength), List.getElem?_eq_getElem hlength,
    Option.some_inj]
  exact hmeans.eq_gen_iff.mpr hat

theorem toUnique_isUnique (hfresh₀ : fresh₀.IsProper) (hfresh : fresh.IsProper)
    (hx : parse .basic fresh₀ text = .ok x) (hnone : x.uuid = none)
    (hsuffix : ∀ word ∈ suffix, word ≠ []) (h : x.toUnique fresh suffix = .ok u) :
    IsUnique x u suffix := by
  have hdecoded := isDecoded_of_parse Scheme.isDotted_basic hfresh₀ hx
  obtain ⟨left, right, hhalves⟩ := hdecoded.exists_halves
  obtain ⟨parts, front, body, old, more, hunique, hmore⟩ :=
    exists_hasInstance hfresh₀ hfresh hx hnone hsuffix h
  refine {
    uuid := hunique.uuid_ne_none
    ancestor := hunique.isAncestorOf
    pop_eq := hunique.pop_eq
    toUnique_eq := hunique.toUnique_eq
    deUnique_eq := ?_
    canon_eq := ?_ }
  · intro hgen fresh'
    have hnot := hhalves.gen_not_mem_of_meaning? hdecoded hgen
    refine hunique.deUnique_eq hfresh₀ hx hhalves ?_ fresh'
    intro word hword
    apply hhalves.isInstanceWord_eq hdecoded hnone (List.mem_append_right left hword)
    rintro rfl
    exact hnot hword
  · intro hempty fresh₁ c fresh₂ hc
    exact hunique.canon_eq hdecoded hhalves hnone (hmore hempty) hc fresh₂

/-- A generation mark in the head, an empty word in the body, and no suffix. -/
theorem toUnique_isUnique_generation :
    ∃ x u c : Sectioned .basic, parse .basic (Uuid.ofSeed 1) "$gen$.a::1..b".toList = .ok x ∧
      x.uuid = none ∧ x.toUnique (Uuid.ofSeed 2) [] = .ok u ∧
      u.text = "$gen$.a::1..b..$gen$.<uuid:00000000-0000-4000-8000-000000000002>".toList ∧
      IsUnique x u [] ∧ u.canon (Uuid.ofSeed 3) = .ok c ∧ c.text = "a::1..b".toList := by
  have hparse : parse .basic (Uuid.ofSeed 1) "$gen$.a::1..b".toList = .ok _ := rfl
  have hunique : IsUnique _ _ [] := toUnique_isUnique (Uuid.isProper_ofSeed 1)
    (Uuid.isProper_ofSeed 2) hparse rfl (by simp) rfl
  exact ⟨_, _, _, hparse, rfl, rfl, rfl, hunique, hunique.canon_eq rfl (Uuid.ofSeed 4) _ _ rfl, rfl⟩

end Sectioned

end KeyExpansion
