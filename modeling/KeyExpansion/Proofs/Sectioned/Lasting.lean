-- SUMMARY: The structural identity of a basic text has all words but those that tell instances apart.
import KeyExpansion.Proofs.Sectioned.Instances

/-! # Lasting words

When words are taken out of a text, dots that were apart come together, and cleaning may take
some of them away, but a word goes only if it is empty. Whether a word tells instances apart
does not depend on where it stands, so none of those that are left does. What may move is the
marker: a head that is left with a colon at its end gives it to the marker. Without colons in
the head the structural identity is its own. -/

namespace KeyExpansion

/-- The words whose meanings do not tell instances apart. -/
def withoutInstances (words : List (List Char)) (meanings : List Meaning) : List (List Char) :=
  ((words.zip meanings).filter fun entry => !entry.2.isInstance).map Prod.fst

namespace Sectioned

/-- No word of the head has a colon, unless it is a uuid. -/
def HasPlainHead (x : Sectioned .basic) : Prop :=
  ∀ words meanings, x.words? (.position 0) = some words → x.meanings[0]? = some meanings →
    ∀ entry ∈ words.zip meanings, (∀ u, entry.2 ≠ .uuid u) → ':' ∉ entry.1

/-- The text `c` is its own structural identity, and its words, but for empty ones, are those of
`x` that do not tell instances apart. -/
structure KeepsOthers (x c : Sectioned .basic) : Prop where
  plain : ∀ m ∈ c.meanings.flatten, m.isInstance = false
  canon_eq : ∀ fresh, c.canon fresh = .ok c
  words : ∀ n < 2, ∃ old meanings new, x.words? (.position n) = some old ∧
    x.meanings[n]? = some meanings ∧ old.length = meanings.length ∧
    c.words? (.position n) = some new ∧
    new.filter (· ≠ []) = (withoutInstances old meanings).filter (· ≠ [])

variable {x c : Sectioned .basic} {words left right left' right' : List (List Char)}
  {heads meanings : List Meaning} {word text : List Char} {fresh₀ fresh : Uuid}

/-! ## Words and meanings -/

theorem withoutInstances_eq (h : List.Forall₂ CanMean words meanings) :
    withoutInstances words meanings = lasting words := by
  rw [lasting_eq_filter, withoutInstances]
  induction h with
  | nil => rfl
  | @cons word m words meanings hm _ ih =>
    rw [List.zip_cons_cons, List.filter_cons, List.filter_cons, hm.isInstance_eq, ← ih]
    split <;> rfl

theorem exists_mem_zip (h : List.Forall₂ CanMean words meanings) (hword : word ∈ words) :
    ∃ m, (word, m) ∈ words.zip meanings ∧ CanMean word m := by
  induction h with
  | nil => cases hword
  | @cons first m words meanings hm _ ih =>
    rcases List.mem_cons.mp hword with rfl | hword
    · exact ⟨m, List.mem_cons_self, hm⟩
    · obtain ⟨other, hother, hmeant⟩ := ih hword
      exact ⟨other, List.mem_cons_of_mem _ hother, hmeant⟩

/-- The words that are left of a plain head have no colon. -/
theorem HasPlainHead.colon_not_mem (hplain : x.HasPlainHead) (hwords : x.words? (.position 0) = some left)
    (hmeanings : x.meanings[0]? = some heads) (h : List.Forall₂ CanMean left heads) :
    ∀ word ∈ lasting left, ':' ∉ word := by
  intro word hword
  obtain ⟨hmem, hnone, -⟩ := mem_lasting.mp hword
  obtain ⟨m, hentry, hmeant⟩ := exists_mem_zip h hmem
  refine hplain left heads hwords hmeanings _ hentry ?_
  intro u hu
  obtain ⟨v, hv⟩ := hmeant.exists_uuid_iff.mp ⟨u, hu⟩
  rw [hnone] at hv
  cases hv

/-- Words that are lasting, but for empty ones, do not tell instances apart. -/
theorem isInstanceWord_of_filter (h : words.filter (· ≠ []) = (lasting left).filter (· ≠ []))
    (hword : word ∈ words) : isInstanceWord word = false := by
  by_cases hne : word = []
  · rw [hne]
    rfl
  · have hmem : word ∈ words.filter (· ≠ []) := by simp [hword, hne]
    rw [h, lasting_eq_filter] at hmem
    simpa using (List.mem_filter.mp (List.mem_filter.mp hmem).1).2

/-! ## The structural identity -/

/-- The words of a structural identity, if no colon is left in the head. -/
theorem Halves.filter_canon (h : x.Halves left right) (hc : c.Halves left' right')
    (htext : c.text = Text.tidy '.' (lastingHalves left right))
    (hcolon : ∀ word ∈ lasting left, ':' ∉ word) :
    left'.filter (· ≠ []) = (lasting left).filter (· ≠ []) ∧
      right'.filter (· ≠ []) = (lasting right).filter (· ≠ []) := by
  have hfirst : Text.IsFirst "::".toList (Text.join ['.'] (lasting left)) := by
    apply Text.isFirst_of_not_mem
    intro hmem
    rcases Text.mem_join hmem with hmem | ⟨word, hword, hmem⟩
    · revert hmem
      decide
    · exact hcolon word hword hmem
  rw [lastingHalves, Text.tidy_append (by decide) (by decide)] at htext
  obtain ⟨rfl, rfl⟩ := hc.words_eq (isFirst_collapse hfirst) htext
  rw [Text.filter_splitOn_collapse, Text.filter_splitOn_tidy]
  constructor
  · apply Text.filter_splitOn_join
    exact fun word hword => h.left_splits.not_mem word (mem_lasting.mp hword).1
  · apply Text.filter_splitOn_join
    exact fun word hword => h.right_splits.not_mem word (mem_lasting.mp hword).1

/-- Without words that tell instances apart a text is its own structural identity. -/
theorem Halves.canon_eq_self (h : c.Halves left right) (hc : c.IsDecoded) (hfresh : fresh.IsProper)
    (hparse : parse .basic fresh text = .ok c)
    (hplain : ∀ word ∈ left ++ right, isInstanceWord word = false) (fresh' : Uuid) :
    c.canon fresh' = .ok c := by
  have hall {words : List (List Char)} (hwords : words ⊆ left ++ right) : lasting words = words := by
    rw [lasting_eq_filter, List.filter_eq_self]
    intro word hword
    rw [hplain word (hwords hword)]
    rfl
  have hleft := hall (List.subset_append_left left right)
  have hright := hall (List.subset_append_right left right)
  rw [h.canon_eq hc, lastingHalves, hleft, hright, ← h.text_eq]
  exact parse_text_eq Scheme.isDotted_basic hfresh hparse fresh'

/-- The structural identity of a text with a plain head is its own, and keeps all words but empty
ones and those that tell instances apart, in their order. -/
theorem canon_keepsOthers (hfresh₀ : fresh₀.IsProper) (hfresh : fresh.IsProper)
    (hx : parse .basic fresh₀ text = .ok x) (hplain : x.HasPlainHead) (hc : x.canon fresh = .ok c) :
    KeepsOthers x c := by
  have hdecoded := isDecoded_of_parse Scheme.isDotted_basic hfresh₀ hx
  obtain ⟨left, right, h⟩ := hdecoded.exists_halves
  obtain ⟨heads, bodies, hmeanings, hheads, hbodies⟩ := h.exists_meanings hdecoded
  have hcolon := hplain.colon_not_mem h.words?_head (by rw [hmeanings]; rfl) hheads
  obtain ⟨hdecoded', htext, -⟩ := h.canon_cases hdecoded hfresh hc
  obtain ⟨left', right', h'⟩ := hdecoded'.exists_halves
  obtain ⟨heads', bodies', hmeanings', hheads', hbodies'⟩ := h'.exists_meanings hdecoded'
  obtain ⟨hleft, hright⟩ := h.filter_canon h' htext hcolon
  have hinstance : ∀ word ∈ left' ++ right', isInstanceWord word = false := by
    rw [List.forall_mem_append]
    exact ⟨fun word => isInstanceWord_of_filter hleft, fun word => isInstanceWord_of_filter hright⟩
  refine ⟨?_, ?_, ?_⟩
  · intro m hm
    have hall : List.Forall₂ CanMean (left' ++ right') (heads' ++ bodies') :=
      List.rel_append hheads' hbodies'
    obtain ⟨word, hword, heq⟩ := isInstance_of_mem hall (by simpa [hmeanings'] using hm)
    rw [heq, hinstance word hword]
  · rw [canon] at hc
    exact h'.canon_eq_self hdecoded' hfresh hc hinstance
  · intro n hn
    obtain rfl | rfl : n = 0 ∨ n = 1 := by omega
    · refine ⟨left, heads, left', h.words?_head, by rw [hmeanings]; rfl, hheads.length_eq,
        h'.words?_head, ?_⟩
      rw [hleft, withoutInstances_eq hheads]
    · refine ⟨right, bodies, right', h.words?_body, by rw [hmeanings]; rfl, hbodies.length_eq,
        h'.words?_body, ?_⟩
      rw [hright, withoutInstances_eq hbodies]

/-- A uuid in the head may have a colon, and in the body every word may. -/
theorem canon_keepsOthers_uuid :
    ∃ x c : Sectioned .basic, parse .basic (Uuid.ofSeed 1) "a.<uuid>..b::..$gen$.:<uuid".toList = .ok x ∧
      x.canon (Uuid.ofSeed 2) = .ok c ∧ c.text = "a..b::..:<uuid".toList ∧ KeepsOthers x c := by
  have hparse : parse .basic (Uuid.ofSeed 1) "a.<uuid>..b::..$gen$.:<uuid".toList = .ok _ := rfl
  refine ⟨_, _, hparse, rfl, rfl, ?_⟩
  refine canon_keepsOthers (Uuid.isProper_ofSeed 1) (Uuid.isProper_ofSeed 2) hparse ?_ rfl
  intro words meanings hwords hmeanings entry hentry hother
  obtain rfl : [['a'], (Uuid.ofSeed 1).token, [], ['b']] = words := Option.some.inj hwords
  obtain rfl : [.text, .uuid (Uuid.ofSeed 1), .text, .text] = meanings := Option.some.inj hmeanings
  simp only [List.zip_cons_cons, List.zip_nil_left, List.mem_cons, List.not_mem_nil, or_false]
    at hentry
  rcases hentry with rfl | rfl | rfl | rfl
  · decide
  · exact absurd rfl (hother (Uuid.ofSeed 1))
  · decide
  · decide

end Sectioned

end KeyExpansion
