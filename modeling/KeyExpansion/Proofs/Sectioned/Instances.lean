-- SUMMARY: The words and meanings of a basic text, and which of its words tell instances apart.
import KeyExpansion.Proofs.Sectioned.Canon

/-! # Instances

Both sections of a basic text have every kind of word. So whether a word tells instances
apart depends on nothing but the word: it does if it is a uuid or the generation mark. -/

namespace KeyExpansion

variable {word : List Char} {words : List (List Char)} {m : Meaning} {meanings : List Meaning}
  {u : Uuid}

/-- Does a word tell instances apart where every kind of word is allowed? -/
def isInstanceWord (word : List Char) : Bool :=
  (wordUuid? word).isSome || word == WordMark.gen.text

/-- What a word may mean in a section that has every kind of word. -/
inductive CanMean (word : List Char) (m : Meaning) : Prop where
  | intro (sec : Section) (uuids : sec.uuids = true) (marks : sec.marks = true)
      (means : sec.Means word m) : CanMean word m

namespace CanMean

theorem isInstance_eq (h : CanMean word m) : m.isInstance = isInstanceWord word := by
  obtain ⟨sec, huuids, hmarks, hmeans⟩ := h
  rw [hmeans.isInstance_eq, Section.isInstance, Section.uuid?, if_pos huuids, hmarks, Bool.true_and]
  rfl

theorem eq_gen_iff (h : CanMean word m) : m = .mark .gen ↔ word = WordMark.gen.text := by
  obtain ⟨sec, huuids, hmarks, hmeans⟩ := h
  rw [hmeans.eq_gen_iff, and_iff_right hmarks]

theorem exists_uuid_iff (h : CanMean word m) : (∃ u, m = .uuid u) ↔ ∃ u, wordUuid? word = some u := by
  obtain ⟨sec, huuids, hmarks, hmeans⟩ := h
  have huuid := hmeans.uuid?_eq
  rw [Section.uuid?, if_pos huuids] at huuid
  rw [← huuid]
  cases m <;> simp [Meaning.uuid?]

end CanMean

theorem isInstance_of_mem (h : List.Forall₂ CanMean words meanings) (hm : m ∈ meanings) :
    ∃ word ∈ words, m.isInstance = isInstanceWord word := by
  induction h with
  | nil => cases hm
  | @cons word own words meanings hown _ ih =>
    rcases List.mem_cons.mp hm with rfl | hm
    · exact ⟨word, List.mem_cons_self, hown.isInstance_eq⟩
    · obtain ⟨other, hother, heq⟩ := ih hm
      exact ⟨other, List.mem_cons_of_mem word hother, heq⟩

/-- The first meaning that tells instances apart is that of the first such word. -/
theorem findIdx?_isInstance (h : List.Forall₂ CanMean words meanings) :
    meanings.findIdx? Meaning.isInstance = words.findIdx? isInstanceWord := by
  induction h with
  | nil => rfl
  | cons hm _ ih => rw [List.findIdx?_cons, List.findIdx?_cons, hm.isInstance_eq, ih]

/-- Words without a token are no uuids. -/
theorem isInstanceWord_of_tokenFree (hfree : TokenFree word) (hgen : word ≠ WordMark.gen.text) :
    isInstanceWord word = false := by
  rw [isInstanceWord, wordUuid?_of_tokenFree hfree]
  simpa using hgen

namespace Sectioned

variable {x : Sectioned .basic} {left right : List (List Char)} {heads bodies : List Meaning}

theorem lasting_eq_filter (words : List (List Char)) :
    lasting words = words.filter fun word => !isInstanceWord word := by
  rw [lasting]
  refine List.filter_congr ?_
  intro word _
  rw [isInstanceWord]
  cases wordUuid? word <;> simp [bne]

/-! ## Both sections -/

namespace Halves

variable (h : x.Halves left right)

include h

theorem exists_layout : ∃ head body, x.layout = [head, body] ∧ x.wordsOf head = left ∧
    x.wordsOf body = right := by
  obtain ⟨head, parts, hlayout, hleft, hrest⟩ := List.map_eq_cons_iff.mp h.rows_eq
  obtain ⟨body, more, rfl, hright, hmore⟩ := List.map_eq_cons_iff.mp hrest
  obtain rfl := List.map_eq_nil_iff.mp hmore
  exact ⟨head, body, hlayout, hleft, hright⟩

/-- Each word of a basic text has a meaning. -/
theorem exists_meanings (hx : x.IsDecoded) :
    ∃ heads bodies, x.meanings = [heads, bodies] ∧ List.Forall₂ CanMean left heads ∧
      List.Forall₂ CanMean right bodies := by
  obtain ⟨head, body, hlayout, rfl, rfl⟩ := h.exists_layout
  have hmeans := hx.means
  rw [hlayout] at hmeans
  obtain ⟨heads, rest, hheads, hmeansRest, hmeanings⟩ := List.forall₂_cons_left_iff.mp hmeans
  obtain ⟨bodies, others, hbodies, hothers, rfl⟩ := List.forall₂_cons_left_iff.mp hmeansRest
  obtain rfl := List.forall₂_nil_left_iff.mp hothers
  refine ⟨heads, bodies, hmeanings, hheads.imp ?_, hbodies.imp ?_⟩
  · intro word m hm
    exact ⟨_, rfl, rfl, hm⟩
  · intro word m hm
    exact ⟨_, rfl, rfl, hm⟩

theorem words?_head : x.words? (.position 0) = some left := by
  obtain ⟨head, body, hlayout, rfl, -⟩ := h.exists_layout
  simp only [words?, part?, sectionIndex?, sectionCount, hlayout, List.length_cons]
  rfl

theorem words?_body : x.words? (.position 1) = some right := by
  obtain ⟨head, body, hlayout, -, rfl⟩ := h.exists_layout
  simp only [words?, part?, sectionIndex?, sectionCount, hlayout, List.length_cons]
  rfl

theorem lastSection_eq : x.lastSection = .position 1 := by
  obtain ⟨head, body, hlayout, -, -⟩ := h.exists_layout
  rw [lastSection, sectionCount, hlayout]
  rfl

end Halves

/-- The meaning of a word of the body. -/
theorem meaning?_body (hmeanings : x.meanings = [heads, bodies]) {index : Int} {n : Nat}
    (hindex : wordIndex? bodies.length index = some n) :
    x.meaning? (.name "body") index = bodies[n]? := by
  have hsection : x.sectionIndex? (.name "body") = some 1 := rfl
  simp [meaning?, hsection, hmeanings, hindex]

end Sectioned

end KeyExpansion
