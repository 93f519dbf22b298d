-- SUMMARY: What a value means that was pushed last: itself, but a negative number is text.
import KeyExpansion.Proofs.Decimal.Whole
import KeyExpansion.Proofs.Sectioned.Instances
import KeyExpansion.Proofs.Sectioned.Push
import KeyExpansion.Proofs.Sectioned.Whole

/-! # Reading back

A value that is pushed alone is the last word, so marks that count only at an edge count
there. Numbers are read from digits only. A number is written with a sign if it is negative,
and then the word is text. -/

namespace KeyExpansion

/-! ## The meaning of a word -/

/-- What a word means, at an edge of its section or not. -/
def Section.meaning (sec : Section) (edge : Bool) (word : List Char) : Meaning :=
  match sec.uuid? word with
  | some u => .uuid u
  | none => classify sec edge word

section Decode

variable {sec : Section} {text word : List Char} {edge : Bool} {m : Meaning} {carried next : Carried}
  {meanings : List Meaning} {count index : Nat}

theorem eq_meaning_of_decodeWord (hread : IsReadable word)
    (h : decodeWord sec text edge word carried = .ok (m, next)) : m = sec.meaning edge word := by
  rw [decodeWord_eq hread] at h
  rw [Section.meaning]
  cases hword : sec.uuid? word with
  | none =>
    rw [hword] at h
    exact (congrArg Prod.fst (Except.ok.inj h)).symm
  | some u =>
    rw [hword] at h
    obtain ⟨taken, -, heq⟩ := Except.map_eq_ok.mp h
    exact (congrArg Prod.fst heq).symm

/-- The last of `count` words is at an edge. -/
theorem exists_decodeWord_of_concat {words : List Text.Span} {last : Text.Span}
    (hcount : index + words.length + 1 = count)
    (h : decodeWords sec text count index (words ++ [last]) carried = .ok (meanings, next)) :
    ∃ early m before, meanings = early ++ [m] ∧
      decodeWord sec text true (last.slice text) before = .ok (m, next) := by
  induction words generalizing index carried meanings with
  | nil =>
    obtain ⟨⟨m, after⟩, hword, h⟩ := Except.bind_eq_ok.mp h
    obtain ⟨⟨rest, final⟩, hrest, h⟩ := Except.bind_eq_ok.mp h
    obtain ⟨rfl, rfl⟩ := Prod.mk.inj (Except.ok.inj hrest)
    obtain ⟨rfl, rfl⟩ := Prod.mk.inj (Except.pure_eq_ok.mp h)
    have hedge : (index + 1 == count) = true := by simpa using hcount
    rw [hedge, Bool.or_true] at hword
    exact ⟨[], m, carried, rfl, hword⟩
  | cons word words ih =>
    obtain ⟨⟨m, after⟩, -, h⟩ := Except.bind_eq_ok.mp h
    obtain ⟨⟨rest, final⟩, hrest, h⟩ := Except.bind_eq_ok.mp h
    obtain ⟨rfl, rfl⟩ := Prod.mk.inj (Except.pure_eq_ok.mp h)
    rw [List.length_cons] at hcount
    obtain ⟨early, last, before, rfl, hlast⟩ := ih (by omega) hrest
    exact ⟨m :: early, last, before, rfl, hlast⟩

end Decode

namespace Sectioned

variable {x p : Sectioned .basic} {left right : List (List Char)} {fresh₀ fresh : Uuid}
  {text : List Char}

/-- The second section of basic texts. -/
def bodySection : Section :=
  { name := "body", separator := ['.'] }

/-- The words of the body are decoded after those of the head. -/
theorem exists_decodeWords_of_parse (h : parse .basic fresh text = .ok p) {head body : Part}
    (hlayout : p.layout = [head, body]) :
    ∃ heads bodies carried next, p.meanings = [heads, bodies] ∧
      decodeWords bodySection p.text body.words.length 0 body.words carried = .ok (bodies, next) := by
  obtain ⟨carried, carried', hparts⟩ := exists_decodeParts_of_parse h
  rw [hlayout] at hparts
  obtain ⟨⟨heads, middle⟩, -, hparts⟩ := Except.bind_eq_ok.mp hparts
  obtain ⟨⟨rest, final⟩, hrest, hparts⟩ := Except.bind_eq_ok.mp hparts
  obtain ⟨hmeanings, -⟩ := Prod.mk.inj (Except.pure_eq_ok.mp hparts)
  obtain ⟨⟨bodies, after⟩, hbodies, hrest⟩ := Except.bind_eq_ok.mp hrest
  obtain ⟨⟨others, ending⟩, hothers, hrest⟩ := Except.bind_eq_ok.mp hrest
  obtain ⟨rfl, -⟩ := Prod.mk.inj (Except.ok.inj hothers)
  obtain ⟨rfl, -⟩ := Prod.mk.inj (Except.pure_eq_ok.mp hrest)
  exact ⟨heads, bodies, middle, after, hmeanings.symm, hbodies⟩

/-- The last word of a basic text is at an edge of the body. -/
theorem Halves.meaning?_last (h : p.Halves left right) (hp : p.IsDecoded)
    (hparse : parse .basic fresh text = .ok p) {early : List (List Char)} {last : List Char}
    (hright : right = early ++ [last]) :
    p.meaning? (.name "body") (-1) = some (bodySection.meaning true last) := by
  have hread : IsReadable last := by
    intro written hwritten
    have hin : last <:+: p.text := h.infix_of_mem hp (by simp [hright])
    obtain ⟨u, -, hu⟩ := hp.isClean.canonical.read_uuidWord hin hwritten
    simp [hu]
  obtain ⟨head, body, hlayout, -, hbody⟩ := h.exists_layout
  rw [hright] at hbody
  obtain ⟨words, spans, hwords, -, hspans⟩ := List.map_eq_append_iff.mp hbody
  obtain ⟨span, rfl, rfl⟩ := List.map_eq_singleton_iff.mp hspans
  obtain ⟨heads, bodies, carried, next, hmeanings, hbodies⟩ := exists_decodeWords_of_parse hparse hlayout
  rw [hwords] at hbodies
  obtain ⟨front, m, before, rfl, hlast⟩ := exists_decodeWord_of_concat (by simp) hbodies
  have hindex : wordIndex? (front ++ [m]).length (-1) = some front.length := by
    rw [wordIndex?_neg_one (by simp), List.length_append, List.length_singleton, Nat.add_sub_cancel]
  rw [meaning?_body hmeanings hindex, List.getElem?_concat_length, eq_meaning_of_decodeWord hread hlast]

/-! ## What is pushed -/

/-- What a typed value means once it is pushed. -/
inductive ReadsAs : Addition → Meaning → Prop where
  | int {i : Int64} (nonneg : 0 ≤ i) : ReadsAs (.int i) (.int i)
  | negative {i : Int64} (neg : i < 0) : ReadsAs (.int i) .text
  | mark {value : WordMark} (nonempty : value ≠ .empty) : ReadsAs (.mark value) (.mark value)
  | uuid {u : Uuid} (proper : u.IsProper) : ReadsAs (.uuid (some u)) (.uuid u)

/-- No mark is written like a number. -/
theorem text_ne_toList (value : WordMark) (i : Int) : value.text ≠ (ToString.toString i).toList := by
  intro heq
  have hall {c : Char} (hc : c ∈ value.text) : c.isDigit = true ∨ c = '-' :=
    Decimal.mem_toList (heq ▸ hc)
  cases value with
  | empty => exact Decimal.toList_ne_nil i heq.symm
  | head | gen | mark => exact absurd (hall (c := '$') List.mem_cons_self) (by decide)
  | hide => exact absurd (hall (c := '_') List.mem_cons_self) (by decide)
  | extend => exact absurd (hall (c := '+') List.mem_cons_self) (by decide)

theorem tokenFree_toList (i : Int) : TokenFree (ToString.toString i).toList := by
  intro value _ htoken
  obtain ⟨inner, hinner⟩ := uuidToken_eq_cons value
  have hopen : '<' ∈ (ToString.toString i).toList := htoken.subset (by simp [hinner])
  have hnot := Decimal.mem_toList hopen
  revert hnot
  decide

/-- A number is no mark. -/
theorem meaning_toList (i : Int) : bodySection.meaning true (ToString.toString i).toList =
    ((intWord? (ToString.toString i).toList).map Meaning.int).getD .text := by
  have hnamed : WordMark.ofWord? (ToString.toString i).toList = none := by
    rw [WordMark.ofWord?, List.find?_eq_none]
    intro value _ hfound
    rw [Bool.and_eq_true, beq_iff_eq] at hfound
    exact text_ne_toList value i hfound.2
  have himplicit : WordMark.implicit? (ToString.toString i).toList = none := by
    rw [WordMark.implicit?, List.find?_eq_none]
    intro value _ hfound
    rw [Bool.and_eq_true, beq_iff_eq] at hfound
    exact text_ne_toList value i hfound.2
  rw [Section.meaning, Section.uuid?_of_tokenFree (tokenFree_toList i)]
  simp only [classify, bodySection, hnamed, himplicit, if_true, Option.or_none]
  cases intWord? (ToString.toString i).toList <;> rfl

namespace ReadsAs

variable {value : Addition} {m : Meaning} (h : ReadsAs value m)

include h

theorem render_ne_nil : value.render ≠ [] := by
  cases h with
  | int => exact Decimal.toList_ne_nil _
  | negative => exact Decimal.toList_ne_nil _
  | @mark value nonempty =>
    revert nonempty
    cases value <;> decide
  | @uuid u => exact u.token_ne_nil

/-- The value is written as it is. -/
theorem exists_isCanonical : ∃ uuid, IsCanonical value.render uuid := by
  cases h with
  | int => exact ⟨none, .plain (tokenFree_toList _)⟩
  | negative => exact ⟨none, .plain (tokenFree_toList _)⟩
  | @mark value => exact ⟨none, .plain (cutToken?_eq_none.mp (by cases value <;> rfl))⟩
  | @uuid u proper =>
    have htoken : IsCanonical ([] ++ u.token ++ []) (some u) :=
      .token proper isClear_nil isClear_nil.tokenFree
    rw [List.append_nil] at htoken
    exact ⟨some u, htoken⟩

/-- The word that is written means the value, if it is at an edge. -/
theorem meaning_render : bodySection.meaning true value.render = m := by
  cases h with
  | @int i nonneg =>
    have hnonneg : 0 ≤ i.toInt := Int64.le_iff_toInt_le.mp nonneg
    have hword : intWord? (ToString.toString i.toInt).toList = some i := by
      rw [Decimal.toList_of_nonneg hnonneg, intWord?, Decimal.readNat?_toDigits, Option.bind_some,
        Int.toNat_of_nonneg hnonneg, Decimal.toInt64?_toInt]
    show bodySection.meaning true (ToString.toString i.toInt).toList = .int i
    rw [meaning_toList, hword]
    rfl
  | @negative i neg =>
    have hneg : i.toInt < 0 := Int64.lt_iff_toInt_lt.mp neg
    have hword : intWord? (ToString.toString i.toInt).toList = none := by
      rw [Decimal.toList_of_neg hneg]
      rfl
    show bodySection.meaning true (ToString.toString i.toInt).toList = .text
    rw [meaning_toList, hword]
    rfl
  | @mark value nonempty =>
    cases value with
    | empty => exact absurd rfl nonempty
    | head => rfl
    | gen => rfl
    | mark => rfl
    | hide => rfl
    | extend => rfl
  | @uuid u proper =>
    have hword : bodySection.uuid? u.token = some u := proper.wordUuid?_token
    show bodySection.meaning true u.token = .uuid u
    simp only [Section.meaning, hword]

end ReadsAs

/-- A value that is pushed alone is read back, if it is a uuid, a mark or a number that is not
negative. A negative number is read back as text. -/
theorem push_readsBack (hfresh₀ : fresh₀.IsProper) (hfresh : fresh.IsProper)
    (hx : parse .basic fresh₀ text = .ok x) {value : Addition} {m : Meaning} (hvalue : ReadsAs value m)
    (h : x.push fresh [value] = .ok p) : p.meaning? (.name "body") (-1) = some m := by
  have hproper : ∀ u, Addition.uuid (some u) ∈ [value] → u.IsProper := by
    intro u hu
    obtain rfl := List.mem_singleton.mp hu
    cases hvalue with
    | uuid proper => exact proper
  have hrender : ∀ other ∈ [value], other.render ≠ [] := by
    rintro _ hother
    rw [List.mem_singleton.mp hother]
    exact hvalue.render_ne_nil
  obtain ⟨parts, front, body, old, new, hpushed⟩ :=
    exists_pushed Scheme.isDotted_basic hfresh₀ hfresh hx (List.cons_ne_nil _ _) hproper hrender h
  obtain ⟨word, rest, hword, hrest, rfl⟩ := List.forall₂_cons_left_iff.mp hpushed.writes
  obtain rfl := List.forall₂_nil_left_iff.mp hrest
  obtain ⟨uuid, hcanonical⟩ := hvalue.exists_isCanonical
  obtain rfl := WritesWord.eq_of_isCanonical hword hcanonical
  obtain ⟨pushedText, hparse⟩ := hpushed.parsed
  have hdecoded := isDecoded_of_parse Scheme.isDotted_basic hfresh hparse
  obtain ⟨left, right, hhalves⟩ := hdecoded.exists_halves
  have hright : right = (old ++ boundaryWord body) ++ [value.render] := by
    have hlast := hpushed.endsWith.words?_last
    rw [hhalves.lastSection_eq, hhalves.words?_body, ← List.append_assoc] at hlast
    exact Option.some.inj hlast
  rw [hhalves.meaning?_last hdecoded hparse hright, hvalue.meaning_render]

/-- The greatest number, behind the uuid of the text. -/
theorem push_readsBack_greatest :
    ∃ x p : Sectioned .basic, parse .basic (Uuid.ofSeed 1) "a::b.<uuid>".toList = .ok x ∧
      x.push (Uuid.ofSeed 2) [.int 9223372036854775807] = .ok p ∧
      p.meaning? (.name "body") (-1) = some (.int 9223372036854775807) := by
  have hparse : parse .basic (Uuid.ofSeed 1) "a::b.<uuid>".toList = .ok _ := rfl
  refine ⟨_, _, hparse, rfl, ?_⟩
  exact push_readsBack (Uuid.isProper_ofSeed 1) (Uuid.isProper_ofSeed 2) hparse (.int (by decide)) rfl

/-- A negative number that is pushed is not read back. -/
theorem push_loses_negative :
    ∃ x p : Sectioned .basic, parse .basic (Uuid.ofSeed 1) "a::b".toList = .ok x ∧
      x.push (Uuid.ofSeed 2) [.int (-5)] = .ok p ∧ p.text = "a::b..-5".toList ∧
      p.meaning? (.name "body") (-1) = some .text ∧
      p.meaning? (.name "body") (-1) ≠ some (.int (-5)) := by
  exact ⟨_, _, rfl, rfl, rfl, rfl, by decide⟩

end Sectioned

end KeyExpansion
