-- SUMMARY: What keys of the path mark have in common.
import KeyExpansion.Proofs.Expansion.Indirect
import KeyExpansion.Proofs.Key.WellFormed

/-! # Keys of the path mark

Single keys and templates of the path mark have families of their own, which behave alike. A
template of one field alone is read as a single key unless the multi mark is asked for, so no
template of the path mark passes on the value of its only key. -/

namespace KeyExpansion.Key

variable {k : Key} {o : Options} {text : String} {P : Options → Prop}

/-- What keys of the path mark have in common: the final value is resolved, and a template is
text, never the value of one key alone. -/
structure MakesPath (k : Key) : Prop where
  isNull : k.isNull = false
  conduct : k.family.conduct = .path
  literal : ∀ parts ∈ k.parts, ∀ sub, parts.subkeys = [sub] → parts.hasLiteral = true

/-- A text that is not plain makes a single key, or a template. The template is one field alone
only if the multi mark is asked for. -/
theorem parts_none_or_template (hnull : k.isNull = false) (h : makeText o text = .ok k) :
    k.parts = none ∨ ∃ pieces, Template.pieces text = .ok pieces ∧
      (∀ p, pieces = [p] → p.lead = "" → o.mark = some .multi) ∧
      makeTemplate o text pieces = .ok k := by
  cases fromText_of_makeText h with
  | forced _ makes => exact .inl (makes ▸ rfl)
  | bare _ _ makes =>
    obtain ⟨p, hp⟩ := exists_single_of_makeImplicit makes
    exact .inl (parts_of_makeSingle hp)
  | plain makes => simp [isNull_of_makeNull makes] at hnull
  | field _ _ _ makes => exact .inl (parts_of_makeSingle makes)
  | template reads _ alone makes => exact .inr ⟨_, reads, alone, makes⟩

/-- A template of one key without literal text is of the multi mark. -/
theorem hasLiteral_of_makeText (hnull : k.isNull = false) (hmark : k.mark ≠ .multi)
    (h : makeText o text = .ok k) :
    ∀ parts ∈ k.parts, ∀ sub, parts.subkeys = [sub] → parts.hasLiteral = true := by
  rcases parts_none_or_template hnull h with hparts | ⟨pieces, hpieces, halone, htemplate⟩
  · simp [hparts]
  · obtain ⟨mark, hasked, subkeys, hsubkeys, conversion, -, -, rfl⟩ := makeTemplate_eq_ok.mp htemplate
    rintro _ ⟨rfl⟩ sub (rfl : subkeys = [sub])
    by_contra hlead
    obtain ⟨p, hp, hlead⟩ := (alone_iff (Template.isRead_of_mem_pieces hpieces) hsubkeys).mp
      ⟨by simpa using hlead, List.length_singleton⟩
    rw [templateMark, halone p hp hlead] at hasked
    exact hmark (Except.ok.inj hasked).symm

theorem isNull_of_mark (hmark : k.mark = .path) : k.isNull = false := by
  rw [isNull, hmark]
  rfl

theorem makesPath_of_makeText (hmark : k.mark = .path) (h : makeText o text = .ok k) :
    k.MakesPath := by
  have hnull := isNull_of_mark hmark
  refine ⟨hnull, ?_, hasLiteral_of_makeText hnull (by rw [hmark]; decide) h⟩
  rcases makeText_cases h with ⟨name, format, conversion, mark, rfl⟩ | hplain | ⟨pieces, htemplate⟩
  · obtain rfl : mark = .path := hmark
    rfl
  · simp [isNull_of_makeNull hplain] at hnull
  · obtain ⟨mark, -, subkeys, -, conversion, -, -, rfl⟩ := makeTemplate_eq_ok.mp htemplate
    obtain rfl : mark = .path := hmark
    rfl

theorem BuiltWith.makesPath (h : k.BuiltWith P) (hmark : k.mark = .path) : k.MakesPath := by
  induction h with
  | make _ _ makes ih =>
    rcases makeText_of_make makes with ⟨_, _, htext⟩ | rfl
    · exact makesPath_of_makeText hmark htext
    · exact ih _ rfl hmark
  | label n _ ih =>
    have hpath := ih hmark
    exact ⟨hpath.isNull, hpath.conduct, hpath.literal⟩
  | field template mem _ =>
    have hparts := (template.hasFreeFields _ mem).1
    refine ⟨isNull_of_mark hmark, ?_, by simp [hparts]⟩
    rw [template.hasOwnFamily.field _ mem, hmark]
    rfl

end KeyExpansion.Key
