-- SUMMARY: A format is its fill, and characters that mean something else.
import KeyExpansion.Proofs.Format.Grammar

/-! # Fills of formats

Every character of a format stands for an alignment, a size or a type, but for the fill,
which may be any character at all. So a character without such a meaning stands in a format
exactly if it is the fill. -/

namespace KeyExpansion.Format

/-- Does the character say something in a format wherever it may stand? -/
def IsMeant (c : Char) : Prop :=
  (Align.ofChar? c).isSome ∨ c.isDigit ∨ c = '.' ∨ c ∈ types

instance (c : Char) : Decidable (IsMeant c) :=
  inferInstanceAs (Decidable (_ ∨ _ ∨ _ ∨ _))

variable {c fill : Char} {align : Option Align} {cs lead width precision : List Char} {f : Format}

theorem not_align (hc : ¬ IsMeant c) {d : Char} {align : Align} (h : Align.ofChar? d = some align) :
    c ≠ d := by
  rintro rfl
  exact hc (.inl (by rw [h]; rfl))

/-- What is written for fill and alignment has no other character than these. -/
theorem WritesAlign.mem_iff (hc : ¬ IsMeant c) (hspace : c ≠ ' ') (h : WritesAlign fill align cs) :
    c ∈ cs ↔ c = fill := by
  cases h with
  | absent => simp [hspace]
  | bare isAlign => simp [hspace, not_align hc isAlign]
  | filled isAlign => simp [not_align hc isAlign]

/-- Every character behind the alignment has a meaning. -/
theorem WritesParts.isMeant (h : WritesParts f lead width precision cs)
    (hc : c ∈ flag f.zero ++ (width ++ (precision ++ f.type.toList))) : IsMeant c := by
  rcases h.mem_cases hc with hdigit | hpoint | htype
  · exact .inr (.inl hdigit)
  · exact .inr (.inr (.inl hpoint))
  · exact .inr (.inr (.inr htype))

/-- A character that says nothing stands in a format exactly if it is the fill. -/
theorem mem_iff_eq_fill (hc : ¬ IsMeant c) (hspace : c ≠ ' ') {text : String} {f : Format}
    (h : parse text = .ok f) : c ∈ text.toList ↔ c = f.fill := by
  obtain ⟨lead, width, precision, h, -⟩ := parse_eq_ok_iff_writes.mp h
  rw [h.text_eq, List.mem_append, h.align.mem_iff hc hspace]
  exact or_iff_left fun hrest => hc (h.isMeant hrest)

end KeyExpansion.Format
