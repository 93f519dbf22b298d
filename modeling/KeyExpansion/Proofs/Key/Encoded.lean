-- SUMMARY: Which single keys their templates encode.
import KeyExpansion.Proofs.Format.Fill
import KeyExpansion.Proofs.Key.Rebuilt
import KeyExpansion.Proofs.Key.Written

/-! # Encoded keys

The template of a single key says its name, its format and its conversion, and nothing in
it is escaped. Only a fill or a conversion may be a character that fields are read by, so
on these two it depends whether the template makes a key of the same name, format and
conversion again. -/

namespace KeyExpansion.Key

open Format (IsMeant)

variable {o : Options} {text : String} {k : Key}

/-- The template tells the format and the conversion of a single key apart. -/
structure IsEncoded (k : Key) : Prop where
  fill : ∀ f, Format.parse k.format = .ok f →
    f.fill ≠ '{' ∧ f.fill ≠ '}' ∧ (k.conversion = none → f.fill ≠ '!')
  conversion : ∀ letter ∈ k.conversion,
    letter ≠ '{' ∧ letter ≠ '}' ∧ letter ≠ if k.format = "" then ':' else '!'

theorem toList_conversion_field : k.field.conversion.toList = k.conversion.toList := by
  cases hconversion : k.conversion <;> simp [field, hconversion]

/-- Only the fill of a format may be a brace. -/
theorem isBraceFree_format {f : Format} {format : String} (hf : Format.parse format = .ok f) :
    Template.IsBraceFree format.toList ↔ f.fill ≠ '{' ∧ f.fill ≠ '}' := by
  have hopen : '{' ∈ format.toList ↔ f.fill = '{' :=
    (Format.mem_iff_eq_fill (by decide) (by decide) hf).trans eq_comm
  have hclose : '}' ∈ format.toList ↔ f.fill = '}' :=
    (Format.mem_iff_eq_fill (by decide) (by decide) hf).trans eq_comm
  rw [Ne, Ne, ← hopen, ← hclose]
  constructor
  · intro h
    exact ⟨fun hmem => (h _ hmem).1 rfl, fun hmem => (h _ hmem).2 rfl⟩
  · rintro ⟨hnotOpen, hnotClose⟩ c hc
    exact ⟨fun h => hnotOpen (h ▸ hc), fun h => hnotClose (h ▸ hc)⟩

/-- Without a format the conversion may be no colon, and with one no mark. Without a conversion
only the fill of the format may be a mark. -/
theorem isLegible_iff {f : Format} {format : String} {conversion : Option Char}
    (hf : Format.parse format = .ok f) :
    Template.IsLegible format.toList conversion.toList ↔
      (conversion = none → f.fill ≠ '!') ∧
        ∀ letter ∈ conversion, letter ≠ if format = "" then ':' else '!' := by
  have hmark : '!' ∈ format.toList ↔ f.fill = '!' :=
    (Format.mem_iff_eq_fill (by decide) (by decide) hf).trans eq_comm
  rw [Ne, ← hmark]
  constructor
  · rintro ⟨hcolon, hlone, hlast⟩
    refine ⟨fun hnone => hlone (by simp [hnone]), ?_⟩
    rintro letter hletter rfl
    split at hletter
    · next hempty => exact hcolon (by simpa using hempty) (by simpa using hletter)
    · next hnonempty => exact hlast (by simpa using hnonempty) (by simpa using hletter)
  · rintro ⟨hlone, hletter⟩
    refine ⟨fun hempty hc => ?_, fun hnone => hlone (by simpa using hnone), fun hnonempty hc => ?_⟩
    · exact hletter ':' (by simpa using hc) (by simp_all)
    · exact hletter '!' (by simpa using hc) (by simp_all)

/-- Format and conversion are read back as they were written if their characters allow it. -/
theorem isReadBack_field_iff (hformat : checkFormat k.format = .ok ()) :
    k.field.IsReadBack ↔ k.IsEncoded := by
  obtain ⟨f, hf⟩ := parse_of_checkFormat hformat
  have hfree := isBraceFree_format hf
  have hlegible := @isLegible_iff f k.format k.conversion hf
  rw [← toList_conversion_field] at hlegible
  constructor
  · rintro ⟨hformatFree, hconversionFree, hread⟩
    obtain ⟨hlone, hletter⟩ := hlegible.mp hread
    refine ⟨fun g hg => ?_, fun letter hmem => ?_⟩
    · obtain rfl : f = g := Except.ok.inj (hf.symm.trans hg)
      obtain ⟨hopen, hclose⟩ := hfree.mp hformatFree
      exact ⟨hopen, hclose, hlone⟩
    · rw [toList_conversion_field] at hconversionFree
      obtain ⟨hopen, hclose⟩ := hconversionFree letter (by simpa using hmem)
      exact ⟨hopen, hclose, hletter letter hmem⟩
  · rintro ⟨hfill, hconversion⟩
    obtain ⟨hopen, hclose, hlone⟩ := hfill f hf
    refine ⟨hfree.mpr ⟨hopen, hclose⟩, fun c hc => ?_, ?_⟩
    · rw [toList_conversion_field, Option.mem_toList] at hc
      exact ⟨(hconversion c hc).1, (hconversion c hc).2.1⟩
    · exact hlegible.mpr ⟨hlone, fun letter hmem => (hconversion letter hmem).2.2⟩

/-- The template of a single key makes a single key of the same name, format and conversion
exactly if it tells these apart. -/
theorem ofText_template_iff (hmake : make (.text text) o = .ok k) (hforce : o.force = false)
    (hnull : k.isNull = false) (hparts : k.parts = none) :
    (∃ w, ofText k.template = .ok w ∧ w.isNull = false ∧ w.parts = none ∧ w.text = k.text ∧
      w.format = k.format ∧ w.conversion = k.conversion) ↔ k.IsEncoded := by
  obtain ⟨p, hlit, hname, hmakes⟩ : ∃ p, k.field.isLiteral = false ∧
      Template.IsName k.text.toList ∧ makeSingle o p = .ok k := by
    cases comesFrom_of_makeText hforce hnull hmake with
    | @field p hlit hname hmakes => exact ⟨p, hlit, hname, hmakes⟩
    | fields _ _ hmakes =>
      obtain ⟨_, -, _, -, _, -, -, rfl⟩ := makeTemplate_eq_ok.mp hmakes
      cases hparts
  have hformat : checkFormat k.format = .ok () := by
    obtain ⟨_, -, -, hformat, rfl⟩ := makeSingle_eq_ok.mp hmakes
    exact hformat
  rw [← isReadBack_field_iff hformat]
  constructor
  · rintro ⟨w, hw, hwNull, hwParts, htext, hsameFormat, hsameConversion⟩
    have hfield : w.field = k.field := by
      rw [field, field, htext, hsameFormat, hsameConversion]
    exact (isReadBack_of_ofText hnull hparts hlit hname hw hwNull hwParts hfield).1
  · intro hback
    have hw := ofText_template_of_isReadBack hnull hparts hlit hname hformat hback
    have hnatural : naturalMark k.field k.conversion ≠ .null := by
      intro hmark
      have hmem := naturalMark_mem k.field k.conversion
      rw [hmark] at hmem
      exact absurd hmem (by decide)
    exact ⟨_, hw, by simpa [isNull, assembled] using hnatural, rfl, rfl, rfl, rfl⟩

/-- Colons for a fill and a conversion are told apart by the mark between them. -/
theorem ofText_template_iff_colons :
    make (.text "\x7bname\x7d") { format := some ":^6", conversion := some ":" }
        = .ok (assembled {} "name" ":^6" (some ':') .free) ∧
      ∃ w, ofText (assembled {} "name" ":^6" (some ':') .free).template = .ok w ∧
        w.isNull = false ∧ w.parts = none ∧ w.text = "name" ∧ w.format = ":^6" ∧
        w.conversion = some ':' := by
  have hmake : make (.text "\x7bname\x7d") { format := some ":^6", conversion := some ":" }
      = .ok (assembled {} "name" ":^6" (some ':') .free) := by
    rfl
  refine ⟨hmake, (ofText_template_iff hmake rfl rfl rfl).mpr ⟨fun f hf => ?_, ?_⟩⟩
  · obtain rfl : { fill := ':', align := some .center, width := some 6 } = f := by
      exact Except.ok.inj hf
    simp
  · rintro letter ⟨rfl⟩
    decide

/-- The mark of a conversion that a format begins with is taken for one. -/
theorem template_misread : ∃ k w,
    make (.text "\x7ba!:!<\x7d") {} = .ok k ∧ k.template = "\x7ba:!<\x7d" ∧
      k.format = "!<" ∧ k.conversion = none ∧
      ofText k.template = .ok w ∧ w.format = "" ∧ w.conversion = some '<' := by
  exact ⟨_, _, rfl, rfl, rfl, rfl, rfl, rfl, rfl⟩

end KeyExpansion.Key
