-- SUMMARY: Keys that are not forced are well formed, whatever they are built from.
import KeyExpansion.Proofs.Key.Rebuilt
import KeyExpansion.Proofs.Key.Written

/-! # Well-formed keys

Plain text, the key of a field, and a template each have what their kind asks for, and
nothing of another kind. All ways to build a key keep to that, unless the key is forced to
take its text as its name. Expansion never checks any of it again. -/

namespace KeyExpansion

namespace Family

/-- The family of keys whose mark has none. -/
def general (multi : Bool) : Family :=
  if multi then multiKey else free

/-- Families of templates are for templates. -/
theorem multi_getD_registered? (mark : Mark) (multi : Bool) :
    ((registered? mark multi).getD (general multi)).multi = multi := by
  cases h : registered? mark multi with
  | none => cases multi <;> rfl
  | some family =>
    have hfound := List.find?_some h
    simp only [Bool.and_eq_true, beq_iff_eq] at hfound
    exact hfound.2

end Family

namespace Key

/-- Plain text asks for nothing, and has no value to fall back to. -/
structure IsPlainText (k : Key) : Prop where
  isMulti : k.isMulti = false
  conversion : k.conversion = none
  format : k.format = ""
  check : k.check = none
  fallback : ∀ value, k.fallback ≠ some (.value value)

/-- What holds of a key apart from its parts. -/
structure IsSound (k : Key) : Prop where
  multi : k.isMulti = k.family.multi
  family : k.family = (Family.registered? k.mark k.isMulti).getD (Family.general k.isMulti)
  plain : k.isNull = true → k.IsPlainText
  name : k.isNull = false → k.isMulti = false → k.text ≠ "" ∧ Template.IsName k.text.toList
  format : k.format = "" ∨ ∃ f, Format.parse k.format = .ok f

/-- The parts of a template are keys of fields, and the template has a slot for each. -/
structure IsWellFormed (k : Key) : Prop extends k.IsSound where
  nonempty : ∀ parts ∈ k.parts, parts.subkeys ≠ []
  field : ∀ sub ∈ k.subkeys, sub.isMulti = false ∧ sub.isNull = false ∧ sub.IsSound
  slots : ∀ parts ∈ k.parts, ∀ texts : List String,
    (∃ text, Template.fill parts.slots texts = .ok text) ↔ parts.subkeys.length ≤ texts.length

variable {o : Options} {text : String} {k : Key}

theorem IsSound.isWellFormed_of_parts (h : k.IsSound) (hparts : k.parts = none) : k.IsWellFormed where
  toIsSound := h
  nonempty := by simp [hparts]
  field := by simp [subkeys, hparts]
  slots := by simp [hparts]

theorem IsSound.label (h : k.IsSound) (n : Option Nat) : IsSound { k with label := n } where
  multi := h.multi
  family := h.family
  plain hnull :=
    have hplain := h.plain hnull
    ⟨hplain.isMulti, hplain.conversion, hplain.format, hplain.check, hplain.fallback⟩
  name := h.name
  format := h.format

/-! ## Plain text -/

theorem isSound_of_makeNull (h : makeNull o text = .ok k) : k.IsSound := by
  obtain ⟨-, hfallback, rfl⟩ := makeNull_eq_ok.mp h
  exact ⟨rfl, rfl, fun _ => ⟨rfl, rfl, rfl, rfl, hfallback⟩, by simp [isNull, plainText], .inl rfl⟩

/-! ## Fields -/

theorem naturalMark_ne_null (p : Template.Piece) (conversion : Option Char) :
    naturalMark p conversion ≠ .null := by
  intro hnull
  have hmem := naturalMark_mem p conversion
  rw [hnull] at hmem
  simp at hmem

theorem isNull_of_makeSingle {p : Template.Piece} (h : makeSingle o p = .ok k) :
    k.isNull = false := by
  obtain ⟨conversion, -, hmark, -, rfl⟩ := makeSingle_eq_ok.mp h
  have hne : o.mark.getD (naturalMark p conversion) ≠ .null := by
    cases ho : o.mark with
    | none => exact naturalMark_ne_null p conversion
    | some mark =>
      rintro rfl
      exact hmark ho
  simpa [isNull, assembled] using hne

theorem text_of_makeSingle {p : Template.Piece} (h : makeSingle o p = .ok k) : k.text = p.name := by
  obtain ⟨_, -, -, -, rfl⟩ := makeSingle_eq_ok.mp h
  rfl

theorem isSound_of_makeSingle {p : Template.Piece} (hne : k.text ≠ "")
    (hname : Template.IsName k.text.toList) (h : makeSingle o p = .ok k) : k.IsSound := by
  have hnull := isNull_of_makeSingle h
  obtain ⟨conversion, -, -, hformat, rfl⟩ := makeSingle_eq_ok.mp h
  refine ⟨(Family.multi_getD_registered? _ false).symm, rfl, ?_, fun _ _ => ⟨hne, hname⟩,
    .inr (parse_of_checkFormat hformat)⟩
  intro hplain
  simp [hnull] at hplain

/-! ## Templates -/

theorem templateMark_ne_null : templateMark o text ≠ .ok .null := by
  intro h
  unfold templateMark at h
  split at h
  · cases h
  · cases h
  · split at h
    · next hregistered =>
      cases h
      simp [Family.registered?, Family.all, Family.null, Family.free, Family.multiKey] at hregistered
    · cases h

theorem isNull_of_makeTemplate {pieces : List Template.Piece}
    (h : makeTemplate o text pieces = .ok k) : k.isNull = false := by
  obtain ⟨mark, hmark, _, -, _, -, -, rfl⟩ := makeTemplate_eq_ok.mp h
  have hne : mark ≠ .null := by
    rintro rfl
    exact templateMark_ne_null hmark
  simpa [isNull, templated] using hne

/-- The keys of a template are those of fields with names. -/
theorem isSound_of_mem_mapM {pieces : List Template.Piece} {subkeys : List Key} {sub : Key}
    (hread : ∀ p ∈ pieces, p.IsRead)
    (hsubkeys : (pieces.filter (!·.isLiteral)).mapM (makeSingle {}) = .ok subkeys)
    (hsub : sub ∈ subkeys) : sub.isMulti = false ∧ sub.isNull = false ∧ sub.IsSound := by
  obtain ⟨p, hp, hmake⟩ := Except.exists_of_mem_mapM hsubkeys hsub
  obtain ⟨hp, hfield⟩ := List.mem_filter.mp hp
  have hlit : p.isLiteral = false := by simpa using hfield
  have htext := text_of_makeSingle hmake
  have hne : sub.text ≠ "" := by simpa [htext, Template.Piece.isLiteral] using hlit
  have hname : Template.IsName sub.text.toList := htext ▸ (hread p hp).name hlit
  exact ⟨by simp [isMulti, parts_of_makeSingle hmake], isNull_of_makeSingle hmake,
    isSound_of_makeSingle hne hname hmake⟩

theorem isSound_of_makeTemplate {pieces : List Template.Piece}
    (h : makeTemplate o text pieces = .ok k) : k.IsSound := by
  have hnull := isNull_of_makeTemplate h
  obtain ⟨mark, -, _, -, conversion, -, hformat, rfl⟩ := makeTemplate_eq_ok.mp h
  refine ⟨(Family.multi_getD_registered? _ true).symm, rfl, ?_, ?_, .inr (parse_of_checkFormat hformat)⟩
  · intro hplain
    simp [hnull] at hplain
  · intro _ hsingle
    cases hsingle

theorem isWellFormed_of_makeTemplate {pieces : List Template.Piece}
    (hread : ∀ p ∈ pieces, p.IsRead) (hfield : ∃ p ∈ pieces, p.isLiteral = false)
    (h : makeTemplate o text pieces = .ok k) : k.IsWellFormed := by
  have hsound := isSound_of_makeTemplate h
  obtain ⟨mark, -, subkeys, hsubkeys, conversion, -, -, rfl⟩ := makeTemplate_eq_ok.mp h
  have hlength := (Except.mapM_eq_ok.mp hsubkeys).length_eq
  refine ⟨hsound, ?nonempty, fun sub hsub => isSound_of_mem_mapM hread hsubkeys hsub, ?slots⟩
  case nonempty =>
    rintro _ ⟨rfl⟩ rfl
    obtain ⟨p, hp, hlit⟩ := hfield
    have hmem : p ∈ pieces.filter (!·.isLiteral) := List.mem_filter.mpr ⟨hp, by simp [hlit]⟩
    simp [List.length_eq_zero_iff.mp hlength] at hmem
  case slots =>
    rintro _ ⟨rfl⟩ texts
    rw [← hlength]
    constructor
    · rintro ⟨text, htext⟩
      exact Template.length_le_of_fill_pieces htext
    · exact Template.exists_fill_pieces

/-! ## Everything that is built -/

/-- A null key that is not forced is plain text. -/
theorem makeNull_of_isNull (hforce : o.force = false) (hnull : k.isNull = true)
    (h : makeText o text = .ok k) : makeNull o text = .ok k := by
  have hsingle {p : Template.Piece} (h : makeSingle o p = .ok k) : False := by
    simp [isNull_of_makeSingle h] at hnull
  cases fromText_of_makeText h with
  | forced force => simp [hforce] at force
  | bare _ _ makes =>
    obtain ⟨p, hp⟩ := exists_single_of_makeImplicit makes
    exact (hsingle hp).elim
  | plain makes => exact makes
  | field _ _ _ makes => exact (hsingle makes).elim
  | template _ _ _ makes => simp [isNull_of_makeTemplate makes] at hnull

theorem isWellFormed_of_makeText (hforce : o.force = false) (h : makeText o text = .ok k) :
    k.IsWellFormed := by
  cases hnull : k.isNull with
  | true =>
    have hmake := makeNull_of_isNull hforce hnull h
    exact (isSound_of_makeNull hmake).isWellFormed_of_parts (parts_of_makeNull hmake)
  | false =>
    cases comesFrom_of_makeText hforce hnull h with
    | field hlit hname makes =>
      have hne : k.text ≠ "" := by simpa [Key.field, Template.Piece.isLiteral] using hlit
      exact (isSound_of_makeSingle hne hname makes).isWellFormed_of_parts (parts_of_makeSingle makes)
    | fields reads field makes =>
      exact isWellFormed_of_makeTemplate (Template.isRead_of_mem_pieces reads) field makes

/-- All keys are well formed that are built from texts, paths and other such keys without
being forced. -/
theorem isWellFormed_of_builtWith (h : k.BuiltWith (·.force = false)) : k.IsWellFormed := by
  induction h with
  | @make input o k _ hforce makes ih =>
    cases input with
    | text text => exact isWellFormed_of_makeText hforce makes
    | path path => exact isWellFormed_of_makeText hforce makes
    | key other =>
      simp only [make] at makes
      split at makes
      · -- What the key brings along does not force anything.
        exact isWellFormed_of_makeText (o := o.inherit other) hforce makes
      · cases makes
        exact ih _ rfl
  | label n _ ih => exact ⟨ih.toIsSound.label n, ih.nonempty, ih.field, ih.slots⟩
  | field _ mem ih =>
    obtain ⟨hsingle, -, hsound⟩ := ih.field _ mem
    exact hsound.isWellFormed_of_parts (by simpa [isMulti] using hsingle)

/-- A template of a path is made again with a help text. -/
theorem isWellFormed_of_builtWith_path : ∃ k k',
    make (.text "\x7ba\x7d/\x7bb:>4!s\x7d") { mark := some .path } = .ok k ∧
      make (.key k) { mark := some .path, help := some "where" } = .ok k' ∧
      k'.subkeys.length = 2 ∧ k'.BuiltWith (·.force = false) ∧ k'.IsWellFormed := by
  obtain ⟨k, hk⟩ : ∃ k, make (.text "\x7ba\x7d/\x7bb:>4!s\x7d") { mark := some .path } = .ok k :=
    ⟨_, rfl⟩
  obtain ⟨k', hk', hlength⟩ : ∃ k', make (.key k) { mark := some .path, help := some "where" } = .ok k'
      ∧ k'.subkeys.length = 2 := by
    cases hk
    exact ⟨_, rfl, rfl⟩
  have hbuilt : k.BuiltWith (·.force = false) := .make (by simp) rfl hk
  have hbuilt' : k'.BuiltWith (·.force = false) := .make (by rintro _ ⟨rfl⟩; exact hbuilt) rfl hk'
  exact ⟨k, k', hk, hk', hlength, hbuilt', isWellFormed_of_builtWith hbuilt'⟩

end Key

end KeyExpansion
