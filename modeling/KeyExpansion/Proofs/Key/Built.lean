-- SUMMARY: How keys come to be, and what all of them have in common.
import KeyExpansion.Proofs.Key.Template
import KeyExpansion.Proofs.Template.Fill

/-! # Built keys

A text makes a key of a name, plain text, or a template. Keys come from texts, paths and
other keys, and out of templates, whose keys are always those of fields without options. -/

namespace KeyExpansion.Key

/-- A key as it may come to be, where all options satisfy `P`. -/
inductive BuiltWith (P : Options → Prop) : Key → Prop where
  | make {input : Input} {o : Options} {k : Key}
      (source : ∀ other, input = .key other → BuiltWith P other) (options : P o)
      (makes : make input o = .ok k) : BuiltWith P k
  | label {k : Key} (n : Option Nat) (unlabelled : BuiltWith P k) :
      BuiltWith P { k with label := n }
  | field {k sub : Key} (template : BuiltWith P k) (mem : sub ∈ k.subkeys) : BuiltWith P sub

variable {o : Options} {text : String} {k : Key}

/-- A bare name makes the key of the one field that it is in braces. -/
theorem alone_of_makeImplicit (h : makeImplicit o text = .ok k) :
    text ≠ "" ∧ ∃ p, Template.pieces (inBraces text) = .ok [p] ∧ makeSingle o p = .ok k := by
  unfold makeImplicit at h
  split at h
  · cases h
  · split at h
    · cases h
    · rename_i hparam
      obtain ⟨pieces, hread, h⟩ := Except.bind_eq_ok.mp h
      split at h
      · refine ⟨?_, _, readPieces_eq_ok.mp hread, h⟩
        rintro rfl
        exact hparam rfl
      · cases h

/-- A bare name makes a single key. -/
theorem exists_single_of_makeImplicit (h : makeImplicit o text = .ok k) :
    ∃ p, makeSingle o p = .ok k := by
  obtain ⟨-, p, -, hp⟩ := alone_of_makeImplicit h
  exact ⟨p, hp⟩

/-- The ways in which a text makes a key: it is forced to, or it is a bare name, plain text, one
field alone, or any other template. -/
inductive FromText (o : Options) (text : String) (k : Key) : Prop where
  | forced {letter : Option Char} (force : o.force = true)
      (makes : assembled o text (o.format.getD "") letter (o.mark.getD .free) = k)
  | bare (asked : o.implicit = true ∨ o.mark.isSome = true) (brace : hasBrace text = false)
      (makes : makeImplicit o text = .ok k)
  | plain (makes : makeNull o text = .ok k)
  | field {p : Template.Piece} (reads : Template.pieces text = .ok [p]) (lead : p.lead = "")
      (isLiteral : p.isLiteral = false) (makes : makeSingle o p = .ok k)
  | template {pieces : List Template.Piece} (reads : Template.pieces text = .ok pieces)
      (field : ∃ p ∈ pieces, p.isLiteral = false)
      (alone : ∀ p, pieces = [p] → p.lead = "" → o.mark = some .multi)
      (makes : makeTemplate o text pieces = .ok k)

theorem fromText_of_ofPieces {pieces : List Template.Piece} (hreads : Template.pieces text = .ok pieces)
    (h : ofPieces o text pieces = .ok k) : FromText o text k := by
  unfold ofPieces at h
  split at h
  · split at h
    · next hbare =>
      obtain ⟨⟨hmark, -⟩, hbrace⟩ := by simpa only [Bool.and_eq_true] using hbare
      have hgiven : o.mark.isSome = true := by
        obtain ⟨mark, hmark, -⟩ := (Option.any_eq_true _ _).mp hmark
        rw [hmark, Option.isSome_some]
      exact .bare (.inr hgiven) (by simpa using hbrace) h
    · exact .plain h
  · next hall =>
    have hfield : ∃ p ∈ pieces, p.isLiteral = false := by simpa using hall
    split at h
    · next p =>
      split at h
      · next halone =>
        obtain ⟨hlead, -⟩ := by simpa using halone
        exact .field hreads hlead (by simpa using hfield) h
      · next halone =>
        refine .template hreads hfield ?_ h
        rintro q ⟨rfl⟩ hlead
        simpa [hlead] using halone
    · next hmany => exact .template hreads hfield (fun q hq => absurd hq (hmany q)) h

theorem fromText_of_makeText (h : makeText o text = .ok k) : FromText o text k := by
  unfold makeText at h
  split at h
  · next hforce =>
    obtain ⟨letter, -, h⟩ := Except.bind_eq_ok.mp h
    exact .forced hforce (assemble_eq_ok.mp h).2
  · split at h
    · next himplicit =>
      split at h
      · cases h
      · next hbrace => exact .bare (.inl himplicit) (by simpa using hbrace) h
    · obtain ⟨pieces, hread, h⟩ := Except.bind_eq_ok.mp h
      exact fromText_of_ofPieces (readPieces_eq_ok.mp hread) h

theorem isNull_of_makeNull (h : makeNull o text = .ok k) : k.isNull = true := by
  obtain ⟨-, -, rfl⟩ := makeNull_eq_ok.mp h
  rfl

theorem parts_of_makeSingle {p : Template.Piece} (h : makeSingle o p = .ok k) : k.parts = none := by
  obtain ⟨_, -, -, -, rfl⟩ := makeSingle_eq_ok.mp h
  rfl

/-- What a text makes. -/
theorem makeText_cases (h : makeText o text = .ok k) :
    (∃ name format conversion mark, assembled o name format conversion mark = k) ∨
      makeNull o text = .ok k ∨ ∃ pieces, makeTemplate o text pieces = .ok k := by
  have hsingle {p : Template.Piece} (h : makeSingle o p = .ok k) :
      ∃ name format conversion mark, assembled o name format conversion mark = k := by
    obtain ⟨conversion, -, -, -, hk⟩ := makeSingle_eq_ok.mp h
    exact ⟨_, _, _, _, hk⟩
  cases fromText_of_makeText h with
  | forced _ makes => exact .inl ⟨_, _, _, _, makes⟩
  | bare _ _ makes =>
    obtain ⟨p, hp⟩ := exists_single_of_makeImplicit makes
    exact .inl (hsingle hp)
  | plain makes => exact .inr (.inl makes)
  | field _ _ _ makes => exact .inl (hsingle makes)
  | template _ _ _ makes => exact .inr (.inr ⟨_, makes⟩)

theorem parts_of_makeNull (h : makeNull o text = .ok k) : k.parts = none := by
  obtain ⟨-, -, rfl⟩ := makeNull_eq_ok.mp h
  rfl

theorem subkeys_of_makeNull (h : makeNull o text = .ok k) : k.subkeys = [] := by
  simp [subkeys, parts_of_makeNull h]

/-- The keys of a template are those of its fields, whatever the options. -/
theorem exists_field_of_makeText (h : makeText o text = .ok k) {sub : Key} (hsub : sub ∈ k.subkeys) :
    ∃ p, makeSingle {} p = .ok sub := by
  rcases makeText_cases h with ⟨_, _, _, _, rfl⟩ | hnull | ⟨pieces, htemplate⟩
  · simp [assembled, subkeys] at hsub
  · simp [subkeys_of_makeNull hnull] at hsub
  · obtain ⟨mark, -, subkeys, hsubkeys, conversion, -, -, rfl⟩ := makeTemplate_eq_ok.mp htemplate
    obtain ⟨p, -, hp⟩ := Except.exists_of_mem_mapM hsubkeys hsub
    exact ⟨p, hp⟩

/-- The keys of a template are single and have no limit. -/
def HasFreeFields (k : Key) : Prop :=
  ∀ sub ∈ k.subkeys, sub.parts = none ∧ sub.limit = none

theorem hasFreeFields_of_parts (h : k.parts = none) : k.HasFreeFields := by
  simp [HasFreeFields, subkeys, h]

theorem hasFreeFields_of_makeText (h : makeText o text = .ok k) : k.HasFreeFields := by
  intro sub hsub
  obtain ⟨p, hp⟩ := exists_field_of_makeText h hsub
  obtain ⟨conversion, -, -, -, rfl⟩ := makeSingle_eq_ok.mp hp
  exact ⟨rfl, rfl⟩

/-- A key is made from a text, unless it is the one that was given. -/
theorem makeText_of_make {input : Input} (h : make input o = .ok k) :
    (∃ o' text, makeText o' text = .ok k) ∨ input = .key k := by
  cases input with
  | text text => exact .inl ⟨_, _, h⟩
  | path path => exact .inl ⟨_, _, h⟩
  | key other =>
    simp only [make] at h
    split at h
    · exact .inl ⟨_, _, h⟩
    · cases h
      exact .inr rfl

theorem BuiltWith.hasFreeFields {P : Options → Prop} (h : k.BuiltWith P) : k.HasFreeFields := by
  induction h with
  | make _ _ makes ih =>
    rcases makeText_of_make makes with ⟨_, _, htext⟩ | rfl
    · exact hasFreeFields_of_makeText htext
    · exact ih _ rfl
  | label n _ ih => exact ih
  | field _ mem ih => exact hasFreeFields_of_parts (ih _ mem).1

/-! ## Rendering -/

/-- The keys of a template can be written as texts, and these fill its slots. -/
structure IsRenderable (k : Key) : Prop where
  format : ∀ sub ∈ k.subkeys, ∃ f, Format.parse sub.format = .ok f
  slots : ∀ parts ∈ k.parts, ∀ texts : List String, texts.length = parts.subkeys.length →
    ∃ text, Template.fill parts.slots texts = .ok text

theorem isRenderable_of_parts (h : k.parts = none) : k.IsRenderable where
  format := by simp [subkeys, h]
  slots := by simp [h]

theorem isRenderable_of_makeTemplate {pieces : List Template.Piece}
    (h : makeTemplate o text pieces = .ok k) : k.IsRenderable := by
  obtain ⟨mark, -, subkeys, hsubkeys, conversion, -, -, rfl⟩ := makeTemplate_eq_ok.mp h
  refine ⟨fun sub hsub => ?_, ?_⟩
  · obtain ⟨p, -, hp⟩ := Except.exists_of_mem_mapM hsubkeys hsub
    obtain ⟨conversion, -, -, hformat, rfl⟩ := makeSingle_eq_ok.mp hp
    exact parse_of_checkFormat hformat
  · rintro _ ⟨rfl⟩ texts htexts
    have hlength := (Except.mapM_eq_ok.mp hsubkeys).length_eq
    exact Template.exists_fill_pieces (by rw [hlength, htexts])

theorem isRenderable_of_makeText (h : makeText o text = .ok k) : k.IsRenderable := by
  rcases makeText_cases h with ⟨_, _, _, _, rfl⟩ | hnull | ⟨pieces, htemplate⟩
  · exact isRenderable_of_parts rfl
  · exact isRenderable_of_parts (parts_of_makeNull hnull)
  · exact isRenderable_of_makeTemplate htemplate

/-- Whatever the options, a template can be rendered. -/
theorem BuiltWith.isRenderable {P : Options → Prop} (h : k.BuiltWith P) : k.IsRenderable := by
  induction h with
  | make _ _ makes ih =>
    rcases makeText_of_make makes with ⟨_, _, htext⟩ | rfl
    · exact isRenderable_of_makeText htext
    · exact ih _ rfl
  | label n _ ih => exact ⟨ih.format, ih.slots⟩
  | field template mem _ => exact isRenderable_of_parts (template.hasFreeFields _ mem).1

end KeyExpansion.Key
