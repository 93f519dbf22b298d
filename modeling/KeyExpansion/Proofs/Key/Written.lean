-- SUMMARY: What the keys that texts and bare names make have in common.
import KeyExpansion.Proofs.Expansion.Settle
import KeyExpansion.Proofs.Key.Built

/-! # Written keys

A key made from a text or a bare name alone has no limit and no coercion from outside,
and looks under its direct and its indirect name. A single one has no brace in its
name, and a template is what its own text makes. -/

namespace KeyExpansion

/-- The name of a piece holds no brace, if it has one. -/
theorem Template.Piece.IsRead.hasBrace_name {p : Template.Piece} (h : p.IsRead) :
    hasBrace p.name = false := by
  cases hlit : p.isLiteral with
  | true =>
    have hname : p.name = "" := by simpa [Template.Piece.isLiteral] using hlit
    simp [hname, hasBrace]
  | false => exact Template.hasBrace_eq_false.mpr (h.name hlit).1

namespace Key

/-- A key without a limit or a coercion from outside, that looks under its names. -/
structure IsPlain (k : Key) : Prop where
  limit : k.limit = none
  coercion : ¬ k.coercion.IsCustom
  plan : ∀ sources,
    k.family.conduct.plan k sources = .targets [⟨k.direct, false⟩, ⟨k.indirect, true⟩]

/-- A plain key of one field. -/
structure IsField (k : Key) : Prop extends k.IsPlain where
  parts : k.parts = none
  name : hasBrace k.text = false

/-- A plain key that its text alone makes. -/
structure IsWritten (k : Key) : Prop extends k.IsPlain where
  name : k.isNull = false → k.parts = none → hasBrace k.text = false
  field : ∀ sub ∈ k.subkeys, ofText k.text = .ok k ∧ hasBrace k.text = true ∧ sub.IsField

theorem IsField.subkeys_eq_nil {k : Key} (h : k.IsField) : k.subkeys = [] := by
  simp [subkeys, h.parts]

theorem IsField.isWritten {k : Key} (h : k.IsField) : k.IsWritten where
  toIsPlain := h.toIsPlain
  name _ _ := h.name
  field := by simp [h.subkeys_eq_nil]

/-! ## Fields -/

/-- The marks that a field gives its key by itself. -/
theorem naturalMark_mem (p : Template.Piece) (conversion : Option Char) :
    naturalMark p conversion ∈ [Mark.code, .path, .str, .indirect, .free] := by
  unfold naturalMark
  cases hmark : (conversion.bind Conversion.find?).bind Conversion.mark with
  | none =>
    simp only [Option.getD_none]
    split <;> simp
  | some mark =>
    obtain ⟨c, hc, hmark⟩ := Option.bind_eq_some_iff.mp hmark
    obtain ⟨letter, -, hfind⟩ := Option.bind_eq_some_iff.mp hc
    rcases Conversion.mem_of_find? hfind with rfl | rfl | rfl | rfl | rfl | rfl <;> simp_all

theorem isField_of_makeSingle {o : Options} {p : Template.Piece} {k : Key}
    (hmark : o.mark = none) (hcoercion : o.coercion = none) (hlimit : o.limit = none)
    (hread : p.IsRead) (h : makeSingle o p = .ok k) : k.IsField := by
  obtain ⟨conversion, -, -, -, rfl⟩ := makeSingle_eq_ok.mp h
  have hnatural := naturalMark_mem p conversion
  rw [hmark, Option.getD_none]
  generalize naturalMark p conversion = mark at hnatural
  refine ⟨⟨hlimit, ?_, ?_⟩, rfl, hread.hasBrace_name⟩
  · simp only [assembled, hcoercion, Option.getD_none]
    simp only [List.mem_cons, List.not_mem_nil, or_false] at hnatural
    rcases hnatural with rfl | rfl | rfl | rfl | rfl <;> exact id
  · intro sources
    simp only [List.mem_cons, List.not_mem_nil, or_false] at hnatural
    rcases hnatural with rfl | rfl | rfl | rfl | rfl <;> rfl

/-! ## Texts and names -/

theorem isWritten_of_makeNull {text : String} {k : Key} (h : makeNull {} text = .ok k) :
    k.IsWritten := by
  obtain ⟨-, -, rfl⟩ := makeNull_eq_ok.mp h
  refine ⟨⟨rfl, id, fun _ => rfl⟩, ?_, ?_⟩
  · intro hnull
    cases hnull
  · intro sub hsub
    cases hsub

theorem isWritten_of_ofText {text : String} {k : Key} (h : ofText text = .ok k) : k.IsWritten := by
  cases fromText_of_makeText h with
  | forced force => cases force
  | bare asked => simp at asked
  | plain makes => exact isWritten_of_makeNull makes
  | @field p reads _ _ makes =>
    have hread := Template.isRead_of_mem_pieces reads p (by simp)
    exact (isField_of_makeSingle rfl rfl rfl hread makes).isWritten
  | template reads field _ makes =>
    obtain ⟨p, hp, hlit⟩ := field
    obtain ⟨mark, hmark, subkeys, hsubkeys, conversion, -, -, rfl⟩ := makeTemplate_eq_ok.mp makes
    obtain rfl : Mark.multi = mark := by simpa [templateMark] using hmark
    refine ⟨⟨rfl, id, fun _ => rfl⟩, ?_, ?_⟩
    · intro _ hparts
      cases hparts
    · intro sub hsub
      obtain ⟨q, hq, hsub⟩ := Except.exists_of_mem_mapM hsubkeys hsub
      have hread := Template.isRead_of_mem_pieces reads q (List.mem_of_mem_filter hq)
      exact ⟨h, Template.hasBrace_of_field reads hp hlit, isField_of_makeSingle rfl rfl rfl hread hsub⟩

theorem isWritten_of_ofName {name : String} {k : Key} (h : ofName name = .ok k) : k.IsWritten := by
  rw [ofName, makeText, if_neg (by simp), if_pos rfl] at h
  split at h
  · cases h
  · obtain ⟨-, p, hpieces, hp⟩ := alone_of_makeImplicit h
    have hisRead := Template.isRead_of_mem_pieces hpieces p (by simp)
    exact (isField_of_makeSingle rfl rfl rfl hisRead hp).isWritten

theorem isWritten_of_ofReference {text : String} {k : Key} (h : ofReference text = .ok k) :
    k.IsWritten := by
  unfold ofReference at h
  split at h
  · exact isWritten_of_ofText h
  · exact isWritten_of_ofName h

end Key

end KeyExpansion
