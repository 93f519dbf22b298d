-- SUMMARY: When a field that is written out is read back as it was.
import KeyExpansion.Proofs.Template.Pieces
import KeyExpansion.Proofs.Text.Search

/-! # Written fields

A field is written as its name, its format after a colon and its conversion after an
exclamation mark, whatever stands in them. It reads back only if no brace closes it early,
and if its marks are where reading looks for them: reading cuts at the last exclamation mark
after a format, and at the first colon after a conversion. -/

namespace KeyExpansion.Template

open Text (cut? cutLast?)

variable {lead field cs : List Char} {f : Char} {p : Piece} {ps : List Piece}

/-! ## Fields in braces -/

/-- Text that makes no piece is empty. -/
theorem eq_nil_of_scan {field : Option (List Char)} (h : scan lead field cs = .ok []) :
    lead = [] ∧ field = none ∧ cs = [] := by
  -- Literal text only grows until a field closes, so each step that adds to it ends in a piece.
  fun_induction scan lead field cs with
  | case1 lead =>
    unfold Piece.literals at h
    split at h
    · rename_i hempty
      exact ⟨by simpa using hempty, rfl, rfl⟩
    · cases h
  | case2 lead cs ih => exact absurd (ih h).1 (by simp)
  | case3 lead cs _ ih => cases (ih h).2.1
  | case4 lead cs ih => exact absurd (ih h).1 (by simp)
  | case5 => cases h
  | case6 lead c cs _ _ _ _ ih => exact absurd (ih h).1 (by simp)
  | case7 => cases h
  | case8 => cases h
  | case9 lead cs ih => exact absurd (ih h).1 (by simp)
  | case10 lead f field cs ih =>
    obtain ⟨_, -, _, -, hps⟩ := by simpa only [Except.bind_eq_ok, Except.pure_eq_ok] using h
    cases hps
  | case11 lead field c cs hopen hempty hclose ih => cases (ih h).2.1

/-- The closing brace of an open field makes it a piece. -/
theorem scan_close : scan lead (some (f :: field)) ('}' :: cs) = .ok ps ↔
    ∃ p, Piece.ofField lead (f :: field) = .ok p ∧
      ∃ rest, scan [] none cs = .ok rest ∧ p :: rest = ps := by
  simp only [scan, Except.bind_eq_ok, Except.pure_eq_ok]

/-- An open field that holds text ends up as a field. -/
theorem exists_field_of_scan (hfree : IsBraceFree (f :: field))
    (h : scan lead (some (f :: field)) cs = .ok ps) : ∃ p ∈ ps, p.isLiteral = false := by
  induction cs generalizing field with
  | nil => simp [scan] at h
  | cons c cs ih =>
    by_cases hopen : c = '{'
    · simp [hopen, scan] at h
    by_cases hclose : c = '}'
    · subst hclose
      obtain ⟨p, hp, rest, -, rfl⟩ := scan_close.mp h
      exact ⟨p, by simp, (Piece.name_of_ofField hfree hp).1⟩
    · have hc : IsBraceFree [c] := by simpa [IsBraceFree] using ⟨hopen, hclose⟩
      rw [scan_cons hc] at h
      exact ih (isBraceFree_append.mpr ⟨hfree, hc⟩) h

/-- Text up to a last brace is one field alone if it holds no other brace. -/
theorem scan_alone : scan lead (some (f :: field)) (cs ++ ['}']) = .ok [p] ↔
    IsBraceFree cs ∧ Piece.ofField lead (f :: (field ++ cs)) = .ok p := by
  induction cs generalizing field with
  | nil =>
    rw [List.nil_append, scan_close, List.append_nil]
    simp [IsBraceFree, scan, Piece.literals]
  | cons c cs ih =>
    by_cases hopen : c = '{'
    · simp [hopen, scan, isBraceFree_cons]
    by_cases hclose : c = '}'
    · -- The field is closed early, and the last brace is left behind it.
      subst hclose
      rw [List.cons_append, scan_close, isBraceFree_cons]
      simp only [ne_eq, not_true_eq_false, and_false, false_and, iff_false]
      rintro ⟨_, -, rest, hrest, heq⟩
      obtain ⟨-, rfl⟩ := List.cons.inj heq
      simpa using (eq_nil_of_scan hrest).2.2
    · have hc : IsBraceFree [c] := by simpa [IsBraceFree] using ⟨hopen, hclose⟩
      rw [List.cons_append, scan_cons hc, List.cons_append, ih, List.append_assoc,
        List.singleton_append, isBraceFree_cons]
      simp [hopen, hclose]

section InBraces

variable {text : String}

theorem exists_field_of_pieces_inBraces (htext : text.toList = f :: cs) (hf : IsBraceFree [f])
    (h : pieces (inBraces text) = .ok ps) : ∃ p ∈ ps, p.isLiteral = false := by
  rw [pieces_inBraces_eq htext hf] at h
  exact exists_field_of_scan hf h

theorem pieces_inBraces_alone (htext : text.toList = f :: cs) (hf : IsBraceFree [f]) :
    pieces (inBraces text) = .ok [p] ↔
      IsBraceFree text.toList ∧ Piece.ofField [] text.toList = .ok p := by
  rw [pieces_inBraces_eq htext hf, scan_alone, htext, isBraceFree_cons, List.nil_append,
    and_iff_right (hf f (by simp))]

end InBraces

/-! ## The parts of a field -/

theorem splitOptions_conversion {conversion : List Char} :
    splitOptions ('!' :: conversion) = ([], conversion) ↔ ':' ∉ conversion := by
  rw [← List.singleton_infix_iff, ← Text.cut?_eq_none, splitOptions]
  cases hcut : cut? [':'] conversion with
  | none => simp
  | some cut =>
    obtain ⟨before, after⟩ := cut
    obtain ⟨rfl, -⟩ := (Text.cut?_eq_some (by simp)).mp hcut
    simp

theorem splitOptions_format {format : List Char} :
    splitOptions (':' :: format) = (format, []) ↔ '!' ∉ format := by
  rw [← Text.cutLast?_eq_none, splitOptions]
  cases hcut : cutLast? '!' format with
  | none => simp
  | some cut =>
    obtain ⟨before, after⟩ := cut
    obtain ⟨rfl, -⟩ := Text.cutLast?_eq_some.mp hcut
    simp

theorem splitOptions_both {format conversion : List Char} :
    splitOptions (':' :: (format ++ '!' :: conversion)) = (format, conversion) ↔ '!' ∉ conversion := by
  rw [splitOptions]
  cases hcut : cutLast? '!' (format ++ '!' :: conversion) with
  | none => exact absurd (by simp) (Text.cutLast?_eq_none.mp hcut)
  | some cut =>
    have hiff := @Text.cutLast?_eq_some '!' (format ++ '!' :: conversion) format conversion
    rw [hcut, Option.some.injEq, eq_self, true_and] at hiff
    exact hiff

/-- A format and a conversion as they follow a name. -/
def writeOptions (format conversion : List Char) : List Char :=
  (if format.isEmpty then [] else ':' :: format)
    ++ (if conversion.isEmpty then [] else '!' :: conversion)

theorem writeOptions_starts (format conversion : List Char) :
    ∀ c ∈ (writeOptions format conversion).head?, endsName c = true := by
  unfold writeOptions
  split <;> split <;> simp [endsName]

/-- Are a format and a conversion told apart again when they are written? -/
structure IsLegible (format conversion : List Char) : Prop where
  colon : format = [] → ':' ∉ conversion
  lone : conversion = [] → '!' ∉ format
  last : format ≠ [] → '!' ∉ conversion

theorem splitOptions_writeOptions {format conversion : List Char} :
    splitOptions (writeOptions format conversion) = (format, conversion) ↔
      IsLegible format conversion := by
  cases format with
  | nil =>
    cases conversion with
    | nil => exact iff_of_true rfl ⟨by simp, by simp, by simp⟩
    | cons c conversion =>
      rw [writeOptions, if_pos (by simp), if_neg (by simp), List.nil_append, splitOptions_conversion]
      exact ⟨fun h => ⟨fun _ => h, by simp, by simp⟩, fun h => h.colon rfl⟩
  | cons d format =>
    cases conversion with
    | nil =>
      rw [writeOptions, if_neg (by simp), if_pos (by simp), List.append_nil, splitOptions_format]
      exact ⟨fun h => ⟨by simp, fun _ => h, by simp⟩, fun h => h.lone rfl⟩
    | cons c conversion =>
      rw [writeOptions, if_neg (by simp), if_neg (by simp), List.cons_append, splitOptions_both]
      exact ⟨fun h => ⟨by simp, by simp, fun _ => h⟩, fun h => h.last (by simp)⟩

namespace Piece

theorem toList_joined (p : Piece) :
    p.joined.toList = p.name.toList ++ writeOptions p.format.toList p.conversion.toList := by
  have hempty (s : String) : s.toList.isEmpty = s.isEmpty := by
    rw [Bool.eq_iff_iff, List.isEmpty_iff, String.isEmpty_iff, String.toList_eq_nil_iff]
  simp only [joined, writeOptions, hempty, String.toList_append, List.append_assoc]
  split <;> split <;> simp

/-- What follows a name ends it. -/
theorem ofField_append {name options : List Char} (hne : name ≠ [])
    (hname : ∀ c ∈ name, endsName c = false) (hoptions : ∀ c ∈ options.head?, endsName c = true) :
    ofField lead (name ++ options) = .ok {
      lead := String.ofList lead
      name := String.ofList name
      format := String.ofList (splitOptions options).1
      conversion := String.ofList (splitOptions options).2 } := by
  have hall : ∀ c ∈ name, (!endsName c) = true := fun c hc => by simp [hname c hc]
  have hstop : options.takeWhile (!endsName ·) = [] ∧ options.dropWhile (!endsName ·) = options := by
    cases options with
    | nil => simp
    | cons c options => simp [hoptions c rfl]
  simp [ofField, List.takeWhile_append_of_pos hall, List.dropWhile_append_of_pos hall, hstop, hne]

/-- A field is read back as it was written. -/
theorem ofField_joined (hlead : p.lead = "") (hlit : p.isLiteral = false) (hname : IsName p.name.toList) :
    ofField [] p.joined.toList = .ok p ↔ IsLegible p.format.toList p.conversion.toList := by
  have hne : p.name.toList ≠ [] := by simpa [isLiteral] using hlit
  rw [toList_joined, ofField_append hne hname.2 (writeOptions_starts _ _), ← splitOptions_writeOptions]
  obtain ⟨lead, name, format, conversion⟩ := p
  obtain rfl : lead = "" := hlead
  simp [Prod.ext_iff, ← String.toList_inj]

/-- A field without literal text that is written in braces and read back. -/
structure IsReadBack (p : Piece) : Prop where
  format : IsBraceFree p.format.toList
  conversion : IsBraceFree p.conversion.toList
  legible : IsLegible p.format.toList p.conversion.toList

theorem isBraceFree_joined (hname : IsName p.name.toList) :
    IsBraceFree p.joined.toList ↔ IsBraceFree p.format.toList ∧ IsBraceFree p.conversion.toList := by
  rw [toList_joined, isBraceFree_append, and_iff_right hname.1, writeOptions, isBraceFree_append]
  refine and_congr ?_ ?_
  · split <;> simp_all [IsBraceFree]
  · split <;> simp_all [IsBraceFree]

/-- A field begins in its name. -/
theorem joined_eq_cons (hlit : p.isLiteral = false) (hname : IsName p.name.toList) :
    ∃ f cs, p.joined.toList = f :: cs ∧ IsBraceFree [f] := by
  have hne : p.name.toList ≠ [] := by simpa [isLiteral] using hlit
  obtain ⟨f, cs, hcs⟩ := List.exists_cons_of_ne_nil hne
  refine ⟨f, cs ++ writeOptions p.format.toList p.conversion.toList, ?_, ?_⟩
  · rw [toList_joined, hcs, List.cons_append]
  · simpa [IsBraceFree] using hname.1 f (by simp [hcs])

theorem exists_field_of_joined (hlit : p.isLiteral = false) (hname : IsName p.name.toList)
    (h : pieces (inBraces p.joined) = .ok ps) : ∃ q ∈ ps, q.isLiteral = false := by
  obtain ⟨f, cs, hcs, hf⟩ := joined_eq_cons hlit hname
  exact exists_field_of_pieces_inBraces hcs hf h

theorem pieces_joined (hlead : p.lead = "") (hlit : p.isLiteral = false) (hname : IsName p.name.toList) :
    pieces (inBraces p.joined) = .ok [p] ↔ p.IsReadBack := by
  obtain ⟨f, cs, hcs, hf⟩ := joined_eq_cons hlit hname
  rw [pieces_inBraces_alone hcs hf, ofField_joined hlead hlit hname, isBraceFree_joined hname]
  exact ⟨fun ⟨⟨hformat, hconversion⟩, h⟩ => ⟨hformat, hconversion, h⟩,
    fun h => ⟨⟨h.format, h.conversion⟩, h.legible⟩⟩

end Piece

end KeyExpansion.Template
