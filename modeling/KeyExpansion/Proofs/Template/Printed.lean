-- SUMMARY: Pieces that are printed as a template are read back.
import KeyExpansion.Proofs.Template.Grammar

/-! # Printed pieces

Pieces are printed one after the other, literal text with its braces doubled and fields in
braces. The characters of literal text are tokens of their own then, so no brace of it can
meet one of a field, and the pieces are read back whatever braces the literal text has. The
conversion of a field may also stand before its format. -/

namespace KeyExpansion.Template

/-! ## Literal text -/

/-- The token of a character of literal text. -/
def Literal.ofChar (c : Char) : Literal :=
  if c = '{' then .openBrace else if c = '}' then .closeBrace else .plain c

namespace Literal

theorem meaning_ofChar (c : Char) : (ofChar c).meaning = [c] := by
  unfold ofChar
  split
  · next h => rw [h, meaning]
  · split
    · next h => rw [h, meaning]
    · rw [meaning]

theorem spelling_ofChar (c : Char) : (ofChar c).spelling = doubleBrace c := by
  unfold ofChar doubleBrace
  split
  · next h => simp [h, spelling]
  · split
    · next h => simp [h, spelling]
    · next hopen hclose => simp [hopen, hclose, spelling]

theorem isProper_ofChar (c : Char) : (Token.literal (ofChar c)).IsProper := by
  unfold ofChar
  split
  · exact .openBrace
  · next hopen =>
    split
    · exact .closeBrace
    · next hclose => exact .plain (by simpa [IsBraceFree] using ⟨hopen, hclose⟩)

/-- The tokens of literal text. -/
def ofText (lead : String) : List Literal :=
  lead.toList.map ofChar

theorem meaning_ofText (lead : String) : (ofText lead).flatMap meaning = lead.toList := by
  simp [ofText, List.flatMap_map, meaning_ofChar]

end Literal

/-- Literal text is spelled with braces doubled. -/
theorem Spells.literals {tokens : List Token} {cs : List Char} (h : Spells tokens cs) (lead : String) :
    Spells ((Literal.ofText lead).map .literal ++ tokens) (lead.toList.flatMap doubleBrace ++ cs) := by
  unfold Literal.ofText
  induction lead.toList with
  | nil => exact h
  | cons c lead ih =>
    rw [List.flatMap_cons, List.append_assoc, ← Literal.spelling_ofChar]
    exact ih.cons (Literal.isProper_ofChar c)

/-! ## Printing -/

namespace Piece

/-- The piece as a template writes it. -/
def printed (p : Piece) : String :=
  escapeBraces p.lead ++ (if p.isLiteral then "" else inBraces p.joined)

/-- The piece with its conversion before its format. -/
def printedConversionFirst (p : Piece) : String :=
  escapeBraces p.lead ++ inBraces (p.name ++ "!" ++ p.conversion ++ ":" ++ p.format)

/-- The texts that the piece may be printed as. -/
inductive IsPrintedAs (p : Piece) : String → Prop where
  | formatFirst : p.IsPrintedAs p.printed
  | conversionFirst (isField : p.isLiteral = false) (nonempty : p.conversion ≠ "") :
      p.IsPrintedAs p.printedConversionFirst

/-- No part of the piece has a character in it that ends the part when it is read. -/
structure IsPrintable (p : Piece) : Prop where
  name : IsName p.name.toList
  format : IsBraceFree p.format.toList
  conversion : IsName p.conversion.toList
  lone : p.conversion = "" → '!' ∉ p.format.toList

variable {p : Piece} {text : String}

/-- No mark that ends a name is in a conversion. -/
theorem IsPrintable.not_mem_conversion (h : p.IsPrintable) {c : Char} (hc : endsName c = true) :
    c ∉ p.conversion.toList := by
  intro hmem
  simp [h.conversion.2 c hmem] at hc

theorem IsPrintable.isSaid_joined (h : p.IsPrintable) (hlit : p.isLiteral = false) :
    p.IsSaid p.joined.toList := by
  have hlegible : IsLegible p.format.toList p.conversion.toList :=
    { colon := fun _ => h.not_mem_conversion rfl
      lone := fun hnil => h.lone (by simpa using hnil)
      last := fun _ => h.not_mem_conversion rfl }
  exact ⟨hlit, h.name.2, _, toList_joined p,
    (splitOptions_iff (writeOptions_starts _ _)).mp (splitOptions_writeOptions.mpr hlegible)⟩

/-- A field that says a piece has text, so it is a token unless there is a brace in it. -/
theorem IsSaid.isProper {field : List Char} (h : p.IsSaid field) (hfree : IsBraceFree field) :
    (Token.field field).IsProper := by
  obtain ⟨options, rfl, -⟩ := h.options
  have hname : p.name.toList ≠ [] := by simpa [isLiteral] using h.named
  obtain ⟨c, name, hc⟩ := List.exists_cons_of_ne_nil hname
  rw [hc] at hfree ⊢
  exact .field hfree

/-- A field is printed as a token that says it. -/
theorem IsPrintable.exists_field (h : p.IsPrintable) (hlit : p.isLiteral = false)
    (hprinted : p.IsPrintedAs text) :
    ∃ field, p.IsSaid field ∧ (Token.field field).IsProper ∧
      text.toList = p.lead.toList.flatMap doubleBrace ++ (Token.field field).spelling := by
  cases hprinted with
  | formatFirst =>
    have hsaid := h.isSaid_joined hlit
    have hfree := (isBraceFree_joined h.name).mpr ⟨h.format, h.conversion.1⟩
    refine ⟨_, hsaid, hsaid.isProper hfree, ?_⟩
    simp [printed, hlit, escapeBraces, toList_inBraces, Token.spelling]
  | conversionFirst isField nonempty =>
    have hsaid : p.IsSaid (p.name.toList ++ '!' :: (p.conversion.toList ++ ':' :: p.format.toList)) :=
      ⟨hlit, h.name.2, _, rfl, .conversionFirst (h.not_mem_conversion rfl)⟩
    have hfree : IsBraceFree
        (p.name.toList ++ '!' :: (p.conversion.toList ++ ':' :: p.format.toList)) := by
      simp only [isBraceFree_append, isBraceFree_cons]
      exact ⟨h.name.1, by decide, h.conversion.1, by decide, h.format⟩
    refine ⟨_, hsaid, hsaid.isProper hfree, ?_⟩
    simp [printedConversionFirst, escapeBraces, toList_inBraces, Token.spelling]

end Piece

/-! ## Reading what is printed -/

/-- Pieces that can be printed one after the other: all but the last one are fields, for two
literal texts would be read as one. -/
structure ArePrintable (ps : List Piece) : Prop where
  piece : ∀ p ∈ ps, p.IsPrintable
  inner : ∀ p ∈ ps.dropLast, p.isLiteral = false
  lead : ∀ p ∈ ps, p.isLiteral = true → p.lead ≠ ""

variable {p : Piece} {ps : List Piece} {texts : List String}

theorem ArePrintable.tail (h : ArePrintable (p :: ps)) : ArePrintable ps where
  piece p' hp' := h.piece p' (List.mem_cons_of_mem p hp')
  lead p' hp' := h.lead p' (List.mem_cons_of_mem p hp')
  inner p' hp' := by
    refine h.inner p' ?_
    rw [List.dropLast_cons_of_ne_nil (by rintro rfl; simp at hp')]
    exact List.mem_cons_of_mem p hp'

/-- Only the last piece may be literal text. -/
theorem ArePrintable.eq_nil (h : ArePrintable (p :: ps)) (hlit : p.isLiteral = true) : ps = [] := by
  by_contra hne
  have hinner := h.inner p (by rw [List.dropLast_cons_of_ne_nil hne]; exact List.mem_cons_self)
  simp [hlit] at hinner

/-- The literal text of a last piece makes the piece if that has nothing else. -/
theorem makes_of_bare (hlit : p.isLiteral = true) (hformat : p.format = "")
    (hconversion : p.conversion = "") (hlead : p.lead ≠ "") :
    Makes ((Literal.ofText p.lead).map .literal) [p] := by
  have hnonempty : Literal.ofText p.lead ≠ [] := by simpa [Literal.ofText] using hlead
  have hrest := Makes.rest hnonempty
  rw [Literal.meaning_ofText, String.ofList_toList] at hrest
  obtain ⟨lead, name, format, conversion⟩ := p
  obtain rfl : name = "" := by simpa [Piece.isLiteral] using hlit
  obtain rfl : format = "" := hformat
  obtain rfl : conversion = "" := hconversion
  exact hrest

/-- Printed pieces are spelled by tokens that make them. -/
theorem ArePrintable.exists_makes (h : ArePrintable ps)
    (hbare : ∀ p ∈ ps, p.isLiteral = true → p.format = "" ∧ p.conversion = "")
    (hprinted : List.Forall₂ Piece.IsPrintedAs ps texts) :
    ∃ tokens, Spells tokens (String.join texts).toList ∧ Makes tokens ps := by
  induction hprinted with
  | nil => exact ⟨[], spells_nil, .nil⟩
  | @cons p text ps texts hp hps ih =>
    cases hlit : p.isLiteral with
    | true =>
      obtain rfl := h.eq_nil hlit
      obtain ⟨hformat, hconversion⟩ := hbare p List.mem_cons_self hlit
      cases hps
      have htext : (String.join [text]).toList = p.lead.toList.flatMap doubleBrace := by
        cases hp with
        | formatFirst => simp [Piece.printed, hlit, escapeBraces]
        | conversionFirst isField => simp [hlit] at isField
      refine ⟨(Literal.ofText p.lead).map .literal, ?_, ?_⟩
      · have hspells := spells_nil.literals p.lead
        rwa [List.append_nil, List.append_nil, ← htext] at hspells
      · exact makes_of_bare hlit hformat hconversion (h.lead p List.mem_cons_self hlit)
    | false =>
      obtain ⟨tokens, hspells, hmakes⟩ :=
        ih h.tail fun p' hp' => hbare p' (List.mem_cons_of_mem p hp')
      obtain ⟨field, hsaid, hproper, htext⟩ :=
        (h.piece p List.mem_cons_self).exists_field hlit hp
      refine ⟨(Literal.ofText p.lead).map .literal ++ .field field :: tokens, ?_, ?_⟩
      · have htexts : (String.join (text :: texts)).toList
            = text.toList ++ (String.join texts).toList := by simp
        rw [htexts, htext, List.append_assoc]
        exact (hspells.cons hproper).literals p.lead
      · exact .field (by rw [Literal.meaning_ofText, String.ofList_toList]) hsaid hmakes

/-- Printed pieces are read back, whichever of a format and a conversion is written first. -/
theorem readPieces_printed (h : ArePrintable ps)
    (hbare : ∀ p ∈ ps, p.isLiteral = true → p.format = "" ∧ p.conversion = "") :
    Key.readPieces (String.join (ps.map Piece.printed)) = .ok ps ∧
      ∀ texts, List.Forall₂ Piece.IsPrintedAs ps texts →
        Key.readPieces (String.join texts) = .ok ps := by
  have hread (texts : List String) (hprinted : List.Forall₂ Piece.IsPrintedAs ps texts) :
      Key.readPieces (String.join texts) = .ok ps :=
    Key.readPieces_eq_ok.mpr (pieces_eq_ok.mpr (h.exists_makes hbare hprinted))
  refine ⟨hread _ ?_, hread⟩
  rw [List.forall₂_map_right_iff, List.forall₂_same]
  exact fun p _ => .formatFirst

/-- Braces may stand on both sides of a field, and marks of one part in another part. -/
theorem readPieces_printed_braces :
    Key.readPieces "\x7b\x7b\x7b\x7b\x7ba!r:>8:!\x7d\x7d\x7d\x7bb:!!s\x7d\x7b\x7b\x7d\x7d" = .ok
      [{ lead := "\x7b\x7b", name := "a", format := ">8:!", conversion := "r" },
        { lead := "\x7d", name := "b", format := "!", conversion := "s" },
        { lead := "\x7b\x7d" }] := by
  have hprintable : ArePrintable
      [{ lead := "\x7b\x7b", name := "a", format := ">8:!", conversion := "r" },
        { lead := "\x7d", name := "b", format := "!", conversion := "s" },
        { lead := "\x7b\x7d" }] :=
    { piece := by
        simp only [List.forall_mem_cons]
        refine ⟨?_, ?_, ?_, by simp⟩ <;>
          exact ⟨by simp [IsName, IsBraceFree, endsName], by simp [IsBraceFree],
            by simp [IsName, IsBraceFree, endsName], by simp⟩
      inner := by simp [Piece.isLiteral]
      lead := by simp [Piece.isLiteral] }
  obtain ⟨-, hread⟩ := readPieces_printed hprintable (by simp [Piece.isLiteral])
  exact hread _ (.cons (.conversionFirst rfl (by simp)) (.cons .formatFirst (.cons .formatFirst .nil)))

/-- A literal piece is printed without the format it may have. -/
theorem readPieces_printed_ne_of_literal :
    let p : Piece := { lead := "x", format := "f" }
    ArePrintable [p] ∧ Key.readPieces (String.join ([p].map Piece.printed)) = .ok [{ lead := "x" }] ∧
      Key.readPieces (String.join ([p].map Piece.printed)) ≠ .ok [p] := by
  intro p
  have hread : Key.readPieces (String.join ([p].map Piece.printed)) = .ok [{ lead := "x" }] := by
    decide
  refine ⟨⟨?_, by simp, by simp [p]⟩, hread, ?_⟩
  · simp only [List.forall_mem_singleton, p]
    exact ⟨by simp [IsName, IsBraceFree], by simp [IsBraceFree],
      by simp [IsName, IsBraceFree], by simp⟩
  · rw [hread]
    simp [p]

end KeyExpansion.Template
