-- SUMMARY: Filling the slots of pieces puts each value where its field stood.
import KeyExpansion.Template.Fill
import KeyExpansion.Template.Piece

/-! # Filling the slots of pieces

The slots of pieces are their literal texts with braces doubled and an empty slot for
each field. Filling them gives the literal texts back, with the values between them,
whatever braces either holds. -/

namespace KeyExpansion.Template

/-- The literal texts of pieces with a value in the place of each field, if there are
enough values. -/
def weave : List Piece → List (List Char) → Option (List Char)
  | [], _ => some []
  | p :: ps, values =>
    if p.isLiteral then (weave ps values).map (p.lead.toList ++ ·)
    else
      match values with
      | [] => none
      | value :: values => (weave ps values).map (p.lead.toList ++ value ++ ·)

theorem weave_literal {p : Piece} {ps : List Piece} {values : List (List Char)}
    (h : p.isLiteral = true) :
    weave (p :: ps) values = (weave ps values).map (p.lead.toList ++ ·) := by
  simp [weave, h]

theorem weave_field {p : Piece} {ps : List Piece} {value : List Char} {values : List (List Char)}
    (h : p.isLiteral = false) :
    weave (p :: ps) (value :: values) = (weave ps values).map (p.lead.toList ++ value ++ ·) := by
  simp [weave, h]

theorem weave_field_nil {p : Piece} {ps : List Piece} (h : p.isLiteral = false) :
    weave (p :: ps) [] = none := by
  simp [weave, h]

theorem fillSlots_escaped (lead rest : List Char) (values : List (List Char)) :
    fillSlots (lead.flatMap doubleBrace ++ rest) values = (lead ++ ·) <$> fillSlots rest values := by
  induction lead with
  | nil => simp
  | cons c lead ih =>
    have step : fillSlots (doubleBrace c ++ (lead.flatMap doubleBrace ++ rest)) values
        = (c :: ·) <$> fillSlots (lead.flatMap doubleBrace ++ rest) values := by
      by_cases hopen : c = '{'
      · subst hopen
        simp [doubleBrace, fillSlots]
      · by_cases hclose : c = '}'
        · subst hclose
          simp [doubleBrace, fillSlots]
        · have hplain : doubleBrace c = [c] := by simp [doubleBrace, hopen, hclose]
          rw [hplain, List.singleton_append, fillSlots] <;> simp_all
    rw [List.flatMap_cons, List.append_assoc, step, ih]
    simp

theorem Piece.toList_slot (p : Piece) :
    p.slot.toList = p.lead.toList.flatMap doubleBrace ++ (if p.isLiteral then [] else ['{', '}']) := by
  unfold Piece.slot escapeBraces
  split <;> simp [inBraces]

/-- Slots are filled in order, and only a lack of values is an error. -/
theorem fillSlots_pieces (ps : List Piece) (values : List (List Char)) :
    fillSlots (ps.flatMap (·.slot.toList)) values
      = (match weave ps values with
        | some text => .ok text
        | none => .error .moreSlots) := by
  induction ps generalizing values with
  | nil => simp [fillSlots, weave]
  | cons p ps ih =>
    rw [List.flatMap_cons, Piece.toList_slot, List.append_assoc, fillSlots_escaped]
    cases hlit : p.isLiteral with
    | true =>
      rw [weave_literal hlit, if_pos rfl, List.nil_append, ih]
      cases weave ps values <;> rfl
    | false =>
      rw [if_neg Bool.false_ne_true]
      cases values with
      | nil =>
        rw [weave_field_nil hlit]
        rfl
      | cons value values =>
        rw [weave_field hlit, List.cons_append, List.singleton_append, fillSlots, ih]
        cases weave ps values <;> simp [Functor.map, Except.map]

theorem fill_slots (ps : List Piece) (values : List String) :
    fill (String.join (ps.map Piece.slot)) values
      = (match weave ps (values.map String.toList) with
        | some text => .ok (String.ofList text)
        | none => .error .moreSlots) := by
  have hslots : (String.join (ps.map Piece.slot)).toList = ps.flatMap (·.slot.toList) := by
    simp [String.toList_join, List.flatMap, Function.comp_def]
  rw [fill, hslots, fillSlots_pieces]
  cases weave ps (values.map String.toList) <;> rfl

theorem fill_pieces {ps : List Piece} {values : List String} {text : List Char}
    (h : weave ps (values.map String.toList) = some text) :
    fill (String.join (ps.map Piece.slot)) values = .ok (String.ofList text) := by
  rw [fill_slots, h]

/-! ## Literal texts and values -/

/-- The literal text of each piece, with the next of the values behind it if the piece has
a field. -/
def placed : List Piece → List String → List String
  | [], _ => []
  | p :: ps, values =>
    if p.isLiteral then p.lead :: placed ps values
    else (p.lead ++ values.headD "") :: placed ps values.tail

theorem weave_eq_placed (ps : List Piece) (values : List String) :
    weave ps (values.map String.toList)
      = if (ps.filter (!·.isLiteral)).length ≤ values.length then
          some (String.join (placed ps values)).toList
        else none := by
  induction ps generalizing values with
  | nil => rfl
  | cons p ps ih =>
    cases hlit : p.isLiteral with
    | true =>
      have hfields : (p :: ps).filter (!·.isLiteral) = ps.filter (!·.isLiteral) := by simp [hlit]
      have hplaced : placed (p :: ps) values = p.lead :: placed ps values := by simp [placed, hlit]
      rw [weave_literal hlit, ih, hfields, hplaced]
      split
      · simp [String.toList_join]
      · rfl
    | false =>
      cases values with
      | nil =>
        have hmore : ¬ ((p :: ps).filter (!·.isLiteral)).length ≤ 0 := by simp [hlit]
        rw [List.map_nil, weave_field_nil hlit, List.length_nil, if_neg hmore]
      | cons value values =>
        have hfields : ((p :: ps).filter (!·.isLiteral)).length ≤ (value :: values).length
            ↔ (ps.filter (!·.isLiteral)).length ≤ values.length := by simp [hlit]
        have hplaced : placed (p :: ps) (value :: values) = (p.lead ++ value) :: placed ps values := by
          simp [placed, hlit]
        rw [List.map_cons, weave_field hlit, ih, hplaced]
        simp only [hfields]
        split
        · simp [String.toList_join]
        · rfl

/-- With a value for each field the slots of pieces are filled with them. -/
theorem fill_placed {ps : List Piece} {values : List String}
    (h : (ps.filter (!·.isLiteral)).length ≤ values.length) :
    fill (String.join (ps.map Piece.slot)) values = .ok (String.join (placed ps values)) := by
  have hweave := weave_eq_placed ps values
  rw [if_pos h] at hweave
  rw [fill_pieces hweave, String.ofList_toList]

/-- Slots of pieces are filled if there is a value for each field. -/
theorem exists_fill_pieces {ps : List Piece} {values : List String}
    (h : (ps.filter (!·.isLiteral)).length ≤ values.length) :
    ∃ text, fill (String.join (ps.map Piece.slot)) values = .ok text :=
  ⟨_, fill_placed h⟩

/-- Slots of pieces are filled only if there is a value for each field. -/
theorem length_le_of_fill_pieces {ps : List Piece} {values : List String} {text : String}
    (h : fill (String.join (ps.map Piece.slot)) values = .ok text) :
    (ps.filter (!·.isLiteral)).length ≤ values.length := by
  refine Decidable.of_not_not fun hfew => ?_
  rw [fill_slots, weave_eq_placed, if_neg hfew] at h
  cases h

/-- Filling the slots of pieces gives their literal texts and the values as they are, each
value in the place of its field. With fewer values than fields there is no text. -/
theorem fill_restores (ps : List Piece) (values : List String) :
    fill (String.join (ps.map Piece.slot)) values
      = if (ps.filter (!·.isLiteral)).length ≤ values.length then
          .ok (String.join (placed ps values))
        else .error .moreSlots := by
  split
  · next h => exact fill_placed h
  · next h => simp only [fill_slots, weave_eq_placed, if_neg h]

/-- Braces next to a slot, and braces in the values. -/
example :
    let pieces : List Piece := [⟨"\x7b", "a", "", ""⟩, ⟨"\x7d\x7b", "b", "", ""⟩, ⟨"\x7d", "", "", ""⟩]
    fill (String.join (pieces.map Piece.slot)) ["\x7d", "\x7b\x7d", "c"]
      = .ok "\x7b\x7d\x7d\x7b\x7b\x7d\x7d" := rfl

end KeyExpansion.Template
