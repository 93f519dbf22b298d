-- SUMMARY: Pieces that stand one after the other in a text.
import KeyExpansion.Proofs.Text.Search

/-! # Pieces in order

The words of a text stand in it one after the other. Which separators and markers are
between them does not matter: of any two words the later one stands in what follows
some occurrence of the earlier one. -/

namespace KeyExpansion.Text

variable {text xs ys : List Char} {pieces left right : List (List Char)}

/-- Pieces that stand one after the other in a text, without overlap. -/
inductive InOrder : List (List Char) → List Char → Prop where
  | nil (text : List Char) : InOrder [] text
  | cons {piece rest : List Char} {pieces : List (List Char)} (front : List Char)
      (later : InOrder pieces rest) : InOrder (piece :: pieces) (front ++ piece ++ rest)

/-- The second piece stands in what follows the first one. -/
def Precedes (text first second : List Char) : Prop :=
  ∃ front rest, text = front ++ first ++ rest ∧ second <:+: rest

namespace InOrder

theorem prepend (h : InOrder pieces text) (front : List Char) :
    InOrder pieces (front ++ text) := by
  cases h with
  | nil => exact .nil _
  | @cons piece rest pieces gap later =>
    have heq : front ++ (gap ++ piece ++ rest) = (front ++ gap) ++ piece ++ rest := by
      simp only [List.append_assoc]
    rw [heq]
    exact .cons (front ++ gap) later

theorem append (h : InOrder left xs) (h' : InOrder right ys) :
    InOrder (left ++ right) (xs ++ ys) := by
  induction h with
  | nil text => exact h'.prepend text
  | cons front _ ih =>
    rw [List.append_assoc]
    exact .cons front ih

theorem infix_of_mem (h : InOrder pieces text) : ∀ piece ∈ pieces, piece <:+: text := by
  induction h with
  | nil => simp
  | @cons piece rest pieces front _ ih =>
    refine List.forall_mem_cons.mpr ⟨⟨front, rest, rfl⟩, ?_⟩
    intro later hlater
    exact (ih later hlater).trans (List.suffix_append _ rest).isInfix

theorem pairwise (h : InOrder pieces text) : pieces.Pairwise (Precedes text) := by
  induction h with
  | nil => exact .nil
  | @cons piece rest pieces front later ih =>
    refine List.pairwise_cons.mpr ⟨?_, ih.imp ?_⟩
    · intro other hother
      exact ⟨front, rest, rfl, later.infix_of_mem other hother⟩
    · rintro first second ⟨gap, back, rfl, hsecond⟩
      exact ⟨front ++ piece ++ gap, back, by simp only [List.append_assoc], hsecond⟩

end InOrder

/-- Words that are joined are in order. -/
theorem inOrder_join (sep : List Char) (words : List (List Char)) :
    InOrder words (join sep words) := by
  induction words with
  | nil => exact .nil _
  | cons word words ih =>
    cases words with
    | nil =>
      have hjoin : join sep [word] = [] ++ word ++ [] := by simp
      rw [hjoin]
      exact .cons [] (.nil [])
    | cons next words =>
      have hjoin : join sep (word :: next :: words)
          = [] ++ word ++ (sep ++ join sep (next :: words)) := by
        rw [join_cons (List.cons_ne_nil next words), List.nil_append, List.append_assoc]
      rw [hjoin]
      exact .cons [] (ih.prepend sep)

end KeyExpansion.Text
