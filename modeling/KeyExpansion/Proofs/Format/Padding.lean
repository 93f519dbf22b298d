-- SUMMARY: Laying out a value to a width adds fill beside its text, or zeros to a number.
import KeyExpansion.Format.Apply
import KeyExpansion.Proofs.Decimal.Whole

/-! # Padding

A value is laid out by the text that it has without a width, and by fill up to the width. The
alignment says how much of the fill stands on which side. A number with the zero flag and without
an alignment has zeros between its sign and its digits instead, which stand for the same number. -/

namespace KeyExpansion.Format

/-- The same format without its width. -/
def withoutWidth (f : Format) : Format :=
  { f with width := none }

/-- Zeros stand behind the sign of the number. -/
def PadsDigits (f : Format) (v : Value) : Prop :=
  f.zero = true ∧ f.align = none ∧ v.isNumber = true

/-- How much fill an alignment puts on the left and on the right. -/
inductive Sides : Align → Nat → Nat → Prop where
  | left (right : Nat) : Sides .left 0 right
  | right (left : Nat) : Sides .right left 0
  | center {left right : Nat} (half : left = (left + right) / 2) : Sides .center left right

/-- The text is the body with nothing but padding beside it, up to the width. -/
structure IsPadded (f : Format) (v : Value) (body text : List Char) : Prop where
  length_eq : text.length = max (f.width.getD 0) body.length
  sides : ¬ f.PadsDigits v → ∃ left right,
    Sides (f.align.getD (if v.isNumber then .right else .left)) left right ∧
      text = List.replicate left (if f.zero = true ∧ f.align = none then '0' else f.fill) ++ body
        ++ List.replicate right (if f.zero = true ∧ f.align = none then '0' else f.fill)
  digits : f.PadsDigits v → ∃ count sign digits, (sign = [] ∨ sign = ['-']) ∧
    body = sign ++ digits ∧ text = sign ++ List.replicate count '0' ++ digits

variable {f : Format} {v : Value} {text : List Char}

/-! ## The text without a width -/

theorem apply_withoutWidth (f : Format) (v : Value) : f.withoutWidth.apply v = f.body v := by
  have hbody : f.withoutWidth.body v = f.body v := rfl
  have hwidth : f.withoutWidth.width.getD 0 = 0 := rfl
  rw [apply, hbody, hwidth]
  simp

theorem toList_apply (f : Format) (v : Value) :
    (f.apply v).toList =
      if (f.body v).toList.length < f.width.getD 0 then
        f.pad v (f.width.getD 0 - (f.body v).toList.length) (f.body v).toList
      else (f.body v).toList := by
  rw [apply, String.toList_ofList]

/-! ## What is added -/

/-- Zeros go behind the sign, if there is one. -/
theorem exists_padDigits (count : Nat) (text : List Char) :
    ∃ sign digits, (sign = [] ∨ sign = ['-']) ∧ text = sign ++ digits ∧
      padDigits count text = sign ++ List.replicate count '0' ++ digits := by
  unfold padDigits
  split
  · next digits => exact ⟨['-'], digits, .inr rfl, rfl, rfl⟩
  · exact ⟨[], text, .inl rfl, rfl, rfl⟩

/-- The alignment says how fill is shared between the sides. -/
theorem exists_padSides (align : Align) (fill : Char) (count : Nat) (text : List Char) :
    ∃ left right, Sides align left right ∧ left + right = count ∧
      padSides align fill count text = List.replicate left fill ++ text ++ List.replicate right fill := by
  cases align with
  | left => exact ⟨0, count, .left count, Nat.zero_add count, rfl⟩
  | right => exact ⟨count, 0, .right count, rfl, by simp [padSides]⟩
  | center =>
    refine ⟨count / 2, count - count / 2, .center ?_, ?_, rfl⟩
    all_goals omega

theorem sides_zero (align : Align) : Sides align 0 0 := by
  cases align with
  | left => exact .left 0
  | right => exact .right 0
  | center => exact .center rfl

theorem pad_of_padsDigits (h : f.PadsDigits v) (count : Nat) (text : List Char) :
    f.pad v count text = padDigits count text := by
  obtain ⟨hzero, halign, hnumber⟩ := h
  simp [pad, hzero, halign, hnumber]

theorem pad_of_not_padsDigits (h : ¬ f.PadsDigits v) (count : Nat) (text : List Char) :
    f.pad v count text =
      padSides (f.align.getD (if v.isNumber then .right else .left))
        (if f.zero = true ∧ f.align = none then '0' else f.fill) count text := by
  rw [pad, if_neg]
  · simp [filler]
  · intro hpads
    apply h
    simpa [PadsDigits, and_assoc, and_comm, and_left_comm] using hpads

theorem length_padDigits (count : Nat) (text : List Char) :
    (padDigits count text).length = count + text.length := by
  obtain ⟨sign, digits, -, rfl, hpadded⟩ := exists_padDigits count text
  simp only [hpadded, List.length_append, List.length_replicate]
  omega

theorem length_padSides (align : Align) (fill : Char) (count : Nat) (text : List Char) :
    (padSides align fill count text).length = count + text.length := by
  obtain ⟨left, right, -, hcount, hpadded⟩ := exists_padSides align fill count text
  simp only [hpadded, List.length_append, List.length_replicate]
  omega

theorem length_pad (f : Format) (v : Value) (count : Nat) (text : List Char) :
    (f.pad v count text).length = count + text.length := by
  by_cases h : f.PadsDigits v
  · rw [pad_of_padsDigits h, length_padDigits]
  · rw [pad_of_not_padsDigits h, length_padSides]

theorem isPadded_apply (f : Format) (v : Value) :
    f.IsPadded v (f.body v).toList (f.apply v).toList := by
  rw [toList_apply]
  generalize (f.body v).toList = body
  by_cases hshort : body.length < f.width.getD 0
  · rw [if_pos hshort]
    constructor
    · rw [length_pad]
      omega
    · intro h
      rw [pad_of_not_padsDigits h]
      obtain ⟨left, right, hsides, -, heq⟩ := exists_padSides _ _ _ body
      exact ⟨left, right, hsides, heq⟩
    · intro h
      rw [pad_of_padsDigits h]
      exact ⟨_, exists_padDigits _ body⟩
  · rw [if_neg hshort]
    constructor
    · omega
    · intro _
      exact ⟨0, 0, sides_zero _, by simp⟩
    · intro _
      exact ⟨0, [], body, .inl rfl, rfl, rfl⟩

/-! ## Numbers -/

/-- Whole numbers are written in full unless they are laid out like floats. -/
theorem body_int (h : f.type ≠ some 'f') (i : Int64) : f.body (.int i) = toString i.toInt := by
  unfold body
  split
  all_goals simp_all [Value.display]

theorem padDigits_of_digits (count : Nat) {digits : List Char}
    (h : ∀ c ∈ digits, c.isDigit = true) :
    padDigits count digits = List.replicate count '0' ++ digits := by
  unfold padDigits
  split
  · exact absurd (h '-' List.mem_cons_self) (by decide)
  · rfl

theorem padDigits_zero (text : List Char) : padDigits 0 text = text := by
  unfold padDigits
  split <;> rfl

/-- A number that is padded with zeros is still the same number. -/
theorem readInt64?_padDigits (count : Nat) (i : Int64) :
    Decimal.readInt64? (padDigits count (toString i.toInt).toList) = some i := by
  by_cases hsign : i.toInt < 0
  · rw [Decimal.toList_of_neg hsign]
    exact Decimal.readInt64?_of_neg hsign count
  · have hnonneg : 0 ≤ i.toInt := Int.not_lt.mp hsign
    rw [Decimal.toList_of_nonneg hnonneg,
      padDigits_of_digits count fun c hc => Decimal.isDigit_of_mem_toDigits hc]
    exact Decimal.readInt64?_of_nonneg hnonneg count

/-- Laying out a value to a width only pads it, and the digits of a whole number stand for that
number however many zeros are put before them. -/
theorem apply_pads (f : Format) (v : Value) :
    f.IsPadded v (f.withoutWidth.apply v).toList (f.apply v).toList ∧
      ∀ i : Int64, f.PadsDigits (.int i) → f.type ≠ some 'f' →
        Decimal.readInt64? (f.apply (.int i)).toList = some i := by
  refine ⟨?_, ?_⟩
  · rw [apply_withoutWidth]
    exact isPadded_apply f v
  · intro i hpads htype
    rw [toList_apply, pad_of_padsDigits hpads, body_int htype]
    split
    · exact readInt64?_padDigits _ i
    · rw [← padDigits_zero (toString i.toInt).toList]
      exact readInt64?_padDigits 0 i

example : apply ⟨' ', none, true, some 5, none, none⟩ (.int (-42)) = "-0042" := by cbv

end KeyExpansion.Format
