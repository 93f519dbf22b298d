-- SUMMARY: Whole numbers are read back from their digits, whatever zeros stand before them.
import KeyExpansion.Decimal.Whole
import Mathlib.Data.Nat.Init

/-! # Digits of whole numbers

The digits that are written for a number are read back as that number. Zeros may stand in
front of them, but only the number zero is written with one. -/

namespace KeyExpansion.Decimal

/-! ## Digits -/

theorem readNat?_eq_some {cs : List Char} {n : Nat} :
    readNat? cs = some n ↔
      cs ≠ [] ∧ (∀ c ∈ cs, c.isDigit = true) ∧ Nat.ofDigitChars 10 cs 0 = n := by
  by_cases h : cs ≠ [] ∧ ∀ c ∈ cs, c.isDigit = true
  · simp [readNat?, h.1]
  · have hnone : readNat? cs = none := by
      rw [readNat?, if_neg]
      simpa using h
    simp only [hnone, reduceCtorEq, false_iff]
    rintro ⟨hne, hdigits, -⟩
    exact h ⟨hne, hdigits⟩

theorem isDigit_of_mem_toDigits {n : Nat} {c : Char} (h : c ∈ Nat.toDigits 10 n) :
    c.isDigit = true :=
  Nat.isDigit_of_mem_toDigits (by decide) (by decide) h

theorem isDigit_of_mem_zeros {count n : Nat} {c : Char}
    (h : c ∈ List.replicate count '0' ++ Nat.toDigits 10 n) : c.isDigit = true := by
  rcases List.mem_append.mp h with h | h
  · rw [List.eq_of_mem_replicate h]
    rfl
  · exact isDigit_of_mem_toDigits h

theorem ofDigitChars_zeros (count : Nat) (cs : List Char) :
    Nat.ofDigitChars 10 (List.replicate count '0' ++ cs) 0 = Nat.ofDigitChars 10 cs 0 := by
  rw [Nat.ofDigitChars_append, Nat.ofDigitChars_replicate_zero, Nat.mul_zero]

/-- Zeros in front of a number do not change it. -/
theorem readNat?_zeros (count n : Nat) :
    readNat? (List.replicate count '0' ++ Nat.toDigits 10 n) = some n := by
  rw [readNat?_eq_some]
  refine ⟨List.append_ne_nil_of_right_ne_nil _ Nat.toDigits_ne_nil,
    fun c hc => isDigit_of_mem_zeros hc, ?_⟩
  rw [ofDigitChars_zeros, Nat.ofDigitChars_ten_toDigits]

theorem readNat?_toDigits (n : Nat) : readNat? (Nat.toDigits 10 n) = some n :=
  readNat?_zeros 0 n

theorem head?_toDigits_ne {n : Nat} (h : n ≠ 0) : (Nat.toDigits 10 n).head? ≠ some '0' := by
  induction n using Nat.strong_induction_on with
  | _ n ih =>
    rw [Nat.toDigits_eq_if (by decide)]
    split
    · next hsmall =>
      intro hzero
      have hvalue : Nat.ofDigitChars 10 [n.digitChar] 0 = n := by
        rw [← Nat.toDigits_of_lt_base hsmall, Nat.ofDigitChars_ten_toDigits]
      rw [Option.some.inj hzero] at hvalue
      exact h hvalue.symm
    · next hlarge =>
      have hfront := ih (n / 10) (by omega) (by omega)
      obtain ⟨c, digits, hdigits⟩ := List.exists_cons_of_ne_nil (@Nat.toDigits_ne_nil (n / 10) 10)
      rw [hdigits] at hfront ⊢
      exact hfront

/-- Digits that do not start with a zero stand for another number. -/
theorem ofDigitChars_ne_zero {cs : List Char} (hne : cs ≠ []) (hdigits : ∀ c ∈ cs, c.isDigit = true)
    (hhead : cs.head? ≠ some '0') : Nat.ofDigitChars 10 cs 0 ≠ 0 := by
  obtain ⟨c, rest, rfl⟩ := List.exists_cons_of_ne_nil hne
  have hdigit : '0'.toNat ≤ c.toNat := by
    have hc := hdigits c List.mem_cons_self
    simp only [Char.isDigit, Bool.and_eq_true, decide_eq_true_eq] at hc
    exact hc.1
  have hother : c.toNat ≠ '0'.toNat := by
    intro heq
    exact hhead (congrArg some (Char.toNat_inj.mp heq))
  have hpositive : 0 < 10 * 0 + (c.toNat - '0'.toNat) := by omega
  rw [Nat.ofDigitChars_cons, Nat.ofDigitChars_eq_ofDigitChars_zero]
  exact Nat.ne_of_gt (Nat.add_pos_left (Nat.mul_pos (Nat.pow_pos (by decide)) hpositive) _)

/-! ## Numbers with a sign -/

/-- Digits have no sign in front of them. -/
theorem takeSign_of_digits {cs : List Char} (h : ∀ c ∈ cs, c.isDigit = true) :
    takeSign cs = (false, cs) := by
  unfold takeSign
  split
  · exact absurd (h '-' List.mem_cons_self) (by decide)
  · exact absurd (h '+' List.mem_cons_self) (by decide)
  · rfl

theorem toInt64?_toInt (i : Int64) : toInt64? i.toInt = some i := by
  have hlow := i.le_toInt
  have hhigh := i.toInt_lt
  have hsigned : isSigned 64 i.toInt = true := by
    simp only [isSigned, Bool.and_eq_true, decide_eq_true_eq]
    exact ⟨hlow, hhigh⟩
  rw [toInt64?, if_pos hsigned, Int64.ofInt_toInt]

/-- A number that is not negative is written in digits. -/
theorem toList_of_nonneg {i : Int} (h : 0 ≤ i) :
    (ToString.toString i).toList = Nat.toDigits 10 i.toNat := by
  rw [Int.toString_eq_repr, Int.repr_eq_if, if_pos h, Nat.toList_repr]

/-- A negative number is written in digits with a sign. -/
theorem toList_of_neg {i : Int} (h : i < 0) :
    (ToString.toString i).toList = '-' :: Nat.toDigits 10 (-i).toNat := by
  rw [Int.toString_eq_repr, Int.repr_eq_if, if_neg (by omega), String.toList_append, Nat.toList_repr]
  rfl

theorem readInt64?_of_digits {cs : List Char} (h : ∀ c ∈ cs, c.isDigit = true) :
    readInt64? cs = (readNat? cs).bind fun n => toInt64? n := by
  rw [readInt64?, takeSign_of_digits h]
  rfl

theorem readInt64?_minus (cs : List Char) :
    readInt64? ('-' :: cs) = (readNat? cs).bind fun n => toInt64? (-(n : Int)) := rfl

/-- Zeros in front of its digits do not change a number that is not negative. -/
theorem readInt64?_of_nonneg {i : Int64} (h : 0 ≤ i.toInt) (count : Nat) :
    readInt64? (List.replicate count '0' ++ Nat.toDigits 10 i.toInt.toNat) = some i := by
  rw [readInt64?_of_digits fun c hc => isDigit_of_mem_zeros hc, readNat?_zeros, Option.bind_some,
    Int.toNat_of_nonneg h, toInt64?_toInt]

/-- Nor do zeros behind the sign of a negative number. -/
theorem readInt64?_of_neg {i : Int64} (h : i.toInt < 0) (count : Nat) :
    readInt64? ('-' :: (List.replicate count '0' ++ Nat.toDigits 10 (-i.toInt).toNat)) = some i := by
  rw [readInt64?_minus, readNat?_zeros, Option.bind_some, Int.toNat_of_nonneg (by omega),
    Int.neg_neg, toInt64?_toInt]

/-- Only digits and signs stand in numbers. -/
theorem mem_toList {i : Int} {c : Char} (hc : c ∈ (ToString.toString i).toList) :
    c.isDigit = true ∨ c = '-' := by
  by_cases hi : 0 ≤ i
  · rw [toList_of_nonneg hi] at hc
    exact .inl (isDigit_of_mem_toDigits hc)
  · rw [toList_of_neg (by omega)] at hc
    rcases List.mem_cons.mp hc with rfl | hc
    · exact .inr rfl
    · exact .inl (isDigit_of_mem_toDigits hc)

theorem toList_ne_nil (i : Int) : (ToString.toString i).toList ≠ [] := by
  by_cases hi : 0 ≤ i
  · rw [toList_of_nonneg hi]
    exact Nat.toDigits_ne_nil
  · rw [toList_of_neg (by omega)]
    exact List.cons_ne_nil _ _

end KeyExpansion.Decimal
