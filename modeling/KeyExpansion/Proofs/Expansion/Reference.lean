-- SUMMARY: Which keys values name.
import KeyExpansion.Expansion.Expand

/-! # References

A text names a key if it is written like one, and under an indirect name also if it is a
bare name. A key that is a value names itself. -/

namespace KeyExpansion

theorem toOption_filter_eq_some {x : Except Error Key} {k : Key} :
    x.toOption.filter (!·.isNull) = some k ↔ x = .ok k ∧ k.isNull = false := by
  cases x with
  | error e => simp [Except.toOption]
  | ok other =>
    simp only [Except.toOption, Option.filter_eq_some_iff, Option.some.injEq, Except.ok.injEq]
    exact and_congr_right fun h => by simp

/-- A text with a brace is read as a template, wherever it is found. -/
theorem Key.ofReference_of_mem {s : String} (h : '{' ∈ s.toList) : ofReference s = ofText s :=
  if_pos (by simpa using h)

theorem Value.reference?_str_eq_some {s : String} {k : Key} :
    (Value.str s).reference? = some k ↔
      '{' ∈ s.toList ∧ Key.ofText s = .ok k ∧ k.isNull = false := by
  simp only [reference?, List.contains_iff_mem]
  by_cases hopen : '{' ∈ s.toList
  · rw [if_pos hopen, toOption_filter_eq_some]
    simp [hopen]
  · simp [hopen]

/-- What a text under an indirect name leads to is the key that it names. -/
theorem Found.reference?_lift {s : String} {budget : Budget} {k : Key}
    (h : (Found.lift { value := .str s, budget }).value.reference? = some k) :
    Key.ofReference s = .ok k ∧ k.isNull = false := by
  unfold Found.lift at h
  cases hnamed : (Key.ofReference s).toOption.filter (!·.isNull) with
  | some named =>
    simp only [hnamed, Value.reference?, Option.some.injEq] at h
    subst h
    exact toOption_filter_eq_some.mp hnamed
  | none =>
    simp only [hnamed] at h
    obtain ⟨hopen, hk, hnull⟩ := Value.reference?_str_eq_some.mp h
    exact ⟨(Key.ofReference_of_mem hopen).trans hk, hnull⟩

theorem Found.lift_budget (f : Found) : f.lift.budget = f.budget := by
  unfold Found.lift
  extract_lets named
  cases named <;> rfl

/-- The keys that a value may name: the one that it is, or the one that its text writes. -/
inductive Value.Names : Value → Key → Prop where
  | key (k : Key) : Names (.key k) k
  | str {s : String} {k : Key} (h : Key.ofReference s = .ok k) : Names (.str s) k

theorem Value.names_of_reference? {v : Value} {k : Key} (h : v.reference? = some k) : v.Names k := by
  cases v with
  | key other =>
    obtain rfl : other = k := Option.some.inj h
    exact .key other
  | str s =>
    obtain ⟨hopen, hk, -⟩ := reference?_str_eq_some.mp h
    exact .str ((Key.ofReference_of_mem hopen).trans hk)
  | _ => cases h

theorem Found.names_of_reference?_lift {v : Value} {budget : Budget} {k : Key}
    (h : (Found.lift { value := v, budget }).value.reference? = some k) : v.Names k := by
  cases v with
  | key other => exact Value.names_of_reference? h
  | str s => exact .str (reference?_lift h).1
  | _ => cases h

/-! ## Values that name no key -/

/-- Does the value name a key that is to be expanded? -/
def Value.IsKeyShaped : Value → Prop
  | .key _ => True
  | .str s => '{' ∈ s.toList ∧ ∃ k, Key.ofText s = .ok k ∧ k.isNull = false
  | _ => False

theorem Value.reference?_of_not_isKeyShaped {v : Value} (h : ¬ v.IsKeyShaped) :
    v.reference? = none := by
  cases v with
  | key k => exact absurd trivial h
  | str s =>
    refine Option.eq_none_iff_forall_ne_some.mpr fun k href => ?_
    obtain ⟨hopen, hk, hnull⟩ := reference?_str_eq_some.mp href
    exact h ⟨hopen, k, hk, hnull⟩
  | _ => rfl

end KeyExpansion
