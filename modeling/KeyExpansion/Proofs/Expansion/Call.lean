-- SUMMARY: What a call, and one level of an expansion, come down to.
import KeyExpansion.Expansion.Expand

/-! # Calls and levels

A call starts an expansion with all levels left, no key above it, and the budget of the
caller or else of the key. One level finds something, settles it, and falls back. -/

namespace KeyExpansion

/-- What following comes to, given what the key that was found expands to. -/
def Found.resume (f : Found) : Option Value → Option Found
  | some v => some { f.finish with value := v }
  | none => f.fallback.map fun v => { value := v, budget := f.budget.spend, literal := true }

@[simp] theorem Found.resume_some (f : Found) (v : Value) :
    f.resume (some v) = some { f.finish with value := v } := rfl

@[simp] theorem Found.resume_none (f : Found) :
    f.resume none
      = f.fallback.map fun v => { value := v, budget := f.budget.spend, literal := true } := rfl

namespace Key

/-- The budget of a call: that of the caller, or else that of the key. -/
def callBudget (k : Key) : Option Int → Budget
  | some limit => Budget.ofLimit limit
  | none => k.budget

theorem expand_eq (env : Surroundings) (registry : Registry) (k : Key) (sources : List Source)
    (fallback : Option Value) (limit : Option Int) :
    k.expand env registry sources fallback limit
      = expandWithin ⟨env, sources ++ registry.sources⟩ nestingLimit [] k fallback
          (k.callBudget limit) := by
  cases limit <;> rfl

theorem callBudget_of_unbounded {k : Key} {limit : Option Int} (hk : k.limit = none)
    (h : ∀ l ∈ limit, l < 0) : k.callBudget limit = none := by
  cases limit with
  | none => simp [callBudget, budget, hk]
  | some l => simp [callBudget, Budget.ofLimit, h l rfl]

theorem callBudget_ne_zero {k : Key} {limit : Option Int} (hk : k.limit = none)
    (h : limit ≠ some 0) : k.callBudget limit ≠ some 0 := by
  cases limit with
  | none => simp [callBudget, budget, hk]
  | some l =>
    have hl : l ≠ 0 := fun hl => h (by rw [hl])
    by_cases hneg : l < 0
    · simp [callBudget, Budget.ofLimit, hneg]
    · simp only [callBudget, Budget.ofLimit, hneg, if_false, ne_eq, Option.some.injEq]
      omega

variable {ctx : Context} {chain : List String} {k : Key} {fallback : Option Value} {budget : Budget}

theorem expandWithin_null {left : Nat} (hnull : k.isNull = true) :
    expandWithin ctx left chain k fallback budget = pure (some (.str k.text)) := by
  rw [expandWithin.eq_def]
  simp [hnull]

theorem expandWithin_spent {left : Nat} (hnull : k.isNull = false) :
    expandWithin ctx left chain k fallback (some 0) = pure (some (.key k)) := by
  rw [expandWithin.eq_def]
  simp [hnull]

theorem expandWithin_zero (hnull : k.isNull = false) (hbudget : budget ≠ some 0) :
    expandWithin ctx 0 chain k fallback budget = throw (.recursionLimit k.text nestingLimit) := by
  have hb : (budget == some 0) = false := by simpa using hbudget
  rw [expandWithin, hnull, if_neg Bool.false_ne_true, hb, if_neg Bool.false_ne_true]

/-- A key with levels left looks, settles what it finds, and falls back if it finds
nothing. -/
theorem expandWithin_succ {left : Nat} (hnull : k.isNull = false) (hbudget : budget ≠ some 0) :
    expandWithin ctx (left + 1) chain k fallback budget = (do
      match ← find ctx (fun other budget => expandWithin ctx left (chain ++ [k.text]) other none budget)
        (chain ++ [k.text]) k budget with
      | none => return k.lastResort fallback
      | some f => return (← settle ctx.env k f).or (k.lastResort fallback)) := by
  have hb : (budget == some 0) = false := by simpa using hbudget
  rw [expandWithin, hnull, if_neg Bool.false_ne_true, hb]
  exact if_neg Bool.false_ne_true

/-- A key that is no template is looked up, and what is found is followed. -/
theorem find_of_parts_none {next : Next} (hparts : k.parts = none) :
    find ctx next chain k budget = (do
      match ← k.lookup ctx budget with
      | some f => follow next chain k f
      | none => return none) := by
  unfold find
  split
  · rename_i hsome
    rw [hparts] at hsome
    cases hsome
  · rfl

/-! ## Following -/

section Follow

variable {next : Next} {f : Found} {other : Key}

theorem follow_literal (hlit : f.literal = true) : follow next chain k f = pure (some f) := by
  rw [follow, if_pos hlit]

theorem follow_plain (hlit : f.literal = false) (href : f.value.reference? = none) :
    follow next chain k f = pure (some f.finish) := by
  simp [follow, hlit, href]

theorem follow_spent (hlit : f.literal = false) (href : f.value.reference? = some other)
    (hspend : f.budget.spend = some 0) : follow next chain k f = pure (some f.finish) := by
  simp [follow, hlit, href, hspend]

/-- A key that names itself comes to its name. -/
theorem follow_same (hlit : f.literal = false) (href : f.value.reference? = some other)
    (hspend : f.budget.spend ≠ some 0) (hsame : other.same k = true) :
    follow next chain k f = pure (some { f.finish with value := .str other.text }) := by
  have hlast : (f.budget.spend == some 0) = false := by simpa using hspend
  simp only [follow, hlit, href, hlast, hsame, Bool.false_eq_true, if_false, if_true]

/-- Without a budget a key that is being expanded is not entered again. -/
theorem follow_back (hlit : f.literal = false) (href : f.value.reference? = some other)
    (hsame : other.same k = false) (hspend : f.budget.spend = none) (hback : other.text ∈ chain) :
    follow next chain k f = throw (.recursion other.text (chain ++ [other.text])) := by
  simp [follow, hlit, href, hspend, hsame, hback]

/-- A key that is not being expanded is expanded with what is left of the budget. -/
theorem follow_next (hlit : f.literal = false) (href : f.value.reference? = some other)
    (hspend : f.budget.spend ≠ some 0) (hsame : other.same k = false)
    (hback : f.budget.spend = none → other.text ∉ chain) :
    follow next chain k f = (do return f.resume (← next other (f.budget.spend.within other))) := by
  have hlast : (f.budget.spend == some 0) = false := by simpa using hspend
  have hnew : (f.budget.spend.isNone && chain.contains other.text) = false := by
    cases hb : f.budget.spend with
    | some n => rfl
    | none => simpa using hback hb
  simp only [follow, hlit, href, hlast, hsame, hnew, Bool.false_eq_true, if_false]
  refine bind_congr fun r => ?_
  cases r <;> rfl

end Follow

end Key

end KeyExpansion
