-- SUMMARY: With a budget no cycle is reported, and with a small one no nesting either.
import KeyExpansion.Proofs.Expansion.Holding
import KeyExpansion.Proofs.Key.Made

/-! # Expansions with a budget

Following a reference takes one from the budget, entering a template takes nothing but a
level. The keys of a template are single, so each unit of the budget is good for at most
two levels, whatever the sources hold and give up on the way. -/

namespace KeyExpansion

open Expand

/-! ## Sources of made keys -/

/-- A value that is no key, or one that was made. -/
def Value.IsMade : Value → Prop
  | .key k => k.Made
  | _ => True

/-- The stacks hold made keys at most. -/
def Memory.IsMade (m : Memory) : Prop :=
  ∀ pile ∈ m.piles, ∀ v ∈ pile, v.IsMade

/-- What a value names is made if the value is. -/
theorem Value.IsMade.of_names {v : Value} (hv : v.IsMade) {k : Key} (h : v.Names k) : k.Made := by
  cases h with
  | key => exact hv
  | str h => exact Key.made_of_ofReference h

namespace Key

variable {k : Key} {budget : Budget}

/-- The levels left are enough for what is left of the budget: two for each reference
that may be followed, and one less below a single key. -/
structure EntersWithin (small : Prop) (left : Nat) (k : Key) (budget : Budget) : Prop where
  made : k.Made
  bounded : ∃ m, budget = some m ∧ (small → 2 * m ≤ left + if k.isMulti then 0 else 1)

namespace EntersWithin

variable {small : Prop} {left : Nat}

/-- Levels run out before the budget only if that is too large for them. -/
theorem not_small (h : EntersWithin small 0 k budget) (hactive : k.IsActive budget) : ¬ small := by
  intro hsmall
  obtain ⟨m, rfl, hm⟩ := h.bounded
  have hpos : m ≠ 0 := fun hzero => hactive.2 (by rw [hzero])
  have hlevels := hm hsmall
  split at hlevels <;> omega

theorem spend_ne_none (h : EntersWithin small left k budget) : budget.spend ≠ none := by
  obtain ⟨m, rfl, -⟩ := h.bounded
  simp [Budget.spend]

/-- The keys of a template are single, and entered on the same budget. -/
theorem field {sub : Key} (h : EntersWithin small (left + 1) k budget) (hsub : sub ∈ k.subkeys) :
    EntersWithin small left sub (budget.within sub) := by
  have hsingle : sub.isMulti = false := by
    simp [isMulti, (h.made.isRegular.field sub hsub).1]
  have hmulti : k.isMulti = true := by
    cases hparts : k.parts with
    | none => simp [subkeys, hparts] at hsub
    | some parts => simp [isMulti, hparts]
  obtain ⟨m, rfl, hm⟩ := h.bounded
  refine ⟨.field h.made hsub, m, by simp [Budget.within], fun hsmall => ?_⟩
  have hlevels := hm hsmall
  rw [hmulti, if_pos rfl] at hlevels
  rw [hsingle, if_neg Bool.false_ne_true]
  omega

/-- A key that a single one leads to is entered on one less. -/
theorem follow {other : Key} (h : EntersWithin small (left + 1) k budget) (hparts : k.parts = none)
    (hother : other.Made) : EntersWithin small left other (budget.spend.within other) := by
  obtain ⟨m, rfl, hm⟩ := h.bounded
  refine ⟨hother, m - 1, by simp [Budget.spend, Budget.within], fun hsmall => ?_⟩
  have hlevels := hm hsmall
  simp only [isMulti, hparts, Option.isSome_none, Bool.false_eq_true, if_false] at hlevels
  split <;> omega

end EntersWithin

/-- The errors that a budget leaves possible. -/
def ErrorWithin (small : Prop) : Error → Prop
  | .recursion _ _ => False
  | .recursionLimit _ _ => ¬ small
  | _ => True

theorem errorWithin_of_isOfValue {small : Prop} {e : Error} (h : e.IsOfValue) :
    ErrorWithin small e := by
  cases e with
  | recursion key chain => exact h
  | recursionLimit key depth => exact h.elim
  | _ => trivial

/-- Expansion with a budget never runs out of levels before it runs out of budget. -/
def spending (ctx : Context) (small : Prop) (h : ∀ s ∈ ctx.sources, ∀ v ∈ s.values, v.IsMade) :
    Invariant ctx where
  memory := Memory.IsMade
  error := ErrorWithin small
  enters left _ k budget := EntersWithin small left k budget
  leads _ other := other.Made
  fresh _ hm := hm
  value _ := errorWithin_of_isOfValue
  format _ _ _ := trivial
  slots _ _ _ _ := trivial
  coercion henter := henter.made.isRegular.coercion
  lookup _ _ _ := lookup_meets h fun _ _ hv => hv.of_names
  limit henter hactive := henter.not_small hactive
  field henter _ := henter.field
  recursion henter _ _ _ _ hspend _ := henter.spend_ne_none hspend
  follow henter _ hparts hother _ _ := henter.follow hparts hother

/-- Under a positive budget no cycle is reported, and if the budget is at most half of the
levels there are, no nesting either. -/
theorem expand_bounded {machine : Machine} {custom : String → Value → Except Error Value}
    {code : CodeTable} {registry : Registry} {sources : List Source} {fallback : Option Value}
    {limit : Option Int} {n : Int} {memory : Memory} (hk : k.Made)
    (hsources : ∀ s ∈ sources ++ registry.sources, ∀ v ∈ s.values, v.IsMade)
    (hmemory : memory.IsMade) (hpos : 0 < n)
    (hlimit : limit = some n ∨ limit = none ∧ k.limit = some n) :
    let env : Surroundings := ⟨machine.resolve, custom, code⟩
    let result := ((k.expand env registry sources fallback limit).runFrom memory).1
    (∀ key chain, result ≠ .error (.recursion key chain)) ∧
      (n ≤ 100 → ∀ key depth, result ≠ .error (.recursionLimit key depth)) := by
  intro env result
  have hbudget : k.callBudget limit = some n.toNat := by
    have hneg : ¬ n < 0 := by omega
    rcases hlimit with rfl | ⟨rfl, hlimit⟩
    · simp [callBudget, Budget.ofLimit, hneg]
    · simp [callBudget, Key.budget, hlimit, Budget.ofLimit, hneg]
  have hmeets : Meets Memory.IsMade (ErrorWithin (n ≤ 100))
      (k.expand env registry sources fallback limit) fun _ => True := by
    rw [expand_eq, hbudget]
    refine (spending ⟨env, sources ++ registry.sources⟩ (n ≤ 100) hsources).expandWithin_meets
      (fun _ _ => machine.resolve_failsByIo) ⟨hk, n.toNat, rfl, fun hsmall => ?_⟩ fallback
    unfold nestingLimit
    split <;> omega
  exact ⟨fun key chain h => hmeets.of_error hmemory h,
    fun hsmall key depth h => hmeets.of_error hmemory h hsmall⟩

/-- A cycle through a text, a key and a stack ends when the budget does. -/
theorem expand_bounded_cycle :
    let env : Surroundings := ⟨Machine.resolve default, fun _ v => .ok v, {}⟩
    let sources := [Source.table [("a", .str "\x7bb\x7d"), ("b", .key (ofField "c" ""))], .stack 0]
    let memory : Memory := { piles := [[.key (ofField "a" "")]] }
    ∃ k, ofName "a" = .ok k ∧
      (∀ key chain, ((k.expand env {} sources none (some 100)).runFrom memory).1
        ≠ .error (.recursion key chain)) ∧
      ∀ key depth, ((k.expand env {} sources none (some 100)).runFrom memory).1
        ≠ .error (.recursionLimit key depth) := by
  intro env sources memory
  have ha : ofName "a" = .ok (ofField "a" "") := ofName_of_simple (by decide)
  have hc : ofName "c" = .ok (ofField "c" "") := ofName_of_simple (by decide)
  have hsources : ∀ s ∈ sources ++ Registry.sources {}, ∀ v ∈ s.values, v.IsMade := by
    intro s hs v hv
    simp only [sources, Registry.sources, List.map_nil, List.append_nil, List.mem_cons,
      List.not_mem_nil, or_false] at hs
    rcases hs with rfl | rfl
    · have hv := Source.mem_of_mem_values_table hv
      simp only [List.map_cons, List.map_nil, List.mem_cons, List.not_mem_nil, or_false] at hv
      rcases hv with rfl | rfl
      · trivial
      · exact made_of_ofName hc
    · cases hv
  have hmemory : memory.IsMade := by
    intro pile hpile v hv
    obtain rfl : pile = [.key (ofField "a" "")] := by simpa [memory] using hpile
    obtain rfl : v = .key (ofField "a" "") := by simpa using hv
    exact made_of_ofName ha
  have hrun := @expand_bounded (ofField "a" "") default (fun _ v => .ok v) {} {} sources none
    (some 100) 100 memory (made_of_ofName ha) hsources hmemory (by decide) (.inl rfl)
  exact ⟨_, ha, hrun.1, hrun.2 (by decide)⟩

end Key

end KeyExpansion
