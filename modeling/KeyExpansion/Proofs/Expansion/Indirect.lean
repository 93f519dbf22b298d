-- SUMMARY: Which keys with an indirect name come to themselves on a miss.
import KeyExpansion.Machine
import KeyExpansion.Proofs.Expansion.Call
import KeyExpansion.Proofs.Expansion.Effect
import KeyExpansion.Proofs.Key.Rebuilt

/-! # Misses of indirect keys

What a key comes to when nothing is found is decided by its family, and the family by the
mark. A name that asks for another name gives the indirect mark, but only where no other
mark is asked for: a mark among the options, or a conversion letter that brings one, takes
its place. So of the keys with such a name those of the indirect mark never come to
nothing, and all others do. -/

namespace KeyExpansion

namespace Key

open Expand

variable {k : Key} {o : Options} {text : String} {P : Options → Prop}

/-! ## Families of single keys -/

/-- A single key has the family of its mark, and so has each key of a template. -/
structure HasOwnFamily (k : Key) : Prop where
  own : k.parts = none → k.family = Family.single k.mark
  field : ∀ sub ∈ k.subkeys, sub.family = Family.single sub.mark

theorem hasOwnFamily_of_makeText (h : makeText o text = .ok k) : k.HasOwnFamily where
  own hparts := by
    rcases makeText_cases h with ⟨name, format, conversion, mark, rfl⟩ | hnull | ⟨pieces, htemplate⟩
    · rfl
    · obtain ⟨-, -, rfl⟩ := makeNull_eq_ok.mp hnull
      rfl
    · obtain ⟨mark, -, subkeys, -, conversion, -, -, rfl⟩ := makeTemplate_eq_ok.mp htemplate
      cases hparts
  field sub hsub := by
    obtain ⟨p, hp⟩ := exists_field_of_makeText h hsub
    obtain ⟨conversion, -, -, -, rfl⟩ := makeSingle_eq_ok.mp hp
    rfl

theorem BuiltWith.hasOwnFamily (h : k.BuiltWith P) : k.HasOwnFamily := by
  induction h with
  | make _ _ makes ih =>
    rcases makeText_of_make makes with ⟨_, _, htext⟩ | rfl
    · exact hasOwnFamily_of_makeText htext
    · exact ih _ rfl
  | label n _ ih => exact ⟨ih.own, ih.field⟩
  | field template mem ih =>
    have hparts := (template.hasFreeFields _ mem).1
    exact ⟨fun _ => ih.field _ mem, by simp [subkeys, hparts]⟩

/-! ## Marks -/

/-- The mark that is asked for, by option or else by the conversion letter. -/
def askedMark (o : Options) (k : Key) : Option Mark :=
  o.mark.or ((k.conversion.bind Conversion.find?).bind Conversion.mark)

/-- A single key with an indirect name has the mark that is asked for, or else the indirect
one. -/
theorem mark_of_makeText (hforce : o.force = false) (hnull : k.isNull = false)
    (hparts : k.parts = none) (hname : isIndirectName k.text.toList = true)
    (h : makeText o text = .ok k) : k.mark = (askedMark o k).getD .indirect := by
  cases comesFrom_of_makeText hforce hnull h with
  | @field p _ _ makes =>
    obtain ⟨conversion, -, -, -, rfl⟩ := makeSingle_eq_ok.mp makes
    have hindirect : p.isIndirect = true := hname
    cases hmark : o.mark with
    | some mark => simp [assembled, askedMark, hmark]
    | none => simp [assembled, askedMark, hmark, naturalMark, hindirect]
  | fields _ _ makes =>
    obtain ⟨mark, -, subkeys, -, conversion, -, -, rfl⟩ := makeTemplate_eq_ok.mp makes
    cases hparts

/-- A key that looks under its names and has no fallback of its own. -/
structure LooksUnaided (k : Key) : Prop where
  parts : k.parts = none
  isNull : k.isNull = false
  family : k.family = Family.single k.mark
  not_args : k.mark ≠ .args
  not_kwargs : k.mark ≠ .kwargs
  fallback : k.fallback = none

namespace LooksUnaided

variable (h : k.LooksUnaided)
include h

theorem plan_eq (sources : List Source) :
    k.family.conduct.plan k sources = .targets [⟨k.direct, false⟩, ⟨k.indirect, true⟩] := by
  have hargs := h.not_args
  have hkwargs := h.not_kwargs
  rw [h.family]
  cases hmark : k.mark <;> first | contradiction | rfl

/-- Only a key of the indirect mark has something left when nothing is found. -/
theorem lastResort_eq :
    k.lastResort none = if k.mark = .indirect then some (.key k) else none := by
  have hargs := h.not_args
  have hkwargs := h.not_kwargs
  rw [lastResort, fallback?, h.fallback, h.family]
  cases hmark : k.mark <;> first | contradiction | rfl

end LooksUnaided

/-! ## Misses -/

section Miss

variable {ctx : Context} {budget : Budget} {m m' : Memory}

theorem lookupTargets_of_miss {targets : List Target}
    (hmiss : (Sources.findFirst ctx.sources (targets.map Target.name)).run m = (none, m')) :
    (lookupTargets ctx budget targets).runFrom m = (.ok none, m') := by
  induction targets generalizing m with
  | nil =>
    obtain ⟨-, rfl⟩ := Prod.mk.inj hmiss
    rfl
  | cons target targets ih =>
    rw [List.map_cons, Sources.findFirst, StateT.run_bind] at hmiss
    rw [lookupTargets, runFrom_bind, runFrom_liftM]
    rcases hfind : (Sources.find target.name ctx.sources).run m with ⟨_ | v, m₁⟩
    · rw [hfind] at hmiss
      exact ih hmiss
    · rw [hfind] at hmiss
      cases hmiss

theorem LooksUnaided.expandWithin_miss (h : k.LooksUnaided) {left : Nat} {chain : List String}
    (hbudget : budget ≠ some 0)
    (hmiss : (Sources.findFirst ctx.sources [k.direct, k.indirect]).run m = (none, m')) :
    (expandWithin ctx (left + 1) chain k none budget).runFrom m = (.ok (k.lastResort none), m') := by
  have hlookup : (k.lookup ctx budget).runFrom m = (.ok none, m') := by
    rw [lookup, h.plan_eq]
    exact lookupTargets_of_miss hmiss
  rw [expandWithin_succ h.isNull hbudget, find_of_parts_none h.parts, runFrom_bind, runFrom_bind,
    hlookup]
  rfl

end Miss

/-- A key with something left when nothing is found never comes to nothing. -/
theorem expandWithin_ne_none {ctx : Context} {left : Nat} {chain : List String}
    {fallback : Option Value} {budget : Budget} (h : k.lastResort fallback ≠ none) :
    Gives (expandWithin ctx left chain k fallback budget) (· ≠ none) := by
  cases hnull : k.isNull with
  | true =>
    rw [expandWithin_null hnull]
    exact meets_pure (Option.some_ne_none _)
  | false =>
    by_cases hbudget : budget = some 0
    · rw [hbudget, expandWithin_spent hnull]
      exact meets_pure (Option.some_ne_none _)
    · cases left with
      | zero =>
        rw [expandWithin_zero hnull hbudget]
        exact meets_throw trivial
      | succ left =>
        rw [expandWithin_succ hnull hbudget]
        refine (gives_anything _).bind fun r _ => ?_
        cases r with
        | none => exact meets_pure h
        | some f =>
          refine (gives_anything _).bind fun v _ => meets_pure ?_
          cases v with
          | none => exact h
          | some v => exact Option.some_ne_none v

/-- A single key with an indirect name that looks under its names and has no fallback never comes
to nothing exactly if its mark is the indirect one. When nothing is found it comes to itself
then, and to nothing otherwise; on no budget it comes to itself in any case. The mark is the
indirect one unless another is asked for. -/
theorem expand_ne_none_iff (hk : k.BuiltWith P) (hparts : k.parts = none) (hnull : k.isNull = false)
    (hname : isIndirectName k.text.toList = true) (hargs : k.mark ≠ .args) (hkwargs : k.mark ≠ .kwargs)
    (hfallback : k.fallback = none) (env : Surroundings) :
    ((∀ registry sources limit memory,
        ((k.expand env registry sources none limit).runFrom memory).1 ≠ .ok none) ↔
      k.mark = .indirect) ∧
    (∀ registry sources limit memory memory', k.callBudget limit ≠ some 0 →
      (Sources.findFirst (sources ++ registry.sources) [k.direct, k.indirect]).run memory
        = (none, memory') →
      (k.expand env registry sources none limit).runFrom memory
        = (.ok (if k.mark = .indirect then some (.key k) else none), memory')) ∧
    (∀ registry sources limit memory, k.callBudget limit = some 0 →
      (k.expand env registry sources none limit).runFrom memory = (.ok (some (.key k)), memory)) ∧
    ∀ o text, o.force = false → makeText o text = .ok k →
      k.mark = (askedMark o k).getD .indirect := by
  have hlooks : k.LooksUnaided :=
    ⟨hparts, hnull, hk.hasOwnFamily.own hparts, hargs, hkwargs, hfallback⟩
  have hmisses (registry : Registry) (sources : List Source) (limit : Option Int)
      (memory memory' : Memory) (hbudget : k.callBudget limit ≠ some 0)
      (hmiss : (Sources.findFirst (sources ++ registry.sources) [k.direct, k.indirect]).run memory
        = (none, memory')) :
      (k.expand env registry sources none limit).runFrom memory
        = (.ok (if k.mark = .indirect then some (.key k) else none), memory') := by
    rw [expand_eq, ← hlooks.lastResort_eq]
    exact hlooks.expandWithin_miss hbudget hmiss
  refine ⟨⟨fun h => ?_, fun hmark registry sources limit memory => ?_⟩, hmisses, ?_, ?_⟩
  · -- Without any source there is a miss.
    by_contra hmark
    have hnothing := hmisses {} [] (some (-1)) {} {} (by simp [callBudget, Budget.ofLimit]) rfl
    rw [if_neg hmark] at hnothing
    exact h {} [] (some (-1)) {} (congrArg Prod.fst hnothing)
  · rw [expand_eq]
    have hresort : k.lastResort none ≠ none := by
      rw [hlooks.lastResort_eq, if_pos hmark]
      exact Option.some_ne_none _
    intro hnone
    have hmeets : Meets (fun _ => True) (fun _ => True) (expandWithin ⟨env, sources ++ registry.sources⟩
        nestingLimit [] k none (k.callBudget limit)) (· ≠ none) :=
      expandWithin_ne_none hresort
    have hvalue := (hmeets memory trivial).2
    rw [hnone] at hvalue
    exact hvalue rfl
  · intro registry sources limit memory hbudget
    rw [expand_eq, hbudget, expandWithin_spent hnull]
    rfl
  · intro o text hforce hmake
    exact mark_of_makeText hforce hnull hparts hname hmake

/-- A conversion to integers brings no mark, so the key comes to itself on a miss. -/
theorem expand_ne_none_iff_letter :
    let env : Surroundings := ⟨Machine.resolve default, fun _ v => .ok v, {}⟩
    ∃ k, ofText "\x7ba_!i\x7d" = .ok k ∧ isIndirectName k.text.toList = true ∧
      k.conversion = some 'i' ∧ k.mark = .indirect ∧
      (∀ registry sources limit memory,
        ((k.expand env registry sources none limit).runFrom memory).1 ≠ .ok none) ∧
      (k.expand env {} [.table [("b", .null)], .stack 0] none none).runFrom {}
        = (.ok (some (.key k)), {}) := by
  intro env
  let k := assembled {} "a_" "" (some 'i') .indirect
  have hmake : ofText "\x7ba_!i\x7d" = .ok k := rfl
  have hmade : make (.text "\x7ba_!i\x7d") {} = .ok k := hmake
  have hbuilt : k.BuiltWith fun o => o.force = false := by
    refine .make ?_ rfl hmade
    intro other hother
    cases hother
  obtain ⟨hnever, hmiss, -, -⟩ :=
    expand_ne_none_iff hbuilt rfl rfl (by decide) (by decide) (by decide) rfl env
  refine ⟨k, hmake, by decide, rfl, rfl, hnever.mpr rfl, ?_⟩
  have hdirect : k.direct = "a" := by decide
  have hindirect : k.indirect = "a_" := by decide
  refine hmiss {} [.table [("b", .null)], .stack 0] none {} {} (by decide) ?_
  rw [hdirect, hindirect]
  rfl

/-- A conversion to text brings its own mark, so the key comes to nothing on a miss. -/
theorem expand_misses_letter :
    let env : Surroundings := ⟨Machine.resolve default, fun _ v => .ok v, {}⟩
    ∃ k, ofText "\x7ba_!s\x7d" = .ok k ∧ k.parts = none ∧ k.isNull = false ∧
      isIndirectName k.text.toList = true ∧ k.mark = .str ∧ k.fallback = none ∧
      (k.expand env {} [] none none).runFrom {} = (.ok none, {}) :=
  ⟨assembled {} "a_" "" (some 's') .str, rfl, rfl, rfl, rfl, rfl, rfl, rfl⟩

end Key

end KeyExpansion
