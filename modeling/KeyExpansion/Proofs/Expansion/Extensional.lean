-- SUMMARY: Expansion sees of its sources what asking them gives, and nothing else.
import KeyExpansion.Expansion.Redirect
import KeyExpansion.Proofs.Expansion.Steady
import KeyExpansion.Proofs.Value.Entries

/-! # Sources that answer alike

Expansion and redirection ask all sources at once for a name, or for parameters. Sources that
cannot be told apart by these questions can be exchanged, and several maps can be exchanged
for the one that they come down to. -/

namespace KeyExpansion

namespace Sources

/-- Asking the sources for a name is the same computation, and they have the same
parameters. -/
structure Alike (A B : List Source) : Prop where
  answer : ∀ name, find name A = find name B
  params : params? A = params? B

theorem find_append (name : String) (A B : List Source) :
    find name (A ++ B) = (do
      match ← find name A with
      | some v => return some v
      | none => find name B) := by
  induction A with
  | nil => rfl
  | cons source A ih =>
    rw [List.cons_append, find, find, ih, bind_assoc]
    refine bind_congr fun r => ?_
    cases r <;> rfl

theorem params?_append (A B : List Source) : params? (A ++ B) = (params? A).or (params? B) :=
  List.findSome?_append

namespace Alike

variable {A B : List Source} (h : Alike A B)
include h

/-- The sources behind them do not matter. -/
theorem append (C : List Source) : Alike (A ++ C) (B ++ C) where
  answer name := by rw [find_append, find_append, h.answer]
  params := by rw [params?_append, params?_append, h.params]

theorem findFirst_eq (names : List String) : findFirst A names = findFirst B names := by
  induction names with
  | nil => rfl
  | cons name names ih => rw [findFirst, findFirst, h.answer, ih]

end Alike

end Sources

/-! ## Expansions over them -/

namespace Key

variable {env : Surroundings} {A B : List Source} (h : Sources.Alike A B)
include h

theorem lookupTargets_alike (budget : Budget) (targets : List Target) :
    lookupTargets ⟨env, A⟩ budget targets = lookupTargets ⟨env, B⟩ budget targets := by
  induction targets with
  | nil => rfl
  | cons target targets ih => simp only [lookupTargets, h.answer, ih]

theorem plan_alike (conduct : Conduct) (k : Key) : conduct.plan k A = conduct.plan k B := by
  cases conduct <;> simp [Conduct.plan, h.params]

theorem lookup_alike (k : Key) (budget : Budget) :
    lookup ⟨env, A⟩ k budget = lookup ⟨env, B⟩ k budget := by
  simp only [lookup, plan_alike h, lookupTargets_alike h]

/-- One level asks the sources for nothing but the key that is entered. -/
theorem find_alike (next : Next) (chain : List String) (k : Key) (budget : Budget) :
    find ⟨env, A⟩ next chain k budget = find ⟨env, B⟩ next chain k budget := by
  cases hparts : k.parts with
  | some parts => simp only [find, hparts]
  | none => rw [find_of_parts_none hparts, find_of_parts_none hparts, lookup_alike h]

theorem expandWithin_alike (left : Nat) (chain : List String) (k : Key) (fallback : Option Value)
    (budget : Budget) :
    expandWithin ⟨env, A⟩ left chain k fallback budget
      = expandWithin ⟨env, B⟩ left chain k fallback budget := by
  induction left generalizing chain k fallback budget with
  | zero => rw [expandWithin, expandWithin]
  | succ left ih => simp only [expandWithin, ih, find_alike h]

theorem expand_alike (registry : Registry) (k : Key) (fallback : Option Value)
    (limit : Option Int) :
    k.expand env registry A fallback limit = k.expand env registry B fallback limit := by
  rw [expand_eq, expand_eq, expandWithin_alike (h.append registry.sources)]

theorem redirect_alike (registry : Registry) (k : Key) (multi : Bool) :
    k.redirect registry A multi = k.redirect registry B multi := by
  rw [redirect, redirect, (h.append registry.sources).findFirst_eq]

end Key

/-! ## Sources that asking does not change -/

/-- Asking the source changes nothing, and it has no parameters. -/
structure Source.IsInert (s : Source) : Prop where
  answer : ∀ name, ∃ answer, s.lookup name = pure answer
  params : s.params? = none

theorem Source.steady_isInert (answer : String → Option Value) : (steady answer).IsInert where
  answer _ := ⟨_, rfl⟩
  params := rfl

namespace Sources

/-- What such sources answer does not depend on the memory. -/
theorem find_of_isInert {sources : List Source} (h : ∀ s ∈ sources, s.IsInert) (name : String) :
    find name sources = pure (sources.findSome? fun s => ((s.lookup name).run {}).1) := by
  refine find_eq_pure fun s hs => ?_
  obtain ⟨answer, hanswer⟩ := (h s hs).answer name
  rw [hanswer]
  rfl

theorem params?_of_isInert {sources : List Source} (h : ∀ s ∈ sources, s.IsInert) :
    params? sources = none :=
  List.findSome?_eq_none_iff.mpr fun s hs => (h s hs).params

/-- Sources that asking does not change are told apart by their answers only. -/
theorem alike_of_answers {A B : List Source} (hA : ∀ s ∈ A, s.IsInert) (hB : ∀ s ∈ B, s.IsInert)
    (h : ∀ name m, ((find name A).run m).1 = ((find name B).run m).1) : Alike A B where
  answer name := by
    have hab := h name {}
    rw [find_of_isInert hA, find_of_isInert hB] at hab ⊢
    exact congrArg pure hab
  params := by rw [params?_of_isInert hA, params?_of_isInert hB]

/-- Maps are asked in order. -/
theorem find_tables (name : String) (maps : List (List (String × Value))) :
    find name (maps.map .table)
      = pure (maps.findSome? fun entries => Entries.get? entries name) :=
  (answer_of_not_isStack _ (by simp) name).trans (congrArg pure List.findSome?_map)

/-- Several maps answer as the one that they come down to. -/
theorem alike_overlay (maps : List (List (String × Value))) :
    Alike (maps.map .table) [.table (Entries.overlay maps)] where
  answer name := by
    have hone := find_tables name [Entries.overlay maps]
    rw [List.findSome?_singleton, Entries.get?_overlay] at hone
    rw [find_tables]
    exact hone.symm
  params := by
    have hinert : ∀ s ∈ maps.map Source.table, s.IsInert :=
      List.forall_mem_map.mpr fun _ _ => Source.steady_isInert _
    rw [params?_of_isInert hinert]
    rfl

/-- Every key comes to the same over both, whatever is registered behind them. -/
structure Interchangeable (env : Surroundings) (registry : Registry) (A B : List Source) :
    Prop where
  expand : ∀ (k : Key) fallback limit,
    k.expand env registry A fallback limit = k.expand env registry B fallback limit
  redirect : ∀ (k : Key) multi, k.redirect registry A multi = k.redirect registry B multi

theorem Alike.interchangeable {A B : List Source} (h : Alike A B) (env : Surroundings)
    (registry : Registry) : Interchangeable env registry A B where
  expand := Key.expand_alike h registry
  redirect := Key.redirect_alike h registry

/-- Sources that asking does not change are interchangeable if they give the same answers, and
several maps are interchangeable with the one that has for each name the value of the first
of them. -/
theorem interchangeable_of_answers {env : Surroundings} {registry : Registry} {A B : List Source}
    (hA : ∀ s ∈ A, s.IsInert) (hB : ∀ s ∈ B, s.IsInert)
    (h : ∀ name m, ((find name A).run m).1 = ((find name B).run m).1) :
    Interchangeable env registry A B ∧
    ∀ maps : List (List (String × Value)),
      (Entries.names (Entries.overlay maps)).Nodup ∧
      (∀ name, Entries.get? (Entries.overlay maps) name
        = maps.findSome? fun entries => Entries.get? entries name) ∧
      Interchangeable env registry (maps.map .table) [.table (Entries.overlay maps)] :=
  ⟨(alike_of_answers hA hB h).interchangeable env registry, fun maps =>
    ⟨Entries.nodup_names_overlay maps, Entries.get?_overlay maps,
      (alike_overlay maps).interchangeable env registry⟩⟩

/-- A value that is covered by the map above it does not matter. -/
theorem interchangeable_of_answers_covered :
    let env : Surroundings := ⟨.ok, fun _ v => .ok v, {}⟩
    let A := [Source.table [("a", .str "\x7bb\x7d")], .table [("b", .str "x"), ("a", .null)]]
    let B := [Source.table [("b", .str "x"), ("a", .str "\x7bb\x7d")]]
    (∀ name m, ((find name A).run m).1 = ((find name B).run m).1) ∧
    Interchangeable env {} A B ∧
    ((Key.ofField "a" "").expand env {} A none none).runFrom {} = (.ok (some (.str "x")), {}) := by
  intro env A B
  have hA : ∀ s ∈ A, s.IsInert := by simp [A, Source.table, Source.steady_isInert]
  have hB : ∀ s ∈ B, s.IsInert := by simp [B, Source.table, Source.steady_isInert]
  have hanswers (name : String) (m : Memory) :
      ((find name A).run m).1 = ((find name B).run m).1 := by
    by_cases ha : "a" = name
    · subst ha
      rfl
    · by_cases hb : "b" = name
      · subst hb
        rfl
      · simp [A, B, find, Source.table, Source.lookup, Entries.get?_cons, ha, hb]
  have h := (@interchangeable_of_answers env {} A B hA hB hanswers).1
  refine ⟨hanswers, h, ?_⟩
  rw [h.expand]
  rfl

end Sources

end KeyExpansion
