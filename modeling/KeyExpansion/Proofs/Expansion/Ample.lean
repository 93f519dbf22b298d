-- SUMMARY: A budget that outlasts the levels is as good as none.
import KeyExpansion.Proofs.Expansion.Holding
import KeyExpansion.Proofs.Expansion.Simulation
import KeyExpansion.Proofs.Key.Built
import KeyExpansion.Proofs.Key.Written

/-! # Ample budgets

Each reference that is followed takes one from the budget and one from the levels, so a
budget above the levels left stays above them and never runs out. An expansion without a
budget that gives a value then has the same value with such a budget: what it may do
besides, reporting a cycle or too deep a nesting, gives no value. -/

namespace KeyExpansion

open Expand

/-! ## Budgets of what is found -/

namespace Found

def withBudget (b : Budget) (f : Found) : Found :=
  { f with budget := b }

/-- What is found on another budget. A literal keeps its own, which nothing asks for. -/
def fund (b : Budget) (f : Found) : Found :=
  if f.literal then f else f.withBudget b

/-- Is the same found, whatever the budgets? -/
def Alike (r s : Option Found) : Prop :=
  ∃ b, s = r.map (withBudget b)

theorem alike_none : Alike none none := ⟨none, rfl⟩

theorem alike_some {f : Found} (b : Budget) : Alike (some f) (some (f.withBudget b)) := ⟨b, rfl⟩

theorem alike_resume (f : Found) (b : Budget) (r : Option Value) :
    Alike (f.resume r) ((f.withBudget b).resume r) := by
  cases r with
  | some v => exact alike_some b
  | none =>
    refine ⟨b.spend, ?_⟩
    simp only [resume, Option.map_map]
    rfl

theorem lift_withBudget (f : Found) (b : Budget) :
    (f.withBudget b).lift = f.lift.withBudget b := by
  simp only [lift, withBudget]
  split <;> rfl

theorem lift_literal (f : Found) : f.lift.literal = f.literal := by
  unfold lift
  extract_lets named
  cases named <;> rfl

end Found

namespace Key

variable {ctx : Context} {k : Key}

/-- Targets are found on the budget that they are looked up with. -/
theorem lookupTargets_eq_map (b : Budget) (targets : List Target) :
    lookupTargets ctx b targets = Option.map (Found.fund b) <$> lookupTargets ctx none targets := by
  induction targets with
  | nil => rfl
  | cons target targets ih =>
    simp only [lookupTargets, map_bind]
    refine bind_congr fun r => ?_
    cases r with
    | none => exact ih
    | some v =>
      have hlift : (Found.lift { value := v }).fund b = Found.lift { value := v, budget := b } := by
        rw [Found.fund, Found.lift_literal, if_neg (by simp)]
        exact (Found.lift_withBudget { value := v } b).symm
      cases htarget : target.lift with
      | false => rfl
      | true => simp [hlift]

theorem lookup_eq_map (b : Budget) :
    k.lookup ctx b = Option.map (Found.fund b) <$> k.lookup ctx none := by
  unfold lookup
  cases hplan : k.family.conduct.plan k ctx.sources with
  | targets targets => exact lookupTargets_eq_map b targets
  | resolved found =>
    cases found with
    | none => rfl
    | some f => simp [Found.fund, literal_of_plan_resolved hplan f rfl]

/-- Settling does not ask for the budget. -/
theorem settle_withBudget (env : Surroundings) (b : Budget) (f : Found) :
    settle env k (f.withBudget b) = settle env k f := by
  have hcoerce : k.coerce env (f.withBudget b)
      = Option.map (Found.withBudget b) <$> k.coerce env f := by
    unfold coerce Found.withBudget
    split
    · rfl
    · split
      · split
        · rfl
        · simp only [map_bind]
          rfl
      · split
        · rfl
        · simp only [map_bind]
          rfl
  unfold settle
  rw [hcoerce, bind_map_left]
  refine bind_congr fun r => ?_
  cases r <;> rfl

end Key

/-! ## Keys without limits -/

/-- A value that is no key, or a built one without a limit of its own. -/
def Value.IsUnlimited : Value → Prop
  | .key k => k.BuiltWith (fun _ => True) ∧ k.limit = none
  | _ => True

namespace Key

/-- A key that sets no budget, and enters no key that does. -/
structure IsFree (k : Key) : Prop where
  limit : k.limit = none
  fields : k.HasFreeFields

theorem IsFree.within_none {k : Key} (h : k.IsFree) : Budget.within none k = none := by
  simp [Budget.within, budget, h.limit]

theorem IsWritten.isFree {k : Key} (h : k.IsWritten) : k.IsFree where
  limit := h.limit
  fields sub hsub := ⟨(h.field sub hsub).2.2.parts, (h.field sub hsub).2.2.limit⟩

theorem isFree_of_names {v : Value} {k : Key} (hv : v.IsUnlimited) (h : v.Names k) : k.IsFree := by
  cases h with
  | key => exact ⟨hv.2, hv.1.hasFreeFields⟩
  | str h => exact (isWritten_of_ofReference h).isFree

variable {I : Memory → Prop} {ctx : Context} {chain : List String} {k : Key}
  {next : Next} {m : Nat}

/-! ## One level -/

/-- With two references left following does what it does without a budget, unless that
reports a cycle. -/
theorem follow_simulates {f : Found} (hf : MayFind IsFree none f) (hm : 2 ≤ m)
    (hnext : ∀ other : Key, other.IsFree →
      Simulates I Eq (next other none) (next other (some (m - 1)))) :
    Simulates I Found.Alike (follow next chain k f) (follow next chain k (f.fund (some m))) := by
  cases hlit : f.literal with
  | true =>
    have hfund : f.fund (some m) = f.withBudget f.budget := by
      rw [Found.fund, if_pos hlit]
      rfl
    rw [hfund, follow_literal hlit, follow_literal (f := f.withBudget f.budget) hlit]
    exact simulates_pure (Found.alike_some f.budget)
  | false =>
    obtain ⟨hbudget, hleads⟩ := hf hlit
    have hfund : f.fund (some m) = f.withBudget (some m) := by simp [Found.fund, hlit]
    rw [hfund]
    cases href : f.value.reference? with
    | none =>
      rw [follow_plain hlit href, follow_plain (f := f.withBudget (some m)) hlit href]
      exact simulates_pure (Found.alike_some (some m))
    | some other =>
      have hspend : f.budget.spend = none := by simp [hbudget, Budget.spend]
      have hleft : (f.withBudget (some m)).budget.spend = some (m - 1) := rfl
      have hpos : m - 1 ≠ 0 := by omega
      cases hsame : other.same k with
      | true =>
        rw [follow_same hlit href (by simp [hspend]) hsame,
          follow_same (f := f.withBudget (some m)) hlit href (by simp [hleft, hpos]) hsame]
        exact simulates_pure (Found.alike_some (some m))
      | false =>
        by_cases hback : other.text ∈ chain
        · rw [follow_back hlit href hsame hspend hback]
          exact simulates_throw
        · have hother := hleads other href
          rw [follow_next hlit href (by simp [hspend]) hsame (fun _ => hback),
            follow_next (f := f.withBudget (some m)) hlit href (by simp [hleft, hpos]) hsame
              (by simp [hleft]), hspend, hleft, hother.within_none]
          refine (hnext other hother).bind ?_
          rintro r _ rfl
          exact simulates_pure (Found.alike_resume f (some m) r)

theorem renderAll_simulates {ks : List Key} (hks : ∀ sub ∈ ks, sub.IsFree)
    (hnext : ∀ other : Key, other.IsFree → Simulates I Eq (next other none) (next other (some m))) :
    Simulates I Eq (renderAll next none ks) (renderAll next (some m) ks) := by
  induction ks with
  | nil => exact simulates_pure rfl
  | cons sub ks ih =>
    have hsub := hks sub (by simp)
    unfold renderAll
    rw [hsub.within_none]
    refine (hnext sub hsub).bind ?_
    rintro r _ rfl
    cases r with
    | none => exact simulates_pure rfl
    | some v =>
      simp only
      split
      · exact simulates_throw
      · refine (ih fun other hother => hks other (List.mem_cons_of_mem _ hother)).bind ?_
        rintro r s rfl
        exact simulates_pure rfl

theorem expandParts_simulates {parts : Parts} (hparts : ∀ sub ∈ parts.subkeys, sub.IsFree)
    (hnext : ∀ other : Key, other.IsFree → Simulates I Eq (next other none) (next other (some m))) :
    Simulates I Found.Alike (expandParts next parts none) (expandParts next parts (some m)) := by
  unfold expandParts
  split
  · rename_i sub hsub _
    have hfree : sub.IsFree := hparts sub (by simp [hsub])
    rw [hfree.within_none]
    refine (hnext sub hfree).bind ?_
    rintro r _ rfl
    refine simulates_pure ⟨some m, ?_⟩
    rw [Option.map_map]
    rfl
  · refine (renderAll_simulates hparts hnext).bind ?_
    rintro r _ rfl
    cases r with
    | none => exact simulates_pure Found.alike_none
    | some texts =>
      simp only
      split
      · exact simulates_pure (Found.alike_some (some m))
      · exact simulates_throw

/-- What a key finds without a budget it finds with two references left. -/
theorem find_simulates (hlookup : Meets I (fun _ => True) (k.lookup ctx none) fun r =>
      ∀ f ∈ r, MayFind IsFree none f)
    (hk : k.HasFreeFields) (hm : 2 ≤ m)
    (hnext : ∀ (other : Key) (n : Nat), other.IsFree → m - 1 ≤ n →
      Simulates I Eq (next other none) (next other (some n))) :
    Simulates I Found.Alike (find ctx next chain k none) (find ctx next chain k (some m)) := by
  unfold find
  cases hparts : k.parts with
  | some parts =>
    have hfields : ∀ sub ∈ parts.subkeys, sub.IsFree := by
      intro sub hsub
      obtain ⟨hsingle, hlimit⟩ := hk sub (by simpa [subkeys, hparts] using hsub)
      exact ⟨hlimit, hasFreeFields_of_parts hsingle⟩
    exact expandParts_simulates hfields fun other h => hnext other m h (Nat.sub_le m 1)
  | none =>
    simp only
    rw [lookup_eq_map (some m), bind_map_left]
    refine hlookup.simulates.bind ?_
    rintro r _ ⟨rfl, hr⟩
    cases r with
    | none => exact simulates_pure Found.alike_none
    | some f => exact follow_simulates (hr f rfl) hm fun other h => hnext other (m - 1) h le_rfl

/-! ## All levels -/

/-- Any budget above the levels left does what no budget does. -/
theorem expandWithin_simulates {left : Nat} (hfresh : ∀ m, I m → I m.fresh.2)
    (hlookup : ∀ k : Key, Meets I (fun _ => True) (k.lookup ctx none) fun r =>
      ∀ f ∈ r, MayFind IsFree none f)
    (hk : k.HasFreeFields) (fallback : Option Value) (hm : left < m) :
    Simulates I Eq (expandWithin ctx left chain k fallback none)
      (expandWithin ctx left chain k fallback (some m)) := by
  induction left generalizing chain k fallback m with
  | zero =>
    cases hnull : k.isNull with
    | true =>
      rw [expandWithin_null hnull, expandWithin_null hnull]
      exact simulates_pure rfl
    | false =>
      rw [expandWithin_zero hnull (by simp)]
      exact simulates_throw
  | succ left ih =>
    cases hnull : k.isNull with
    | true =>
      rw [expandWithin_null hnull, expandWithin_null hnull]
      exact simulates_pure rfl
    | false =>
      have hpos : m ≠ 0 := Nat.ne_of_gt (Nat.zero_lt_of_lt hm)
      rw [expandWithin_succ hnull (by simp), expandWithin_succ hnull (by simpa using hpos)]
      refine (find_simulates (hlookup k) hk (by omega) fun other n h hn =>
        ih h.fields none (by omega)).bind ?_
      rintro r _ ⟨b, rfl⟩
      cases r with
      | none => exact simulates_pure rfl
      | some f =>
        have hsettle : Meets I (fun _ => True) (settle ctx.env k f) fun _ => True :=
          settle_meets (fun _ _ => trivial) (fun _ _ _ => trivial) hfresh
            (fun _ _ _ _ _ => trivial) f
        simp only [Option.map_some, settle_withBudget]
        refine hsettle.simulates.bind ?_
        rintro v _ ⟨rfl, -⟩
        exact simulates_pure rfl

/-- Where expansion without a limit gives a value, expansion with a limit above the levels
there are gives the same, and takes the same from the stacks. -/
theorem expand_of_ample_limit {env : Surroundings} {registry : Registry} {sources : List Source}
    {fallback r : Option Value} {n : Int} {memory after : Memory}
    (hk : k.BuiltWith fun _ => True)
    (hsources : ∀ s ∈ sources ++ registry.sources, ∀ v ∈ s.values, v.IsUnlimited)
    (hmemory : memory.Holds Value.IsUnlimited) (hn : 201 ≤ n)
    (h : (k.expand env registry sources fallback (some (-1))).runFrom memory = (.ok r, after)) :
    (k.expand env registry sources fallback (some n)).runFrom memory = (.ok r, after) := by
  have hbudget : k.callBudget (some n) = some n.toNat := by
    simp only [callBudget, Budget.ofLimit]
    rw [if_neg (by omega)]
  have hlevels : nestingLimit < n.toNat := by
    unfold nestingLimit
    omega
  have hlookup (k : Key) : Meets (Memory.Holds Value.IsUnlimited) (fun _ => True)
      (k.lookup ⟨env, sources ++ registry.sources⟩ none) fun r => ∀ f ∈ r, MayFind IsFree none f :=
    lookup_meets hsources fun _ _ => isFree_of_names
  rw [expand_eq] at h ⊢
  rw [hbudget]
  obtain ⟨-, r', rfl, hrun⟩ := expandWithin_simulates (fun _ hm => hm) hlookup hk.hasFreeFields
    fallback hlevels memory r after hmemory h
  exact hrun

/-- A limit of 201 is enough for a key on a stack, a text that names a key, and its value. -/
theorem expand_of_ample_limit_stack :
    let env : Surroundings := ⟨.ok, fun _ v => .ok v, {}⟩
    let sources := [Source.stack 0, .table [("b", .str "\x7bc\x7d."), ("c", .int 7)]]
    let memory : Memory := { piles := [[.key (ofField "b" "")]] }
    ∃ k, ofName "a" = .ok k ∧
      (k.expand env {} sources none (some (-1))).runFrom memory
        = (.ok (some (.str "7.")), { piles := [[]] }) ∧
      (k.expand env {} sources none (some 201)).runFrom memory
        = (.ok (some (.str "7.")), { piles := [[]] }) := by
  intro env sources memory
  have hbuilt {name : String} (h : IsSimpleName name) :
      (ofField name "").BuiltWith fun _ => True := by
    have hmakes : make (.text name) { implicit := true } = .ok (ofField name "") := ofName_of_simple h
    refine .make (fun other hother => ?_) trivial hmakes
    cases hother
  have hsources : ∀ s ∈ sources ++ Registry.sources {}, ∀ v ∈ s.values, v.IsUnlimited := by
    intro s hs v hv
    simp only [sources, Registry.sources, List.map_nil, List.append_nil, List.mem_cons,
      List.not_mem_nil, or_false] at hs
    rcases hs with rfl | rfl
    · cases hv
    · have hv := Source.mem_of_mem_values_table hv
      simp only [List.map_cons, List.map_nil, List.mem_cons, List.not_mem_nil, or_false] at hv
      rcases hv with rfl | rfl <;> trivial
  have hmemory : memory.Holds Value.IsUnlimited := by
    intro pile hpile v hv
    obtain rfl : pile = [.key (ofField "b" "")] := by simpa [memory] using hpile
    obtain rfl : v = .key (ofField "b" "") := by simpa using hv
    exact ⟨hbuilt (by decide), rfl⟩
  have hrun : ((ofField "a" "").expand env {} sources none (some (-1))).runFrom memory
      = (.ok (some (.str "7.")), { piles := [[]] }) := rfl
  exact ⟨_, ofName_of_simple (by decide), hrun,
    expand_of_ample_limit (hbuilt (by decide)) hsources hmemory (by decide) hrun⟩

end Key

end KeyExpansion
