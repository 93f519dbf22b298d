-- SUMMARY: Chains of names that refer to each other, and what the first of them expands to.
import KeyExpansion.Proofs.Expansion.Steady

/-! # Chains of references

A name hops to another one directly, when it is bound to that name in braces, or by
lift, when only its indirect name is bound. Expanding the first name of a chain follows
every hop. The value at the end comes back unchanged, and if there is none the last
name that a lift led to comes back as a key. -/

namespace KeyExpansion

/-- How one name leads to another. -/
inductive Hop (S : String → Option Value) : (lifted : Bool) → String → String → Prop where
  | direct {n m : String} (h : S n = some (.str (inBraces m))) : Hop S false n m
  | lifted {n m : String} (hdirect : S n = none) (hindirect : S (n.push '_') = some (.str m)) :
      Hop S true n m

/-- Names of which each leads to the next one. -/
def IsHopChain (S : String → Option Value) (names : List String) : Prop :=
  names.IsChain fun n m => ∃ lifted, Hop S lifted n m

namespace Key

variable {ctx : Context} {S : String → Option Value}

theorem reference?_inBraces {m : String} (h : IsSimpleName m) :
    Value.reference? (.str (inBraces m)) = some (ofField m "") := by
  rw [Value.reference?_str_eq_some]
  exact ⟨by simp [inBraces], ofText_inBraces_of_simple h, ofField_isNull m ""⟩

theorem lift_name {m : String} (h : IsSimpleName m) (budget : Budget) :
    Found.lift { value := .str m, budget }
      = { value := .key (ofField m ""), budget, fallback := some (.key (ofField m "")),
          lifted := true } := by
  have hnamed : (ofReference m).toOption.filter (!·.isNull) = some (ofField m "") :=
    toOption_filter_eq_some.mpr ⟨ofReference_of_simple h, ofField_isNull m ""⟩
  simp only [Found.lift, hnamed]

/-- What comes back when the name that a hop leads to is bound to nothing. -/
def hopFallback (lifted : Bool) (m : String) : Option Value :=
  if lifted then some (.key (ofField m "")) else none

/-- The reference that a hop is made through: the key that is lifted to, or the name in
braces. -/
def hopValue (lifted : Bool) (m : String) : Value :=
  if lifted then .key (ofField m "") else .str (inBraces m)

/-- What a name finds that hops, before the reference is followed. -/
def hopFound (budget : Budget) (lifted : Bool) (m : String) : Found where
  value := hopValue lifted m
  budget := budget
  fallback := hopFallback lifted m
  lifted := lifted

theorem found?_hop {budget : Budget} {lifted : Bool} {n m : String} (hn : IsSimpleName n)
    (hm : IsSimpleName m) (hop : Hop S lifted n m) :
    (ofField n "").found? S budget = some (hopFound budget lifted m) := by
  cases hop with
  | direct h => simp [found?, hn.directName_eq, h, hopFound, hopValue, hopFallback]
  | lifted hdirect hindirect =>
    simp [found?, hn.directName_eq, hn.indirectName_eq, hdirect, hindirect, lift_name hm, hopFound,
      hopValue, hopFallback]

theorem reference?_hopFound {budget : Budget} {lifted : Bool} {m : String} (hm : IsSimpleName m) :
    (hopFound budget lifted m).value.reference? = some (ofField m "") := by
  cases lifted with
  | false => exact reference?_inBraces hm
  | true => rfl

/-- Expanding a name is expanding the name that it hops to, with what is left of the budget. -/
theorem expandWithin_hop {left : Nat} {chain : List String} {budget : Budget} {lifted : Bool}
    {n m : String} (hS : Sources.Answer ctx.sources S) (hn : IsSimpleName n) (hm : IsSimpleName m)
    (hop : Hop S lifted n m) (hne : m ≠ n) (hbudget : budget ≠ some 0)
    (hspend : budget.spend ≠ some 0) (hchain : budget.spend = none → m ∉ chain) :
    expandWithin ctx (left + 1) chain (ofField n "") none budget = (do
      return (← expandWithin ctx left (chain ++ [n]) (ofField m "") none budget.spend).or
        (hopFallback lifted m)) := by
  have hbare := ofField_isBare n ""
  have hsame : (ofField m "").same (ofField n "") = false := by simpa [same] using hne
  have hback : budget.spend = none → (ofField m "").text ∉ chain ++ [n] := fun h => by
    simp [hchain h, hne]
  have hwithin : budget.spend.within (ofField m "") = budget.spend := by
    simp [Budget.within, Key.budget]
  rw [expandWithin_succ (ofField_isNull n "") hbudget,
    find_single hS (ofField_parts n "") (hbare.plan_eq _), ofField_text, found?_hop hn hm hop]
  simp only
  rw [follow_next rfl (reference?_hopFound hm) hspend hsame hback]
  simp only [hopFound, hwithin, bind_assoc]
  refine bind_congr fun r => ?_
  cases r with
  | some v => simp [hbare.settle_eq]
  | none =>
    cases lifted with
    | false => simp [hopFallback, lastResort_ofField hn.isIndirectName_eq_false]
    | true => simp [hopFallback, hbare.settle_eq]

/-! ## Whole chains -/

/-- The last key of a chain that a lift led to. -/
def lastLifted (S : String → Option Value) : List String → Option Key
  | n :: m :: names =>
    (lastLifted S (m :: names)).or (if (S n).isNone then some (ofField m "") else none)
  | _ => none

theorem lastLifted_of_direct {names : List String} (h : names.IsChain (Hop S false)) :
    lastLifted S names = none := by
  induction names with
  | nil => rfl
  | cons n names ih =>
    cases names with
    | nil => rfl
    | cons m names =>
      obtain ⟨⟨hn⟩, hrest⟩ := List.isChain_cons_cons.mp h
      rw [lastLifted, ih hrest, hn]
      rfl

theorem lastLifted_of_split {before after : List String} {n m : String} (hop : Hop S true n m)
    (hafter : (m :: after).IsChain (Hop S false)) :
    lastLifted S (before ++ n :: m :: after) = some (ofField m "") := by
  induction before with
  | nil =>
    cases hop with
    | lifted hn _ =>
      rw [List.nil_append, lastLifted, lastLifted_of_direct hafter, hn]
      rfl
  | cons b before ih =>
    cases before with
    | nil =>
      rw [List.cons_append, List.nil_append, lastLifted, ← List.nil_append (n :: m :: after), ih]
      rfl
    | cons c before =>
      rw [List.cons_append, List.cons_append, lastLifted, ← List.cons_append, ih]
      rfl

/-- With a budget that lasts, the first name of a chain expands to what the last one does
with what is left of the budget, or to the last key that a lift led to. -/
theorem expandWithin_chain_of_lasting {left : Nat} {chain names : List String} {n : String}
    {budget : Budget} {r : Option Value}
    (hS : Sources.Answer ctx.sources S) (hops : IsHopChain S (n :: names))
    (hsimple : ∀ x ∈ n :: names, IsSimpleName x) (hnodup : (n :: names).Nodup)
    (hchain : ∀ x ∈ n :: names, x ∉ chain) (hleft : names.length < left)
    (hlasts : ∀ b ∈ budget, names.length < b)
    (hend : ∀ left chain, expandWithin ctx (left + 1) chain
      (ofField ((n :: names).getLast (List.cons_ne_nil _ _)) "") none
      (budget.map (· - names.length)) = pure r) :
    expandWithin ctx left chain (ofField n "") none budget
      = pure (r.or ((lastLifted S (n :: names)).map Value.key)) := by
  induction names generalizing n left chain budget with
  | nil =>
    obtain ⟨left, rfl⟩ := Nat.exists_eq_succ_of_ne_zero (Nat.ne_of_gt hleft)
    have hlast := hend left chain
    simp only [List.getLast_singleton, List.length_nil, Nat.sub_zero, Option.map_id'] at hlast
    simp [hlast, lastLifted]
  | cons m names ih =>
    obtain ⟨left, rfl⟩ := Nat.exists_eq_succ_of_ne_zero (Nat.ne_of_gt (Nat.zero_lt_of_lt hleft))
    obtain ⟨⟨lifted, hop⟩, hrest⟩ := List.isChain_cons_cons.mp hops
    obtain ⟨hnotin, hnodup'⟩ := List.nodup_cons.mp hnodup
    have hne : m ≠ n := fun h => hnotin (by simp [h])
    have hchain' : ∀ x ∈ m :: names, x ∉ chain ++ [n] := by
      intro x hx
      have hxn : x ≠ n := fun h => hnotin (h ▸ hx)
      simp [hchain x (List.mem_cons_of_mem _ hx), hxn]
    have hlasts' : ∀ b ∈ budget.spend, names.length < b := by
      intro b hb
      obtain ⟨whole, hwhole, rfl⟩ := Option.map_eq_some_iff.mp hb
      have := hlasts whole hwhole
      simp only [List.length_cons] at this
      omega
    have hspent : budget.spend.map (· - names.length) = budget.map (· - (m :: names).length) := by
      cases budget with
      | none => rfl
      | some b => simp only [Budget.spend, Option.map_some, List.length_cons]; congr 1; omega
    have hinner := ih hrest (fun x hx => hsimple x (List.mem_cons_of_mem _ hx)) hnodup' hchain'
      (by simpa using hleft) hlasts' (fun left chain => by simpa [hspent] using hend left chain)
    have hbudget : budget ≠ some 0 := fun h => by simpa using hlasts 0 h
    have hspend : budget.spend ≠ some 0 := fun h => by simpa using hlasts' 0 h
    rw [expandWithin_hop hS (hsimple n (by simp)) (hsimple m (by simp)) hop hne hbudget hspend
      fun _ => hchain m (by simp), hinner, pure_bind, lastLifted]
    cases hop with
    | direct h => cases r <;> cases lastLifted S (m :: names) <;> simp [hopFallback, h]
    | lifted hdirect _ => cases r <;> cases lastLifted S (m :: names) <;> simp [hopFallback, hdirect]

/-- The first name of a chain expands to what the last one does, or to the last key
that a lift led to. -/
theorem expandWithin_chain {left : Nat} {chain names : List String} {n : String} {r : Option Value}
    (hS : Sources.Answer ctx.sources S) (hops : IsHopChain S (n :: names))
    (hsimple : ∀ x ∈ n :: names, IsSimpleName x) (hnodup : (n :: names).Nodup)
    (hchain : ∀ x ∈ n :: names, x ∉ chain) (hleft : names.length < left)
    (hend : ∀ left chain, expandWithin ctx (left + 1) chain
      (ofField ((n :: names).getLast (List.cons_ne_nil _ _)) "") none none = pure r) :
    expandWithin ctx left chain (ofField n "") none none
      = pure (r.or ((lastLifted S (n :: names)).map Value.key)) :=
  expandWithin_chain_of_lasting hS hops hsimple hnodup hchain hleft (by simp) hend

/-- Chains of any length resolve as the table of redirections says: to the value at
their end, or to the last key that a lift led to, or to nothing. -/
theorem expand_hopChain {env : Surroundings} {registry : Registry} {sources : List Source}
    {limit : Option Int} {n : String} {names : List String}
    (hS : Sources.Answer (sources ++ registry.sources) S) (hlimit : ∀ l ∈ limit, l < 0)
    (hops : IsHopChain S (n :: names)) (hsimple : ∀ x ∈ n :: names, IsSimpleName x)
    (hnodup : (n :: names).Nodup) (hlength : names.length ≤ 199) :
    ∃ k, ofName n = .ok k ∧
      (∀ v, S ((n :: names).getLast (List.cons_ne_nil _ _)) = some v → ¬ v.IsKeyShaped →
        k.expand env registry sources none limit = pure (some v)) ∧
      (S ((n :: names).getLast (List.cons_ne_nil _ _)) = none →
        S (((n :: names).getLast (List.cons_ne_nil _ _)).push '_') = none →
        ((n :: names).IsChain (Hop S false) →
          k.expand env registry sources none limit = pure none) ∧
        ∀ before a b after, n :: names = before ++ a :: b :: after → Hop S true a b →
          (b :: after).IsChain (Hop S false) →
          ∃ kb, ofName b = .ok kb ∧
            k.expand env registry sources none limit = pure (some (.key kb))) := by
  have hlast := hsimple _ (List.getLast_mem (List.cons_ne_nil n names))
  have hbudget := callBudget_of_unbounded (ofField_limit n "") hlimit
  have hrun {r : Option Value}
      (hend : ∀ left chain, expandWithin ⟨env, sources ++ registry.sources⟩ (left + 1) chain
        (ofField ((n :: names).getLast (List.cons_ne_nil _ _)) "") none none = pure r) :
      (ofField n "").expand env registry sources none limit
        = pure (r.or ((lastLifted S (n :: names)).map Value.key)) := by
    rw [expand_eq, hbudget]
    exact expandWithin_chain hS hops hsimple hnodup (by simp) (by unfold nestingLimit; omega) hend
  refine ⟨ofField n "", ofName_of_simple (hsimple n (by simp)), ?_, ?_⟩
  · intro v hv hplain
    exact hrun (r := some v) fun left chain =>
      expandWithin_hit hS (ofField_isBare _ _) rfl (ofField_isNull _ _) (by simp)
        (by simpa [hlast.directName_eq] using hv) hplain
  · intro hdirect hindirect
    have hmiss := hrun (r := none) fun left chain => by
      rw [expandWithin_miss hS (ofField_isBare _ _) rfl (ofField_isNull _ _) (by simp)
        (by simpa [hlast.directName_eq] using hdirect)
        (by simpa [hlast.indirectName_eq] using hindirect),
        lastResort_ofField hlast.isIndirectName_eq_false]
    refine ⟨fun hall => ?_, fun before a b after hsplit hop hafter => ?_⟩
    · rw [hmiss, lastLifted_of_direct hall]
      rfl
    · refine ⟨ofField b "", ofName_of_simple (hsimple b (by simp [hsplit])), ?_⟩
      rw [hmiss, hsplit, lastLifted_of_split hop hafter]
      rfl

/-- A direct hop, then a lift to a name that is bound to nothing. -/
theorem expand_hopChain_lifted :
    let env : Surroundings := ⟨.ok, fun _ v => .ok v, {}⟩
    let sources := [Source.table [("a", .str "\x7bb\x7d"), ("b_", .str "c")]]
    let S := fun name => sources.findSome? (Source.answer? name)
    IsHopChain S ["a", "b", "c"] ∧ S "c" = none ∧ S "c_" = none ∧
      ∃ a c, ofName "a" = .ok a ∧ ofName "c" = .ok c ∧
        a.expand env {} sources none none = pure (some (.key c)) := by
  intro env sources S
  have hS : Sources.Answer (sources ++ Registry.sources {}) S :=
    Sources.answer_of_not_isStack sources (by simp [sources])
  have hab : Hop S false "a" "b" := .direct rfl
  have hbc : Hop S true "b" "c" := .lifted rfl rfl
  have hops : IsHopChain S ["a", "b", "c"] :=
    .cons_cons ⟨false, hab⟩ (.cons_cons ⟨true, hbc⟩ (.singleton "c"))
  have hsimple : ∀ x ∈ ["a", "b", "c"], IsSimpleName x := by decide
  have hlimit : ∀ l ∈ (none : Option Int), l < 0 := by simp
  obtain ⟨a, ha, -, hend⟩ := @expand_hopChain S env {} sources none "a" ["b", "c"] hS hlimit hops
    hsimple (by decide) (by decide)
  obtain ⟨c, hc, hexpand⟩ := (hend rfl rfl).2 ["a"] "b" "c" [] rfl hbc (.singleton "c")
  exact ⟨hops, rfl, rfl, a, c, ha, hc, hexpand⟩

end Key

end KeyExpansion
