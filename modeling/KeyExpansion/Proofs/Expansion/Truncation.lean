-- SUMMARY: A limit stops a chain of references at the very reference that it runs out at.
import KeyExpansion.Proofs.Expansion.Chain

/-! # Chains under a limit

A limit that a chain does not use up changes nothing. One that it does leaves the
reference that the last lookup found as it is, and no level above reads it again. -/

namespace KeyExpansion

namespace Key

variable {ctx : Context} {S : String → Option Value}

/-! ## Keys with a limit of their own -/

/-- The free key of a bare name, with a limit of its own. -/
def ofLimited (own : Option Int) (name : String) : Key :=
  { ofField name "" with limit := own }

theorem makeText_limited {own : Option Int} {name : String} (h : IsSimpleName name) :
    makeText { implicit := true, limit := own } name = .ok (ofLimited own name) := by
  rw [makeText_of_simple h rfl rfl (by simp)]
  exact makeSingle_eq_ok.mpr ⟨none, rfl, by simp, rfl, rfl⟩

theorem ofLimited_isBare (own : Option Int) (name : String) : (ofLimited own name).IsBare :=
  have h := ofField_isBare name ""
  ⟨h.coercion, h.conversion, h.check, h.conduct⟩

/-- Under a budget the limit of the key itself plays no part, and the fallback of the call
comes last. -/
theorem expandWithin_ofLimited {left : Nat} {chain : List String} {own : Option Int} {name : String}
    {fallback : Option Value} {budget : Budget} (h : IsSimpleName name) (hbudget : budget ≠ some 0) :
    expandWithin ctx left chain (ofLimited own name) fallback budget = (do
      return (← expandWithin ctx left chain (ofField name "") none budget).or fallback) := by
  have hnull : (ofLimited own name).isNull = false := ofField_isNull name ""
  cases left with
  | zero =>
    rw [expandWithin_zero hnull hbudget, expandWithin_zero (ofField_isNull name "") hbudget]
    rfl
  | succ left =>
    have hstandard : (ofLimited own name).family.conduct = .standard := by
      simp only [ofLimited, ofField, h.isIndirectName_eq_false, Bool.false_eq_true, if_false]
      rfl
    have hlast : (ofLimited own name).lastResort fallback = fallback :=
      lastResort_of_standard rfl hstandard fallback
    rw [expandWithin_succ hnull hbudget, expandWithin_succ (ofField_isNull name "") hbudget, hlast,
      lastResort_ofField h.isIndirectName_eq_false]
    simp only [bind_assoc]
    refine bind_congr fun r => ?_
    cases r with
    | none => simp
    | some f => simp [(ofLimited_isBare own name).settle_eq, (ofField_isBare name "").settle_eq]

/-- A limit of the call wins over that of the key. -/
theorem callBudget_ofLimited {limit own : Option Int} {l : Nat} (name : String)
    (h : limit.or own = some (l : Int)) : (ofLimited own name).callBudget limit = some l := by
  have hbudget : Budget.ofLimit (l : Int) = some l := by
    rw [Budget.ofLimit, if_neg (by omega), Int.toNat_natCast]
  cases limit with
  | some given =>
    rw [Option.some_or] at h
    rw [callBudget, Option.some.inj h, hbudget]
  | none =>
    rw [Option.none_or] at h
    rw [callBudget, Key.budget, ofLimited, h, Option.bind_some, hbudget]

/-- A call on a key of a bare name is an expansion of the name under the budget of the call. -/
theorem expand_ofLimited {env : Surroundings} {registry : Registry} {sources : List Source}
    {fallback : Option Value} {limit own : Option Int} {name : String} {budget : Budget}
    (h : IsSimpleName name) (hcall : (ofLimited own name).callBudget limit = budget)
    (hbudget : budget ≠ some 0) :
    (ofLimited own name).expand env registry sources fallback limit = (do
      return (← expandWithin ⟨env, sources ++ registry.sources⟩ nestingLimit [] (ofField name "") none
        budget).or fallback) := by
  rw [expand_eq, hcall]
  exact expandWithin_ofLimited h hbudget

/-! ## Where the limit runs out -/

/-- With one reference left, what is found is not followed. -/
theorem expandWithin_hop_last {left : Nat} {chain : List String} {lifted : Bool} {n m : String}
    (hS : Sources.Answer ctx.sources S) (hn : IsSimpleName n) (hm : IsSimpleName m)
    (hop : Hop S lifted n m) :
    expandWithin ctx (left + 1) chain (ofField n "") none (some 1)
      = pure (some (hopValue lifted m)) := by
  have hbare := ofField_isBare n ""
  rw [expandWithin_succ (ofField_isNull n "") (by simp),
    find_single hS (ofField_parts n "") (hbare.plan_eq _), found?_hop hn hm hop]
  simp only
  rw [follow_spent rfl (reference?_hopFound hm) rfl, pure_bind]
  simp [hbare.settle_eq, hopFound, Found.finish]

/-- A chain that outlasts its budget expands to the reference that the budget runs out at. -/
theorem expandWithin_chain_of_spent {left l : Nat} {chain names : List String} {n a b : String}
    {lifted : Bool} (hS : Sources.Answer ctx.sources S) (hops : IsHopChain S (n :: names))
    (hsimple : ∀ x ∈ n :: names, IsSimpleName x) (hnodup : (n :: names).Nodup) (hleft : l < left)
    (ha : (n :: names)[l]? = some a) (hb : (n :: names)[l + 1]? = some b) (hop : Hop S lifted a b) :
    expandWithin ctx left chain (ofField n "") none (some (l + 1))
      = pure (some (hopValue lifted b)) := by
  obtain ⟨left, rfl⟩ := Nat.exists_eq_succ_of_ne_zero (Nat.ne_of_gt (Nat.zero_lt_of_lt hleft))
  induction l generalizing n names left chain with
  | zero =>
    obtain rfl : n = a := by simpa using ha
    exact expandWithin_hop_last hS (hsimple n (by simp)) (hsimple b (List.mem_of_getElem? hb)) hop
  | succ l ih =>
    obtain ⟨left, rfl⟩ := Nat.exists_eq_succ_of_ne_zero (n := left) (by omega)
    cases names with
    | nil => simp at ha
    | cons m names =>
      obtain ⟨⟨first, hfirst⟩, hrest⟩ := List.isChain_cons_cons.mp hops
      obtain ⟨hnotin, hnodup'⟩ := List.nodup_cons.mp hnodup
      have hne : m ≠ n := fun h => hnotin (by simp [h])
      have hspend : Budget.spend (some (l + 1 + 1)) = some (l + 1) := rfl
      rw [expandWithin_hop hS (hsimple n (by simp)) (hsimple m (by simp)) hfirst hne (by simp)
        (by simp [hspend]) (by simp [hspend]), hspend,
        ih hrest (fun x hx => hsimple x (List.mem_cons_of_mem _ hx)) hnodup' (by simpa using ha)
          (by simpa using hb) left (by omega)]
      rfl

/-- Something is left of a budget that lasts. -/
theorem left_ne_zero {budget : Budget} {spent : Nat} (h : ∀ b ∈ budget, spent < b) :
    budget.map (· - spent) ≠ some 0 := by
  intro hzero
  obtain ⟨b, hb, hleft⟩ := Option.map_eq_some_iff.mp hzero
  have := h b hb
  omega

/-- Under any budget a name expands to the value that it is bound to, if that names no key,
and to nothing if it is bound under neither form. -/
theorem exists_expandWithin_end {name : String} (hS : Sources.Answer ctx.sources S)
    (hname : IsSimpleName name)
    (hend : (∃ v, S name = some v ∧ ¬ v.IsKeyShaped) ∨ S name = none ∧ S (name.push '_') = none) :
    ∃ r, ∀ left chain budget, budget ≠ some 0 →
      expandWithin ctx (left + 1) chain (ofField name "") none budget = pure r := by
  have hbare := ofField_isBare name ""
  rcases hend with ⟨v, hv, hplain⟩ | ⟨hdirect, hindirect⟩
  · refine ⟨some v, fun left chain budget hbudget => ?_⟩
    exact expandWithin_hit hS hbare rfl (ofField_isNull _ _) hbudget
      (by simpa [hname.directName_eq] using hv) hplain
  · refine ⟨none, fun left chain budget hbudget => ?_⟩
    rw [expandWithin_miss hS hbare rfl (ofField_isNull _ _) hbudget
      (by simpa [hname.directName_eq] using hdirect)
      (by simpa [hname.indirectName_eq] using hindirect),
      lastResort_ofField hname.isIndirectName_eq_false]

/-- A limit cuts a chain exactly: one that the chain does not use up is no limit, and any
other leaves the reference that it runs out at, as the source or the lift gave it. -/
theorem expand_hopChain_limited {env : Surroundings} {registry : Registry} {sources : List Source}
    {fallback : Option Value} {limit own : Option Int} {l : Nat} {n : String} {names : List String}
    (hS : Sources.Answer (sources ++ registry.sources) S)
    (hlimit : limit.or own = some (l : Int)) (hl : 1 ≤ l)
    (hops : IsHopChain S (n :: names)) (hsimple : ∀ x ∈ n :: names, IsSimpleName x)
    (hnodup : (n :: names).Nodup) (hlength : names.length ≤ 199)
    (hend : (∃ v, S ((n :: names).getLast (List.cons_ne_nil _ _)) = some v ∧ ¬ v.IsKeyShaped) ∨
      S ((n :: names).getLast (List.cons_ne_nil _ _)) = none ∧
        S (((n :: names).getLast (List.cons_ne_nil _ _)).push '_') = none) :
    ∃ k unlimited, makeText { implicit := true, limit := own } n = .ok k ∧ ofName n = .ok unlimited ∧
      (names.length < l → k.expand env registry sources fallback limit
        = unlimited.expand env registry sources fallback none) ∧
      ∀ a b lifted, (n :: names)[l - 1]? = some a → (n :: names)[l]? = some b → Hop S lifted a b →
        ∃ kb, ofName b = .ok kb ∧ k.expand env registry sources fallback limit
          = pure (some (if lifted then .key kb else .str (inBraces b))) := by
  have hn := hsimple n (by simp)
  have hlast := hsimple _ (List.getLast_mem (List.cons_ne_nil n names))
  have hctx : Sources.Answer (Context.mk env (sources ++ registry.sources)).sources S := hS
  have hbudget : some l ≠ some 0 := by simpa using Nat.ne_of_gt hl
  have hlimited : (ofLimited own n).expand env registry sources fallback limit = _ :=
    expand_ofLimited hn (callBudget_ofLimited n hlimit) hbudget
  refine ⟨ofLimited own n, ofLimited none n, makeText_limited hn, ofName_of_simple hn, ?_, ?_⟩
  · intro hshort
    have hunlimited : (ofLimited none n).expand env registry sources fallback none = _ :=
      expand_ofLimited hn (callBudget_of_unbounded rfl (by simp)) (by simp)
    obtain ⟨r, hr⟩ := exists_expandWithin_end hctx hlast hend
    have hwithin {budget : Budget} (hlasts : ∀ b ∈ budget, names.length < b) :
        expandWithin ⟨env, sources ++ registry.sources⟩ nestingLimit [] (ofField n "") none budget
          = pure (r.or ((lastLifted S (n :: names)).map Value.key)) :=
      expandWithin_chain_of_lasting hctx hops hsimple hnodup (by simp)
        (by unfold nestingLimit; omega) hlasts fun left chain => hr left chain _ (left_ne_zero hlasts)
    rw [hlimited, hunlimited, hwithin (by simpa using hshort), hwithin (by simp)]
  · intro a b lifted ha hb hop
    obtain ⟨l, rfl⟩ := Nat.exists_eq_succ_of_ne_zero (Nat.ne_of_gt hl)
    obtain ⟨hlt, -⟩ := List.getElem?_eq_some_iff.mp hb
    have hleft : l < nestingLimit := by
      simp only [List.length_cons] at hlt
      unfold nestingLimit
      omega
    refine ⟨ofField b "", ofName_of_simple (hsimple b (List.mem_of_getElem? hb)), ?_⟩
    rw [hlimited, Nat.succ_eq_add_one,
      expandWithin_chain_of_spent hctx hops hsimple hnodup hleft ha hb hop]
    rfl

/-- The limit of the key ends at a lift. Limits of calls end at a direct hop before it, or
nowhere. -/
theorem expand_hopChain_limited_lift :
    let env : Surroundings := ⟨.ok, fun _ v => .ok v, {}⟩
    let sources := [Source.table [("a", .str "\x7bb\x7d"), ("b_", .str "c"), ("c", .bool true)]]
    ∃ k unlimited c, makeText { implicit := true, limit := some 2 } "a" = .ok k ∧
      ofName "a" = .ok unlimited ∧ ofName "c" = .ok c ∧
      k.expand env {} sources none none = pure (some (.key c)) ∧
      k.expand env {} sources none (some 1) = pure (some (.str "\x7bb\x7d")) ∧
      k.expand env {} sources none (some 3) = unlimited.expand env {} sources none none := by
  intro env sources
  let S := fun name => sources.findSome? (Source.answer? name)
  have hS : Sources.Answer (sources ++ Registry.sources {}) S :=
    Sources.answer_of_not_isStack sources (by simp [sources])
  have hab : Hop S false "a" "b" := .direct rfl
  have hbc : Hop S true "b" "c" := .lifted rfl rfl
  have hops : IsHopChain S ["a", "b", "c"] :=
    .cons_cons ⟨false, hab⟩ (.cons_cons ⟨true, hbc⟩ (.singleton "c"))
  have hsimple : ∀ x ∈ ["a", "b", "c"], IsSimpleName x := by decide
  have hlimited (limit : Option Int) (l : Nat) (hlimit : limit.or (some 2) = some (l : Int))
      (hl : 1 ≤ l) :=
    @expand_hopChain_limited S env {} sources none limit (some 2) l "a" ["b", "c"] hS hlimit hl hops
      hsimple (by decide) (by decide) (.inl ⟨.bool true, rfl, id⟩)
  obtain ⟨k, unlimited, hk, hunlimited, -, htwo⟩ := hlimited none 2 rfl (by decide)
  obtain ⟨k₁, _, hk₁, -, -, hone⟩ := hlimited (some 1) 1 rfl (by decide)
  obtain ⟨k₃, unlimited₃, hk₃, hunlimited₃, hthree, -⟩ := hlimited (some 3) 3 rfl (by decide)
  obtain rfl : k = k₁ := Except.ok.inj (hk.symm.trans hk₁)
  obtain rfl : k = k₃ := Except.ok.inj (hk.symm.trans hk₃)
  obtain rfl : unlimited = unlimited₃ := Except.ok.inj (hunlimited.symm.trans hunlimited₃)
  obtain ⟨c, hc, hlift⟩ := htwo "b" "c" true rfl rfl hbc
  obtain ⟨_, -, hdirect⟩ := hone "a" "b" false rfl rfl hab
  exact ⟨k, unlimited, c, hk, hunlimited, hc, hlift, hdirect, hthree (by decide)⟩

end Key

end KeyExpansion
