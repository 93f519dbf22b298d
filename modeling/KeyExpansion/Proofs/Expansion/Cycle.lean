-- SUMMARY: Without a budget a cycle is reported for what it is, and nothing else is.
import KeyExpansion.Proofs.Expansion.Graph
import KeyExpansion.Proofs.Expansion.Invariant
import KeyExpansion.Proofs.Expansion.Steady
import KeyExpansion.Proofs.Key.Written

/-! # Cycles

The texts of the keys that are being expanded are a path in the graph of references.
The invariant carries that path along, through templates as well, whose keys are entered
without a look at it. An error that reports a cycle or too deep a nesting shows a path,
so where the graph has no such path there is no such error. -/

namespace KeyExpansion

open Relation (ReflTransGen)

variable {S : String → Option Value} {root : String}

/-- What an error shows of the graph of references. -/
def Error.Shows (S : String → Option Value) (root : String) : Error → Prop
  | .recursion key chain =>
    IsWalk S root chain ∧ chain.getLast? = some key ∧ key ∈ chain.dropLast
  | .recursionLimit _ _ => ∃ walk, IsWalk S root walk ∧ walk.length = nestingLimit + 1
  | _ => True

theorem Error.shows_of_isOfValue {e : Error} (h : e.IsOfValue) : e.Shows S root := by
  cases e with
  | recursion key chain => exact h.elim
  | recursionLimit key depth => exact h.elim
  | _ => trivial

namespace Key

/-- A written key is entered without a budget at the end of a path from the root. -/
structure EntersAlong (S : String → Option Value) (root : String) (left : Nat)
    (chain : List String) (k : Key) (budget : Budget) : Prop where
  written : k.IsWritten
  unbounded : budget = none
  levels : left + chain.length = nestingLimit
  walk : IsWalk S root (chain ++ [k.text])

/-- What is found in a table of texts are the references of the key. -/
theorem lookup_meets_refers {ctx : Context} {k : Key} {budget : Budget}
    (hS : Sources.Answer ctx.sources S) (hstr : ∀ name v, S name = some v → ∃ s, v = .str s)
    (hk : k.IsWritten) (hnull : k.isNull = false) (hparts : k.parts = none) :
    Expand.Meets (fun _ => True) (Error.Shows S root) (k.lookup ctx budget) fun r =>
      ∀ f ∈ r, MayFind (fun other => other.IsWritten ∧ Refers S k.text other.text) budget f := by
  have hname := hk.name hnull hparts
  have hdirect : k.direct = directName k.text := by simp [direct, isMulti, hparts]
  have hindirect : k.indirect = indirectName k.text := by simp [indirect, isMulti, hparts]
  rw [lookup_eq_found? hS (hk.plan _)]
  refine Expand.meets_pure fun f hf => ?_
  unfold found? at hf
  rw [hdirect, hindirect] at hf
  cases hd : S (directName k.text) with
  | some v =>
    obtain ⟨s, rfl⟩ := hstr _ _ hd
    obtain rfl : { value := .str s, budget } = f := by simpa [hd] using hf
    refine fun _ => ⟨rfl, fun other href => ?_⟩
    obtain ⟨hopen, hother, hnotNull⟩ := Value.reference?_str_eq_some.mp href
    exact ⟨isWritten_of_ofText hother, .direct hname hd hopen hother hnotNull⟩
  | none =>
    cases hi : S (indirectName k.text) with
    | none => simp [hd, hi] at hf
    | some v =>
      obtain ⟨s, rfl⟩ := hstr _ _ hi
      obtain rfl : Found.lift { value := .str s, budget } = f := by simpa [hd, hi] using hf
      refine fun _ => ⟨Found.lift_budget _, fun other href => ?_⟩
      obtain ⟨hother, hnotNull⟩ := Found.reference?_lift href
      exact ⟨isWritten_of_ofReference hother, .lifted hname hd hi hother hnotNull⟩

namespace EntersAlong

variable {left : Nat} {chain : List String} {k : Key} {budget : Budget}

/-- Levels run out at the end of a path that is longer than expansions may nest. -/
theorem limit (h : EntersAlong S root 0 chain k budget) :
    ∃ walk, IsWalk S root walk ∧ walk.length = nestingLimit + 1 := by
  refine ⟨chain ++ [k.text], h.walk, ?_⟩
  have hlevels := h.levels
  rw [List.length_append, List.length_singleton]
  omega

/-- Without a budget a written key is entered one step further along the path. -/
theorem step {other : Key} (h : EntersAlong S root (left + 1) chain k budget)
    (hother : other.IsWritten) (hrefers : Refers S k.text other.text) (hne : other.text ≠ k.text)
    {next : Budget} (hnext : next = none) :
    EntersAlong S root left (chain ++ [k.text]) other (next.within other) := by
  refine ⟨hother, ?_, ?_, h.walk.snoc hrefers hne.symm⟩
  · simp [hnext, Budget.within, Key.budget, hother.limit]
  · have hlevels := h.levels
    rw [List.length_append, List.length_singleton]
    omega

/-- The keys of a template are entered without a look at the path, which goes on to them
all the same: their names have no braces, and the template has. -/
theorem field {sub : Key} (h : EntersAlong S root (left + 1) chain k budget)
    (hsub : sub ∈ k.subkeys) :
    EntersAlong S root left (chain ++ [k.text]) sub (budget.within sub) := by
  obtain ⟨hmakes, hbrace, hfield⟩ := h.written.field sub hsub
  have hne : sub.text ≠ k.text := by
    intro heq
    rw [← heq, hfield.name] at hbrace
    cases hbrace
  exact h.step hfield.isWritten (.field hmakes hsub) hne h.unbounded

end EntersAlong

/-- Expansion without a budget walks along the graph of references. -/
def walking (ctx : Context) (hS : Sources.Answer ctx.sources S)
    (hstr : ∀ name v, S name = some v → ∃ s, v = .str s) (root : String) : Invariant ctx where
  memory _ := True
  error := Error.Shows S root
  enters := EntersAlong S root
  leads k other := other.IsWritten ∧ Refers S k.text other.text
  fresh _ _ := trivial
  value _ := Error.shows_of_isOfValue
  format _ _ _ := trivial
  slots _ _ _ _ := trivial
  coercion henter := henter.written.coercion
  lookup henter hactive hparts := lookup_meets_refers hS hstr henter.written hactive.1 hparts
  limit henter _ := henter.limit
  field henter _ := henter.field
  recursion henter _ _ hleads hne _ hback :=
    ⟨henter.walk.snoc hleads.2 hne.symm, List.getLast?_concat, by rwa [List.dropLast_concat]⟩
  follow henter _ _ hleads hne _ :=
    henter.step hleads.1 hleads.2 hne (by rw [henter.unbounded]; rfl)

/-- Reported cycles are cycles of the graph of references, reached from the key. Where
only texts that refer to themselves are on cycles, and no path is longer than expansions
may nest, neither a cycle nor too deep a nesting is reported. -/
theorem expand_reports_cycles {machine : Machine} {custom : String → Value → Except Error Value}
    {code : CodeTable} {registry : Registry} {sources : List Source} {fallback : Option Value}
    {limit : Option Int} {k : Key} (memory : Memory)
    (hS : Sources.Answer (sources ++ registry.sources) S)
    (hstr : ∀ name v, S name = some v → ∃ s, v = .str s)
    (hk : (∃ text, ofText text = .ok k) ∨ ∃ name, ofName name = .ok k)
    (hlimit : ∀ l ∈ limit, l < 0) :
    let env : Surroundings := ⟨machine.resolve, custom, code⟩
    let result := ((k.expand env registry sources fallback limit).runFrom memory).1
    (∀ key chain, result = .error (.recursion key chain) →
      chain.head? = some k.text ∧ chain.IsChain (Refers S) ∧ chain.getLast? = some key ∧
        key ∈ chain.dropLast) ∧
    ((∀ s t, ReflTransGen (Refers S) k.text s → Refers S s t → ReflTransGen (Refers S) t s → s = t) →
      (∀ walk, IsWalk S k.text walk → walk.length ≤ 200) →
      (∀ key chain, result ≠ .error (.recursion key chain)) ∧
      ∀ key depth, result ≠ .error (.recursionLimit key depth)) := by
  intro env result
  have hwritten : k.IsWritten := by
    rcases hk with ⟨text, hk⟩ | ⟨name, hk⟩
    · exact isWritten_of_ofText hk
    · exact isWritten_of_ofName hk
  have hmeets : Expand.Meets (fun _ => True) (Error.Shows S k.text)
      (k.expand env registry sources fallback limit) fun _ => True := by
    rw [expand_eq, callBudget_of_unbounded hwritten.limit hlimit]
    exact (walking ⟨env, sources ++ registry.sources⟩ hS hstr k.text).expandWithin_meets
      (fun _ _ => machine.resolve_failsByIo) ⟨hwritten, rfl, rfl, .single⟩ fallback
  have hshows {e : Error} (h : result = .error e) : e.Shows S k.text := hmeets.of_error trivial h
  refine ⟨fun key chain h => ?_, fun hcycles hwalks => ⟨fun key chain h => ?_, fun key depth h => ?_⟩⟩
  · obtain ⟨hwalk, hlast, hmem⟩ := hshows h
    exact ⟨hwalk.head, hwalk.refers, hlast, hmem⟩
  · obtain ⟨hwalk, hlast, hmem⟩ := hshows h
    obtain ⟨t, hreach, hrefers, hback, hne⟩ := hwalk.exists_cycle hlast hmem
    exact hne (hcycles key t hreach hrefers hback)
  · obtain ⟨walk, hwalk, hlength⟩ := hshows h
    have hbound := hwalks walk hwalk
    rw [hlength, nestingLimit] at hbound
    omega

/-- A text without braces makes a key without fields. -/
theorem subkeys_of_not_hasBrace {text : String} {k : Key} (hfree : hasBrace text = false)
    (h : ofText text = .ok k) : k.subkeys = [] := by
  cases fromText_of_makeText h with
  | forced force => cases force
  | bare asked => simp at asked
  | plain makes => exact subkeys_of_makeNull makes
  | field _ _ _ makes => simp [subkeys, parts_of_makeSingle makes]
  | template reads field =>
    obtain ⟨p, hp, hlit⟩ := field
    simp [Template.hasBrace_of_field reads hp hlit] at hfree

/-- A name that is bound to itself in braces refers to nothing else. -/
theorem eq_of_refers_of_self {name t : String} (hname : IsSimpleName name)
    (hself : S name = some (.str (inBraces name))) (h : Refers S name t) : t = name := by
  have hdirect : S (directName name) = some (.str (inBraces name)) := by rwa [hname.directName_eq]
  cases h with
  | direct _ hbound _ hnames =>
    obtain rfl := Value.str.inj (Option.some.inj (hdirect.symm.trans hbound))
    rw [ofText_inBraces_of_simple hname] at hnames
    obtain rfl := Except.ok.inj hnames
    rfl
  | lifted _ hunbound => cases hdirect.symm.trans hunbound
  | field hmakes hmem =>
    rw [subkeys_of_not_hasBrace (Template.hasBrace_eq_false.mpr hname.isBraceFree) hmakes] at hmem
    cases hmem

/-- Two names that lead to each other are reported, one that leads to itself is not. -/
theorem expand_reports_cycles_of_names :
    let env : Surroundings := ⟨Machine.resolve default, fun _ v => .ok v, {}⟩
    let pair := [Source.table [("a", .str "\x7bb\x7d"), ("b", .str "\x7ba\x7d")]]
    let alone := [Source.table [("a", .str "\x7ba\x7d")]]
    ∃ k, ofName "a" = .ok k ∧
      ((k.expand env {} pair none none).runFrom {}).1 = .error (.recursion "a" ["a", "b", "a"]) ∧
      ["a", "b", "a"].IsChain (Refers fun name => pair.findSome? (Source.answer? name)) ∧
      ∀ key chain,
        ((k.expand env {} alone none none).runFrom {}).1 ≠ .error (.recursion key chain) := by
  intro env pair alone
  have ha : IsSimpleName "a" := by decide
  have hS (entries : List (String × Value)) : Sources.Answer ([.table entries] ++ Registry.sources {})
      fun name => [Source.table entries].findSome? (Source.answer? name) :=
    Sources.answer_of_not_isStack _ (by simp [Registry.sources])
  have hstr {entries : List (String × Value)} (h : ∀ e ∈ entries, ∃ s, e.2 = .str s) (name : String)
      (v : Value) (hv : [Source.table entries].findSome? (Source.answer? name) = some v) :
      ∃ s, v = .str s := by
    obtain ⟨source, hsource, hv⟩ := List.exists_of_findSome?_eq_some hv
    rw [List.mem_singleton.mp hsource] at hv
    obtain ⟨before, after, rfl, -⟩ := List.lookup_eq_some_iff.mp hv
    exact h (name, v) (by simp)
  refine ⟨ofField "a" "", ofName_of_simple ha, ?_⟩
  have hpair : (((ofField "a" "").expand env {} pair none none).runFrom {}).1
      = .error (.recursion "a" ["a", "b", "a"]) := rfl
  refine ⟨hpair, ?_, ?_⟩
  · exact ((expand_reports_cycles {} (hS _) (hstr (by simp)) (.inr ⟨"a", ofName_of_simple ha⟩)
      (by simp)).1 _ _ hpair).2.1
  · have hself (t : String) (h : Refers (fun name => alone.findSome? (Source.answer? name)) "a" t) :
        t = "a" :=
      eq_of_refers_of_self ha rfl h
    refine ((expand_reports_cycles {} (hS _) (hstr (by simp)) (.inr ⟨"a", ofName_of_simple ha⟩)
      (by simp)).2 ?_ ?_).1
    · intro s t hs hst _
      obtain rfl := eq_of_reflTransGen_refers hself hs
      exact (hself t hst).symm
    · intro walk hwalk
      exact (hwalk.length_le_one hself).trans (by decide)

end Key

end KeyExpansion
