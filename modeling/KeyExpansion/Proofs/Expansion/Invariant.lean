-- SUMMARY: What holds of every key that is entered holds of the errors of an expansion.
import KeyExpansion.Proofs.Expansion.Call
import KeyExpansion.Proofs.Expansion.Settle

/-! # Invariants of expansions

An expansion enters keys: a template enters the keys of its fields, and a single key the
key that it leads to. An `Invariant` says what holds of every key that is entered and
which errors may come out. It is shown for one level, by what finding and following do,
and carried over all levels by induction on the levels left. -/

namespace KeyExpansion.Key

open Expand
open KeyExpansion.Except (FailsOnly)

/-- Is the key expanded at all, and not given back as it is? -/
def IsActive (k : Key) (budget : Budget) : Prop :=
  k.isNull = false ∧ budget ≠ some 0

theorem expandWithin_of_not_isActive {ctx : Context} {left : Nat} {chain : List String} {k : Key}
    {fallback : Option Value} {budget : Budget} (h : ¬ k.IsActive budget) :
    ∃ value, expandWithin ctx left chain k fallback budget = pure (some value) := by
  cases hnull : k.isNull with
  | true => exact ⟨_, expandWithin_null hnull⟩
  | false =>
    obtain rfl : budget = some 0 := by
      by_contra hbudget
      exact h ⟨hnull, hbudget⟩
    exact ⟨_, expandWithin_spent hnull⟩

/-- What may be found for a key that leads on to keys with `L`. -/
def MayFind (L : Key → Prop) (budget : Budget) (f : Found) : Prop :=
  f.literal = false → f.budget = budget ∧ ∀ other, f.value.reference? = some other → L other

/-- What is kept all along an expansion. -/
structure Invariant (ctx : Context) where
  memory : Memory → Prop
  error : Error → Prop
  /-- Which keys are entered, with how many levels left, below which keys, and on which budget. -/
  enters : Nat → List String → Key → Budget → Prop
  /-- Which keys a single key may lead to. -/
  leads : Key → Key → Prop
  fresh : ∀ m, memory m → memory m.fresh.2
  value : ∀ e, e.IsOfValue → error e
  /-- The errors of writing the keys of a template, and of filling its slots. -/
  format : ∀ {left chain k budget sub fault}, enters (left + 1) chain k budget →
    sub ∈ k.subkeys → Format.parse sub.format = .error fault →
    error (.malformedFormat sub.format fault)
  slots : ∀ {left chain k budget parts texts fault}, enters (left + 1) chain k budget →
    k.parts = some parts → texts.length = parts.subkeys.length →
    Template.fill parts.slots texts = .error fault → error (.malformedTemplate parts.slots fault)
  coercion : ∀ {left chain k budget}, enters left chain k budget → ¬ k.coercion.IsCustom
  lookup : ∀ {left chain k budget}, enters left chain k budget → k.IsActive budget →
    k.parts = none →
    Meets memory error (k.lookup ctx budget) fun r => ∀ f ∈ r, MayFind (leads k) budget f
  limit : ∀ {chain k budget}, enters 0 chain k budget → k.IsActive budget →
    error (.recursionLimit k.text nestingLimit)
  field : ∀ {left chain k budget sub}, enters (left + 1) chain k budget →
    k.IsActive budget → sub ∈ k.subkeys → enters left (chain ++ [k.text]) sub (budget.within sub)
  recursion : ∀ {left chain k budget other}, enters (left + 1) chain k budget →
    k.IsActive budget → k.parts = none → leads k other → other.text ≠ k.text →
    budget.spend = none → other.text ∈ chain ++ [k.text] →
    error (.recursion other.text (chain ++ [k.text] ++ [other.text]))
  follow : ∀ {left chain k budget other}, enters (left + 1) chain k budget →
    k.IsActive budget → k.parts = none → leads k other → other.text ≠ k.text →
    budget.spend ≠ some 0 → enters left (chain ++ [k.text]) other (budget.spend.within other)

namespace Invariant

variable {ctx : Context} (v : Invariant ctx) {left : Nat} {chain : List String} {k : Key}
  {budget : Budget} {next : Next}

/-! ## One level -/

/-- Following enters the key that was found, unless it leads back. -/
theorem follow_meets (henter : v.enters (left + 1) chain k budget) (hactive : k.IsActive budget)
    (hparts : k.parts = none)
    (hnext : ∀ other b, v.enters left (chain ++ [k.text]) other b →
      Meets v.memory v.error (next other b) fun _ => True)
    {f : Found} (hf : MayFind (v.leads k) budget f) :
    Meets v.memory v.error (Key.follow next (chain ++ [k.text]) k f) fun _ => True := by
  cases hlit : f.literal with
  | true =>
    rw [follow_literal hlit]
    exact meets_pure trivial
  | false =>
    obtain ⟨rfl, hleads⟩ := hf hlit
    cases href : f.value.reference? with
    | none =>
      rw [follow_plain hlit href]
      exact meets_pure trivial
    | some other =>
      have hother := hleads other href
      by_cases hspend : f.budget.spend = some 0
      · rw [follow_spent hlit href hspend]
        exact meets_pure trivial
      · cases hsame : other.same k with
        | true =>
          rw [follow_same hlit href hspend hsame]
          exact meets_pure trivial
        | false =>
          have hne : other.text ≠ k.text := by simpa [same] using hsame
          by_cases hback : f.budget.spend = none ∧ other.text ∈ chain ++ [k.text]
          · rw [follow_back hlit href hsame hback.1 hback.2]
            exact meets_throw (v.recursion henter hactive hparts hother hne hback.1 hback.2)
          · rw [follow_next hlit href hspend hsame fun hnone hmem => hback ⟨hnone, hmem⟩]
            refine (hnext other _ (v.follow henter hactive hparts hother hne hspend)).bind ?_
            exact fun _ _ => meets_pure trivial

/-- Rendering enters each key, and gives one text for each. -/
theorem renderAll_meets (henter : v.enters (left + 1) chain k budget) {ks : List Key}
    (hks : ∀ sub ∈ ks, sub ∈ k.subkeys)
    (hnext : ∀ sub ∈ ks, Meets v.memory v.error (next sub (budget.within sub)) fun _ => True) :
    Meets v.memory v.error (renderAll next budget ks) fun r =>
      ∀ texts ∈ r, texts.length = ks.length := by
  induction ks with
  | nil => exact meets_pure (by simp)
  | cons sub ks ih =>
    refine (hnext sub (by simp)).bind fun r _ => ?_
    cases r with
    | none => exact meets_pure (by simp)
    | some value =>
      simp only
      split
      · rename_i hfault
        exact meets_throw (v.format henter (hks sub (by simp)) hfault)
      · have hrest := ih (fun other hother => hks other (List.mem_cons_of_mem _ hother))
          fun other hother => hnext other (List.mem_cons_of_mem _ hother)
        refine hrest.bind fun r hr => meets_pure fun texts htexts => ?_
        obtain ⟨texts, hmem, rfl⟩ := Option.map_eq_some_iff.mp htexts
        rw [List.length_cons, List.length_cons, hr texts hmem]

/-- A template enters the keys of its fields. -/
theorem expandParts_meets (henter : v.enters (left + 1) chain k budget) {parts : Parts}
    (hparts : k.parts = some parts)
    (hnext : ∀ sub ∈ k.subkeys,
      Meets v.memory v.error (next sub (budget.within sub)) fun _ => True) :
    Meets v.memory v.error (expandParts next parts budget) fun _ => True := by
  have hsubkeys : k.subkeys = parts.subkeys := by simp [subkeys, hparts]
  unfold expandParts
  split
  · rename_i sub hsub _
    exact (hnext sub (by simp [hsubkeys, hsub])).bind fun _ _ => meets_pure trivial
  · rw [← hsubkeys]
    refine (v.renderAll_meets henter (fun _ => id) hnext).bind fun r hr => ?_
    cases r with
    | none => exact meets_pure trivial
    | some texts =>
      have hlength : texts.length = parts.subkeys.length := hsubkeys ▸ hr texts rfl
      simp only
      split
      · exact meets_pure trivial
      · rename_i hfault
        exact meets_throw (v.slots henter hparts hlength hfault)

theorem find_meets (henter : v.enters (left + 1) chain k budget) (hactive : k.IsActive budget)
    (hnext : ∀ other b, v.enters left (chain ++ [k.text]) other b →
      Meets v.memory v.error (next other b) fun _ => True) :
    Meets v.memory v.error (find ctx next (chain ++ [k.text]) k budget) fun _ => True := by
  unfold find
  cases hparts : k.parts with
  | some parts =>
    refine v.expandParts_meets henter hparts fun sub hsub => hnext sub _ ?_
    exact v.field henter hactive hsub
  | none =>
    refine (v.lookup henter hactive hparts).bind fun r hr => ?_
    cases r with
    | none => exact meets_pure trivial
    | some f => exact v.follow_meets henter hactive hparts hnext (hr f rfl)

/-! ## All levels -/

theorem expandWithin_meets (henv : ctx.env.FailsByIo) (henter : v.enters left chain k budget)
    (fallback : Option Value) :
    Meets v.memory v.error (expandWithin ctx left chain k fallback budget) fun _ => True := by
  induction left generalizing chain k budget fallback with
  | zero =>
    by_cases hactive : k.IsActive budget
    · rw [expandWithin_zero hactive.1 hactive.2]
      exact meets_throw (v.limit henter hactive)
    · obtain ⟨value, heq⟩ := expandWithin_of_not_isActive hactive
      rw [heq]
      exact meets_pure trivial
  | succ left ih =>
    by_cases hactive : k.IsActive budget
    · rw [expandWithin_succ hactive.1 hactive.2]
      refine (v.find_meets henter hactive fun other b h => ih h none).bind fun r _ => ?_
      cases r with
      | none => exact meets_pure trivial
      | some f =>
        have hresolve (p : Path) : FailsOnly v.error (ctx.env.resolve p) :=
          fun e he => v.value e (henv.failsOnly p e he)
        have hcustom (name : String) (w : Value) (hname : k.coercion = .custom name) :
            FailsOnly v.error (ctx.env.custom name w) :=
          absurd (hname ▸ trivial) (v.coercion henter)
        have hsettle := settle_meets v.value hresolve v.fresh hcustom f
        exact hsettle.bind fun _ _ => meets_pure trivial
    · obtain ⟨value, heq⟩ := expandWithin_of_not_isActive hactive
      rw [heq]
      exact meets_pure trivial

end Invariant

end KeyExpansion.Key
