-- SUMMARY: Expansion over sources that asking does not change.
import KeyExpansion.Proofs.Expansion.Call
import KeyExpansion.Proofs.Expansion.Effect
import KeyExpansion.Proofs.Expansion.Reference
import KeyExpansion.Proofs.Key.Single

/-! # Sources that asking does not change

Sources without stacks answer as a table does, and asking them leaves the memory alone.
Over such sources each step of an expansion is an equation: what a key finds is read
off the table, and what is done to it follows from the key. -/

namespace KeyExpansion

namespace Sources

/-- Asking the sources changes nothing, and they answer as the table `S` says. -/
def Answer (sources : List Source) (S : String → Option Value) : Prop :=
  ∀ name, find name sources = pure (S name)

end Sources

namespace Source

/-- The answer of a source that is no stack. -/
def answer? (name : String) : Source → Option Value
  | .steady answer _ => answer name
  | .stack _ => none

def isStack : Source → Bool
  | .steady _ _ => false
  | .stack _ => true

@[simp] theorem isStack_table (entries : List (String × Value)) : (table entries).isStack = false :=
  rfl

theorem lookup_of_not_isStack {s : Source} (h : s.isStack = false) (name : String) :
    s.lookup name = pure (s.answer? name) := by
  cases s with
  | steady answer given => rfl
  | stack slot => cases h

end Source

namespace Sources

/-- Sources that give their answers without an effect are asked without one, and the first
answer counts. -/
theorem find_eq_pure {name : String} {sources : List Source} {a : Source → Option Value}
    (h : ∀ s ∈ sources, s.lookup name = pure (a s)) :
    find name sources = pure (sources.findSome? a) := by
  induction sources with
  | nil => rfl
  | cons s sources ih =>
    rw [find, h s (by simp), pure_bind, List.findSome?_cons]
    cases a s with
    | some v => rfl
    | none => exact ih fun other hother => h other (List.mem_cons_of_mem _ hother)

/-- Sources without stacks answer as a table. -/
theorem answer_of_not_isStack (sources : List Source) (h : ∀ s ∈ sources, s.isStack = false) :
    Answer sources fun name => sources.findSome? (Source.answer? name) :=
  fun name => find_eq_pure fun s hs => Source.lookup_of_not_isStack (h s hs) name

end Sources

/-! ## What is found -/

namespace Key

variable {ctx : Context} {S : String → Option Value} {next : Next} {chain : List String}
  {k : Key} {budget : Budget}

/-- What a key finds in a table: the value of its direct name, or else that of its
indirect name, taken as a key. -/
def found? (S : String → Option Value) (k : Key) (budget : Budget) : Option Found :=
  match S k.direct with
  | some v => some { value := v, budget }
  | none => (S k.indirect).map fun v => Found.lift { value := v, budget }

theorem lookup_eq_found? (hS : Sources.Answer ctx.sources S)
    (hplan : k.family.conduct.plan k ctx.sources = .targets [⟨k.direct, false⟩, ⟨k.indirect, true⟩]) :
    k.lookup ctx budget = pure (k.found? S budget) := by
  have hfind (name : String) :
      (liftM (Sources.find name ctx.sources) : Expand (Option Value)) = pure (S name) := by
    rw [hS name, Expand.liftM_pure]
  unfold lookup found?
  rw [hplan]
  simp only [lookupTargets, hfind, pure_bind]
  cases S k.direct with
  | some v => rfl
  | none =>
    cases S k.indirect with
    | some v => rfl
    | none => rfl

theorem find_single (hS : Sources.Answer ctx.sources S) (hparts : k.parts = none)
    (hplan : k.family.conduct.plan k ctx.sources = .targets [⟨k.direct, false⟩, ⟨k.indirect, true⟩]) :
    find ctx next chain k budget
      = (match k.found? S budget with
        | some f => follow next chain k f
        | none => pure none) := by
  rw [find_of_parts_none hparts, lookup_eq_found? hS hplan]
  exact pure_bind _ _

/-! ## Keys that ask for nothing but a value -/

namespace IsBare

variable (h : k.IsBare)
include h

theorem plan_eq (sources : List Source) :
    k.family.conduct.plan k sources = .targets [⟨k.direct, false⟩, ⟨k.indirect, true⟩] := by
  rcases h.conduct with hc | hc <;> rw [hc] <;> rfl

/-- What such a key finds is its value. -/
theorem settle_eq (env : Surroundings) (f : Found) : settle env k f = pure (some f.value) := by
  have hcoerce : k.coerce env f = pure (some f) := by
    unfold coerce
    split
    · rfl
    · simp [h.conversion, h.coercion, Coercion.accepts, Coercion.target?]
  have hfinal : k.family.conduct.finalize env f.value = .ok f.value := by
    rcases h.conduct with hc | hc <;> rw [hc] <;> rfl
  have hverify : k.verify f.value = .ok () := by
    simp [verify, h.check]
  unfold settle
  rw [hcoerce, pure_bind]
  simp only
  split
  · rfl
  · rw [hfinal, Expand.liftM_ok, pure_bind, hverify]
    rfl

end IsBare

/-- A key without a fallback has only that of the call, unless its family has one. -/
theorem lastResort_of_standard (hfallback : k.fallback = none)
    (hconduct : k.family.conduct = .standard) (fallback : Option Value) :
    k.lastResort fallback = fallback := by
  simp [lastResort, fallback?, hfallback, hconduct, Conduct.fallback?]

theorem lastResort_ofField {name format : String} (h : isIndirectName name.toList = false)
    (fallback : Option Value) : (ofField name format).lastResort fallback = fallback := by
  refine lastResort_of_standard rfl ?_ fallback
  simp only [ofField, h, Bool.false_eq_true, if_false]
  rfl

theorem follow_of_not_isKeyShaped {f : Found} (hlit : f.literal = false)
    (h : ¬ f.value.IsKeyShaped) : follow next chain k f = pure (some f.finish) :=
  follow_plain hlit (Value.reference?_of_not_isKeyShaped h)

/-- A key whose direct name is bound to a value that names no key expands to the value. -/
theorem expandWithin_hit {left : Nat} {fallback : Option Value} {v : Value}
    (hS : Sources.Answer ctx.sources S) (hbare : k.IsBare) (hparts : k.parts = none)
    (hnull : k.isNull = false) (hbudget : budget ≠ some 0) (hv : S k.direct = some v)
    (hplain : ¬ v.IsKeyShaped) :
    expandWithin ctx (left + 1) chain k fallback budget = pure (some v) := by
  have hfound : k.found? S budget = some { value := v, budget } := by
    simp [found?, hv]
  rw [expandWithin_succ hnull hbudget, find_single hS hparts (hbare.plan_eq _), hfound]
  simp only [follow_of_not_isKeyShaped (f := { value := v, budget }) rfl hplain, pure_bind,
    hbare.settle_eq]
  rfl

/-- A key that is bound under neither name falls back. -/
theorem expandWithin_miss {left : Nat} {fallback : Option Value}
    (hS : Sources.Answer ctx.sources S) (hbare : k.IsBare) (hparts : k.parts = none)
    (hnull : k.isNull = false) (hbudget : budget ≠ some 0) (hdirect : S k.direct = none)
    (hindirect : S k.indirect = none) :
    expandWithin ctx (left + 1) chain k fallback budget = pure (k.lastResort fallback) := by
  have hfound : k.found? S budget = none := by
    simp [found?, hdirect, hindirect]
  rw [expandWithin_succ hnull hbudget, find_single hS hparts (hbare.plan_eq _), hfound]
  rfl

end Key

end KeyExpansion
