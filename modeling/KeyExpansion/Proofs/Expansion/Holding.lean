-- SUMMARY: What holds of every value in the sources holds of every value found in them.
import KeyExpansion.Proofs.Expansion.Invariant
import KeyExpansion.Proofs.Expansion.Reference
import Mathlib.Data.Set.Basic

/-! # Values that sources hold

The values of a source are its answers, but stacks hold theirs in memory. A property of
all of them is kept by asking, which only takes values away, and holds of every answer. -/

namespace KeyExpansion

open Expand

/-- The values that a source holds itself. -/
def Source.values : Source → Set Value
  | .steady answer _ => {v | ∃ name, answer name = some v}
  | .stack _ => ∅

theorem Source.mem_of_mem_values_table {entries : List (String × Value)} {v : Value}
    (h : v ∈ (table entries).values) : v ∈ entries.map Prod.snd := by
  obtain ⟨name, hname⟩ := h
  obtain ⟨before, after, rfl, -⟩ := List.lookup_eq_some_iff.mp hname
  simp

/-- Every value on the stacks has the property. -/
def Memory.Holds (P : Value → Prop) (m : Memory) : Prop :=
  ∀ pile ∈ m.piles, ∀ v ∈ pile, P v

variable {P : Value → Prop} {E : Error → Prop}

theorem Memory.Holds.pop {m : Memory} (h : m.Holds P) (slot : Nat) :
    (m.pop slot).2.Holds P ∧ ∀ v ∈ (m.pop slot).1, P v := by
  unfold Memory.pop
  split
  · rename_i top rest hpile
    have hmem : top :: rest ∈ m.piles := List.mem_of_getElem? hpile
    refine ⟨fun pile hmempile v hv => ?_, ?_⟩
    · rcases List.mem_or_eq_of_mem_set hmempile with hold | rfl
      · exact h pile hold v hv
      · exact h _ hmem v (List.mem_cons_of_mem _ hv)
    · rintro v ⟨rfl⟩
      exact h _ hmem _ (by simp)
  · exact ⟨h, by simp⟩

theorem Sources.find_meets {sources : List Source} (h : ∀ s ∈ sources, ∀ v ∈ s.values, P v)
    (name : String) :
    Meets (Memory.Holds P) E (liftM (find name sources)) fun r => ∀ v ∈ r, P v := by
  have hlookup {s : Source} (hs : ∀ v ∈ s.values, P v) :
      Meets (Memory.Holds P) E (liftM (s.lookup name)) fun r => ∀ v ∈ r, P v := by
    cases s with
    | steady answer given => exact meets_liftState fun m hm => ⟨hm, fun v hv => hs v ⟨name, hv⟩⟩
    | stack slot => exact meets_liftState fun m hm => hm.pop slot
  induction sources with
  | nil => exact meets_pure (by simp)
  | cons s sources ih =>
    rw [find, liftM_bind]
    refine (hlookup (h s (by simp))).bind fun r hr => ?_
    cases r with
    | some v => exact meets_pure hr
    | none => exact ih fun s hs => h s (List.mem_cons_of_mem _ hs)

namespace Key

variable {ctx : Context} {k : Key} {budget : Budget}

/-- What is found under the names of a key is a value of the sources, or its lift. -/
theorem lookupTargets_meets (h : ∀ s ∈ ctx.sources, ∀ v ∈ s.values, P v) (targets : List Target) :
    Meets (Memory.Holds P) E (lookupTargets ctx budget targets) fun r =>
      ∀ f ∈ r, ∃ v, P v ∧
        (f = { value := v, budget } ∨ f = Found.lift { value := v, budget }) := by
  induction targets with
  | nil => exact meets_pure (by simp)
  | cons target targets ih =>
    refine (Sources.find_meets h target.name).bind fun r hr => ?_
    cases r with
    | none => exact ih
    | some v =>
      refine meets_pure ?_
      rintro f ⟨rfl⟩
      refine ⟨v, hr v rfl, ?_⟩
      split
      · exact .inr rfl
      · exact .inl rfl

/-- What a key finds without asking for its names is a literal. -/
theorem literal_of_plan_resolved {sources : List Source} {found : Option Found}
    (hplan : k.family.conduct.plan k sources = .resolved found) :
    ∀ f ∈ found, f.literal = true := by
  intro f hf
  unfold Conduct.plan at hplan
  split at hplan
  · obtain ⟨params, -, rfl⟩ := Option.map_eq_some_iff.mp ((Plan.resolved.inj hplan).trans hf)
    rfl
  · obtain ⟨params, -, rfl⟩ := Option.map_eq_some_iff.mp ((Plan.resolved.inj hplan).trans hf)
    rfl
  · cases hplan

/-- What a key may lead to is what the values of the sources name. -/
theorem lookup_meets {L : Key → Prop} (h : ∀ s ∈ ctx.sources, ∀ v ∈ s.values, P v)
    (hnames : ∀ v other, P v → v.Names other → L other) :
    Meets (Memory.Holds P) E (k.lookup ctx budget) fun r => ∀ f ∈ r, MayFind L budget f := by
  unfold lookup
  cases hplan : k.family.conduct.plan k ctx.sources with
  | targets targets =>
    refine (lookupTargets_meets h targets).mono fun r hr f hf _ => ?_
    obtain ⟨v, hv, rfl | rfl⟩ := hr f hf
    · exact ⟨rfl, fun other href => hnames v other hv (Value.names_of_reference? href)⟩
    · exact ⟨Found.lift_budget _,
        fun other href => hnames v other hv (Found.names_of_reference?_lift href)⟩
  | resolved found =>
    refine meets_pure fun f hf hlit => ?_
    rw [literal_of_plan_resolved hplan f hf] at hlit
    cases hlit

end Key

end KeyExpansion
