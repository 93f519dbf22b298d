-- SUMMARY: Expansions never report that a key cannot be made.
import KeyExpansion.Proofs.Expansion.Bounded

/-! # Keys that cannot be made

Expansion makes keys out of texts that it finds, writes values by the formats of keys and
fills the slots of templates. The first may fail, and a text that names no key is then left
as it is. The others succeed because the keys of a template carry formats that can be read,
and because there is one key for each slot. -/

namespace KeyExpansion

open Expand

/-- Does the error say that a key cannot be made? -/
def Error.IsOfMaking : Error → Prop
  | .malformedTemplate .. | .malformedFormat .. | .badConversion .. | .implicitWithBraces ..
  | .implicitMulti .. | .unsupportedKey .. | .nullFallback .. => True
  | _ => False

theorem Error.IsOfValue.not_isOfMaking {e : Error} (h : e.IsOfValue) : ¬ e.IsOfMaking := by
  cases e <;> first | exact id | exact h.elim

namespace Key

/-! ## Texts that name nothing -/

/-- The text is no template, no name, or one that expands to itself. -/
def NamesNothing (text : String) : Prop :=
  ∀ k, ofReference text = .ok k → k.isNull = true

theorem namesNothing_of_error {text : String} {e : Error} (h : ofReference text = .error e) :
    NamesNothing text := by
  intro k hk
  rw [h] at hk
  cases hk

section Text

variable {text : String} (h : NamesNothing text)
include h

theorem NamesNothing.reference? : (Value.str text).reference? = none := by
  refine Option.eq_none_iff_forall_ne_some.mpr fun k href => ?_
  obtain ⟨hopen, hk, hnull⟩ := Value.reference?_str_eq_some.mp href
  rw [h k ((ofReference_of_mem hopen).trans hk)] at hnull
  cases hnull

theorem NamesNothing.lift (budget : Budget) :
    Found.lift { value := .str text, budget } = { value := .str text, budget } := by
  have hnamed : (ofReference text).toOption.filter (!·.isNull) = none := by
    refine Option.eq_none_iff_forall_ne_some.mpr fun k href => ?_
    obtain ⟨hk, hnull⟩ := toOption_filter_eq_some.mp href
    rw [h k hk] at hnull
    cases hnull
  simp [Found.lift, hnamed]

end Text

/-! ## Finding them -/

variable {ctx : Context} {k : Key} {budget : Budget} {m m' : Memory} {text : String}

/-- A text that names nothing is found as it is, under whichever name. -/
theorem lookupTargets_of_namesNothing (h : NamesNothing text) {targets : List Target}
    (hfound : (Sources.findFirst ctx.sources (targets.map Target.name)).run m
      = (some (.str text), m')) :
    (lookupTargets ctx budget targets).runFrom m
      = (.ok (some { value := .str text, budget }), m') := by
  induction targets generalizing m with
  | nil => cases hfound
  | cons target targets ih =>
    rw [List.map_cons, Sources.findFirst, StateT.run_bind] at hfound
    rw [lookupTargets, runFrom_bind, runFrom_liftM]
    rcases hfind : (Sources.find target.name ctx.sources).run m with ⟨_ | v, m₁⟩
    · rw [hfind] at hfound
      exact ih hfound
    · -- The first hit counts, and whether its name asks for another name makes no difference.
      rw [hfind] at hfound
      obtain ⟨⟨rfl⟩, rfl⟩ := hfound
      simp only [h.lift, ite_self]
      rfl

/-- What becomes of a text that a key finds and that names nothing: it is settled as it is. -/
def settleText (env : Surroundings) (k : Key) (fallback : Option Value) (budget : Budget)
    (text : String) : Expand (Option Value) := do
  return (← settle env k { value := .str text, budget, literal := true }).or (k.lastResort fallback)

/-- A single key that finds a text that names nothing takes it as plain text. -/
theorem expandWithin_of_namesNothing (h : NamesNothing text) {left : Nat} {chain : List String}
    {fallback : Option Value} (hactive : k.IsActive budget) (hparts : k.parts = none)
    {targets : List Target} (hplan : k.family.conduct.plan k ctx.sources = .targets targets)
    (hfound : (Sources.findFirst ctx.sources (targets.map Target.name)).run m
      = (some (.str text), m')) :
    (expandWithin ctx (left + 1) chain k fallback budget).runFrom m
      = (settleText ctx.env k fallback budget text).runFrom m' := by
  have hlookup : (k.lookup ctx budget).runFrom m
      = (.ok (some { value := .str text, budget }), m') := by
    rw [lookup, hplan]
    exact lookupTargets_of_namesNothing h hfound
  rw [expandWithin_succ hactive.1 hactive.2, find_of_parts_none hparts, runFrom_bind, runFrom_bind,
    hlookup]
  simp only [follow_plain (f := { value := .str text, budget }) rfl h.reference?]
  rfl

/-! ## Errors -/

/-- Expansion of made keys never fails to make a key. -/
def making (ctx : Context) (h : ∀ s ∈ ctx.sources, ∀ v ∈ s.values, v.IsMade) : Invariant ctx where
  memory := Memory.IsMade
  error e := ¬ e.IsOfMaking
  enters _ _ k _ := k.Made
  leads _ other := other.Made
  fresh _ hm := hm
  value _ := Error.IsOfValue.not_isOfMaking
  format henter hsub hfault := by
    obtain ⟨f, hf⟩ := henter.builtWith.isRenderable.format _ hsub
    rw [hf] at hfault
    cases hfault
  slots henter hparts hlength hfault := by
    obtain ⟨text, htext⟩ := henter.builtWith.isRenderable.slots _ hparts _ hlength
    rw [htext] at hfault
    cases hfault
  coercion henter := henter.isRegular.coercion
  lookup _ _ _ := lookup_meets h fun _ _ hv => hv.of_names
  limit _ _ := id
  field henter _ := henter.field
  recursion _ _ _ _ _ _ _ := id
  follow _ _ _ hother _ _ := hother

/-- No expansion of a made key over sources of made keys reports that a key cannot be made.
Wherever a text that names nothing is found it is taken as plain text. -/
theorem expand_not_isOfMaking {machine : Machine} {custom : String → Value → Except Error Value}
    {code : CodeTable} {registry : Registry} {sources : List Source} {fallback : Option Value}
    {limit : Option Int} {memory : Memory} (hk : k.Made)
    (hsources : ∀ s ∈ sources ++ registry.sources, ∀ v ∈ s.values, v.IsMade)
    (hmemory : memory.IsMade) :
    let env : Surroundings := ⟨machine.resolve, custom, code⟩
    let ctx : Context := ⟨env, sources ++ registry.sources⟩
    (∀ e, ((k.expand env registry sources fallback limit).runFrom memory).1 = .error e →
      ¬ e.IsOfMaking) ∧
    ∀ left chain other fallback budget text targets m m', IsActive other budget →
      other.parts = none → other.family.conduct.plan other ctx.sources = .targets targets →
      (Sources.findFirst ctx.sources (targets.map Target.name)).run m = (some (.str text), m') →
      NamesNothing text →
      (expandWithin ctx (left + 1) chain other fallback budget).runFrom m
        = (settleText env other fallback budget text).runFrom m' := by
  intro env ctx
  refine ⟨fun e herror => ?_, ?_⟩
  · have hmeets : Meets Memory.IsMade (¬ ·.IsOfMaking)
        (k.expand env registry sources fallback limit) fun _ => True := by
      rw [expand_eq]
      exact (making ctx hsources).expandWithin_meets (fun _ _ => machine.resolve_failsByIo) hk
        fallback
    exact hmeets.of_error hmemory herror
  · intro left chain other fallback budget text targets m m' hactive hparts hplan hfound hnothing
    exact expandWithin_of_namesNothing hnothing hactive hparts hplan hfound

/-- A text whose format cannot be read makes no key, and is what a name expands to that is
bound to it. -/
theorem expand_not_isOfMaking_format :
    let env : Surroundings := ⟨Machine.resolve default, fun _ v => .ok v, {}⟩
    let sources := [Source.table [("a", .str "\x7bb:zz\x7d")]]
    let text := "\x7bb:zz\x7d"
    ∃ k e, ofName "a" = .ok k ∧ ofReference text = .error e ∧ e.IsOfMaking ∧
      (∀ e, ((k.expand env {} sources none none).runFrom {}).1 = .error e → ¬ e.IsOfMaking) ∧
      (expandWithin ⟨env, sources ++ Registry.sources {}⟩ nestingLimit [] k none none).runFrom {}
        = (settleText env k none none text).runFrom {} ∧
      (settleText env k none none text).runFrom {} = (.ok (some (.str text)), {}) := by
  intro env sources text
  have ha : ofName "a" = .ok (ofField "a" "") := ofName_of_simple (by decide)
  obtain ⟨e, herror, hfault⟩ : ∃ e, ofReference "\x7bb:zz\x7d" = .error e ∧ e.IsOfMaking :=
    ⟨_, rfl, trivial⟩
  have hsources : ∀ s ∈ sources ++ Registry.sources {}, ∀ v ∈ s.values, v.IsMade := by
    intro s hs v hv
    obtain rfl : s = .table [("a", .str text)] := by simpa [sources, Registry.sources] using hs
    obtain rfl : v = .str text := by simpa using Source.mem_of_mem_values_table hv
    trivial
  obtain ⟨hmaking, htext⟩ := @expand_not_isOfMaking (ofField "a" "") default (fun _ v => .ok v) {}
    {} sources none none {} (made_of_ofName ha) hsources (by simp [Memory.IsMade])
  refine ⟨_, e, ha, herror, hfault, hmaking, ?_, rfl⟩
  exact htext 199 [] (ofField "a" "") none none text _ {} {} ⟨rfl, by simp⟩ rfl rfl rfl
    (namesNothing_of_error herror)

end Key

end KeyExpansion
