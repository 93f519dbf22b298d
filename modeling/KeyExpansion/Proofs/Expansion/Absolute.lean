-- SUMMARY: When the keys of the path mark come to absolute paths.
import KeyExpansion.Proofs.Expansion.Coerced
import KeyExpansion.Proofs.Expansion.Substitution
import KeyExpansion.Proofs.Key.PathMark
import KeyExpansion.Proofs.Path

/-! # Paths that keys come to

What a key of the path mark finds is coerced and then resolved, which makes an absolute path of
every text and every path. Any other value is left alone there. So it is the coercion of the key,
or that of its conversion letter, on which it depends whether the key comes to paths only. -/

namespace KeyExpansion

open Expand

/-! ## Resolving -/

theorem Machine.resolve_isAbsolute {m : Machine} {p q : Path} (hcwd : m.cwd.isAbsolute = true)
    (h : m.resolve p = .ok q) : q.isAbsolute = true := by
  simp only [resolve] at h
  split at h
  · cases h
  · obtain rfl := Except.ok.inj h
    cases hthere : m.files.canonical? (Path.absolute m.cwd (m.expandHome p)) with
    | none => exact Path.isAbsolute_absolute hcwd _
    | some there =>
      obtain ⟨place, -, rfl⟩ := Option.map_eq_some_iff.mp hthere
      exact Path.isAbsolute_root_append _

/-- Are all paths absolute that others resolve to? -/
def Surroundings.MakesAbsolute (env : Surroundings) : Prop :=
  ∀ p q, env.resolve p = .ok q → q.isAbsolute = true

namespace Value

def IsAbsolutePath : Value → Prop
  | .path p => p.isAbsolute = true
  | _ => False

/-- Is the value left alone by resolving, and refers to no key? -/
structure IsOther (v : Value) : Prop where
  not_str : v.kind ≠ .str
  not_path : v.kind ≠ .path
  not_key : v.kind ≠ .key

namespace IsOther

variable {v : Value} (h : v.IsOther)
include h

theorem isKey_eq : v.isKey = false := by
  cases v with
  | key => exact absurd rfl h.not_key
  | _ => rfl

theorem reference?_eq : v.reference? = none := by
  cases v with
  | key => exact absurd rfl h.not_key
  | str => exact absurd rfl h.not_str
  | _ => rfl

theorem finalize_eq (c : Conduct) (env : Surroundings) : c.finalize env v = .ok v := by
  cases v with
  | str => exact absurd rfl h.not_str
  | path => exact absurd rfl h.not_path
  | _ => cases c <;> rfl

end IsOther

end Value

theorem Conduct.finalize_path {env : Surroundings} (henv : env.MakesAbsolute) {v w : Value}
    (hkey : v.isKey = false) (h : finalize .path env v = .ok w) :
    w.IsAbsolutePath ∨ w = v ∧ v.IsOther := by
  cases v with
  | path p =>
    obtain ⟨q, hq, rfl⟩ := Except.map_eq_ok.mp h
    exact .inl (henv p q hq)
  | str s =>
    obtain ⟨q, hq, rfl⟩ := Except.map_eq_ok.mp h
    exact .inl (henv _ q hq)
  | key => cases hkey
  | _ =>
    obtain rfl := Except.ok.inj h
    exact .inr ⟨rfl, nofun, nofun, nofun⟩

/-! ## What a key lets pass -/

namespace Key

variable {k : Key} {P : Options → Prop}

/-- The coercion that counts for a key: that of its conversion letter, or else its own. -/
def coercionInForce? (k : Key) : Option Coercion :=
  match k.conversion with
  | some letter => (Conversion.find? letter).map Conversion.coercion
  | none => some k.coercion

/-- May the key come to a value that is no path? The coercion in force makes it of something, of
text for a template, and the constraint of the key accepts it. -/
structure Passes (env : Surroundings) (k : Key) (v : Value) : Prop where
  isOther : v.IsOther
  coercion : ∃ c ∈ k.coercionInForce?, ∃ w, c.MayGive env w v ∧ (k.isMulti = true → w.kind = .str)
  check : k.verify v = .ok ()

/-! ## What is found -/

/-- Is the value coerced, and for a template text? -/
structure AwaitsCoercion (k : Key) (f : Found) : Prop where
  convert : f.convert = none
  text : k.isMulti = true → f.value.kind = .str

section Find

variable {ctx : Context} {next : Next} {chain : List String} {budget : Budget}

theorem lookupTargets_convert (targets : List Target) :
    Gives (lookupTargets ctx budget targets) fun r => ∀ f ∈ r, f.convert = none := by
  induction targets with
  | nil => exact meets_pure (by simp)
  | cons target targets ih =>
    refine (gives_anything _).bind fun r _ => ?_
    cases r with
    | none => exact ih
    | some v =>
      refine meets_pure ?_
      rintro _ ⟨rfl⟩
      split
      · unfold Found.lift
        dsimp only
        split <;> rfl
      · rfl

theorem lookup_convert (hpath : k.MakesPath) :
    Gives (k.lookup ctx budget) fun r => ∀ f ∈ r, f.convert = none := by
  rw [lookup, hpath.conduct]
  exact lookupTargets_convert _

theorem follow_convert {f : Found} (hconvert : f.convert = none) :
    Gives (follow next chain k f) fun r => ∀ g ∈ r, g.convert = none := by
  have hkeep {g : Found} (h : g.convert = f.convert) :
      Gives (pure (some g)) fun r => ∀ g ∈ r, g.convert = none := by
    refine meets_pure ?_
    rintro _ ⟨rfl⟩
    exact h.trans hconvert
  unfold follow
  split
  · exact hkeep rfl
  · split
    · exact hkeep rfl
    · dsimp only
      split
      · exact hkeep rfl
      · split
        · exact hkeep rfl
        · split
          · exact meets_throw trivial
          · refine (gives_anything _).bind fun r _ => ?_
            cases r with
            | some v => exact hkeep rfl
            | none =>
              refine meets_pure fun g hg => ?_
              obtain ⟨v, -, rfl⟩ := Option.map_eq_some_iff.mp hg
              rfl

/-- A key of the path mark is looked up, or is text. -/
theorem find_gives (hpath : k.MakesPath) :
    Gives (find ctx next chain k budget) fun r => ∀ f ∈ r, k.AwaitsCoercion f := by
  cases hparts : k.parts with
  | none =>
    have hsingle : k.isMulti = false := by simp [isMulti, hparts]
    have hawaits {r : Option Found} (h : ∀ f ∈ r, f.convert = none) : ∀ f ∈ r, k.AwaitsCoercion f :=
      fun f hf => ⟨h f hf, by simp [hsingle]⟩
    rw [find_of_parts_none hparts]
    refine (lookup_convert hpath).bind fun r hr => ?_
    cases r with
    | none => exact meets_pure (by simp)
    | some f => exact (follow_convert (hr f rfl)).mono fun r => hawaits
  | some parts =>
    have hfind : find ctx next chain k budget = expandParts next parts budget := by simp [find, hparts]
    rw [hfind, expandParts_eq (hpath.literal parts hparts)]
    refine (gives_anything _).bind fun r _ => ?_
    cases r with
    | none => exact meets_pure (by simp)
    | some texts =>
      dsimp only
      split
      · refine meets_pure ?_
        rintro _ ⟨rfl⟩
        exact ⟨rfl, fun _ => rfl⟩
      · exact meets_throw trivial

/-- What answers under the direct name is found, if it names no key. -/
theorem find_of_answer {m m' : Memory} {v : Value} (hpath : k.MakesPath) (hparts : k.parts = none)
    (hplain : v.reference? = none) (hanswer : (Sources.find k.direct ctx.sources).run m = (some v, m')) :
    (find ctx next chain k budget).runFrom m
      = (.ok (some { value := v, budget, literal := true }), m') := by
  have hlookup : (k.lookup ctx budget).runFrom m = (.ok (some { value := v, budget }), m') := by
    rw [lookup, hpath.conduct]
    change (lookupTargets ctx budget [⟨k.direct, false⟩, ⟨k.indirect, true⟩]).runFrom m = _
    rw [lookupTargets, runFrom_bind, runFrom_liftM, hanswer]
    rfl
  rw [find_of_parts_none hparts, runFrom_bind, hlookup]
  dsimp only
  rw [follow_plain rfl hplain]
  rfl

end Find

/-! ## What it is settled as -/

section Settle

variable {env : Surroundings} {f : Found}

theorem coerce_gives (hconvert : f.convert = none) (hkey : f.value.isKey = false) :
    Gives (k.coerce env f) fun r =>
      ∀ g ∈ r, ∃ c ∈ k.coercionInForce?, c.MayGive env f.value g.value := by
  have happly {c : Coercion} (hc : c ∈ k.coercionInForce?) :
      Gives (do return some { f with value := ← c.apply env k.text f.value }) fun r =>
        ∀ g ∈ r, ∃ c ∈ k.coercionInForce?, c.MayGive env f.value g.value := by
    refine (Coercion.apply_gives c k.text f.value).bind fun v hv => meets_pure ?_
    rintro _ ⟨rfl⟩
    exact ⟨c, hc, hv⟩
  unfold coerce
  rw [hkey, if_neg Bool.false_ne_true]
  cases hletter : k.conversion with
  | some letter =>
    dsimp only
    cases hfind : Conversion.find? letter with
    | none => exact meets_pure (by simp)
    | some conversion => exact happly (by simp [coercionInForce?, hletter, hfind])
  | none =>
    have hforce : k.coercion ∈ k.coercionInForce? := by simp [coercionInForce?, hletter]
    dsimp only
    split
    · rename_i haccepts
      refine meets_pure ?_
      rintro _ ⟨rfl⟩
      refine ⟨k.coercion, hforce, Coercion.mayGive_of_accepts ?_⟩
      simpa [hconvert] using haccepts
    · exact happly hforce

/-- What is settled is a key, an absolute path, or something that the key lets pass. -/
theorem settle_gives (henv : env.MakesAbsolute) (hpath : k.MakesPath) (hf : k.AwaitsCoercion f) :
    Gives (settle env k f) fun r =>
      ∀ v ∈ r, v.isKey = true ∨ v.IsAbsolutePath ∨ k.Passes env v := by
  cases hkey : f.value.isKey with
  | true =>
    have hcoerce : k.coerce env f = pure (some f) := by rw [coerce, if_pos hkey]
    rw [settle, hcoerce, pure_bind]
    simp only [hkey, if_true]
    refine meets_pure ?_
    rintro _ ⟨rfl⟩
    exact .inl hkey
  | false =>
    refine (coerce_gives hf.convert hkey).bind fun r hr => ?_
    cases r with
    | none => exact meets_pure (by simp)
    | some g =>
      obtain ⟨c, hc, hgive⟩ := hr g rfl
      dsimp only
      split
      · rename_i hgkey
        refine meets_pure ?_
        rintro _ ⟨rfl⟩
        exact .inl hgkey
      · rename_i hgkey
        rw [hpath.conduct]
        have hfinal : Gives (liftM (Conduct.path.finalize env g.value)) fun v =>
            v.IsAbsolutePath ∨ v = g.value ∧ g.value.IsOther :=
          meets_liftExcept (fun v hv => Conduct.finalize_path henv (by simpa using hgkey) hv)
            fun _ _ => trivial
        have hverify (v : Value) : Gives (liftM (k.verify v)) fun _ => k.verify v = .ok () :=
          meets_liftExcept (fun _ h => h) fun _ _ => trivial
        refine hfinal.bind fun v hv => (hverify v).bind fun _ hcheck => meets_pure ?_
        rintro _ ⟨rfl⟩
        rcases hv with habsolute | ⟨rfl, hother⟩
        · exact .inr (.inl habsolute)
        · exact .inr (.inr ⟨hother, ⟨c, hc, f.value, hgive, hf.text⟩, hcheck⟩)

/-- What a key lets pass is settled as it is. -/
theorem settle_of_passes (hcustom : ∀ c ∈ k.coercionInForce?, ¬ c.IsCustom)
    (h : k.Passes env f.value) : AlwaysGives (settle env k f) (· = some f.value) := by
  obtain ⟨hother, ⟨c, hc, w, hgive, -⟩, hcheck⟩ := h
  have haccepts := Coercion.accepts_of_mayGive (hcustom c hc) hgive
  have hcoerce : AlwaysGives (k.coerce env f) fun r => ∃ g, r = some g ∧ g.value = f.value := by
    unfold coerce
    rw [hother.isKey_eq, if_neg Bool.false_ne_true]
    cases hletter : k.conversion with
    | some letter =>
      obtain ⟨conversion, hfind, rfl⟩ := Option.map_eq_some_iff.mp
        (by simpa [coercionInForce?, hletter] using hc)
      simp only [hfind]
      refine (Coercion.apply_of_accepts hother.not_path haccepts).bind fun v hv => meets_pure ?_
      exact ⟨_, rfl, hv⟩
    | none =>
      obtain rfl : k.coercion = c := by simpa [coercionInForce?, hletter] using hc
      simp only [haccepts, Bool.or_true, if_true]
      exact meets_pure ⟨f, rfl, rfl⟩
  refine hcoerce.bind fun r hr => ?_
  obtain ⟨g, rfl, hg⟩ := hr
  simp only [hg, hother.isKey_eq, Bool.false_eq_true, if_false, hother.finalize_eq, liftM_ok,
    pure_bind, hcheck]
  exact meets_pure rfl

end Settle

/-! ## What it comes to -/

theorem MakesPath.lastResort_eq (hpath : k.MakesPath) (fallback : Option Value) :
    k.lastResort fallback = fallback.or k.fallback? := by
  rw [lastResort, hpath.conduct]
  exact Option.or_none

section Expand

variable {ctx : Context} {left : Nat} {chain : List String} {fallback : Option Value} {budget : Budget}

theorem expandWithin_gives (henv : ctx.env.MakesAbsolute) (hpath : k.MakesPath) :
    Gives (expandWithin ctx left chain k fallback budget) fun r =>
      ∀ v ∈ r, fallback.or k.fallback? = some v ∨ v.isKey = true ∨ v.IsAbsolutePath ∨
        k.Passes ctx.env v := by
  by_cases hbudget : budget = some 0
  · rw [hbudget, expandWithin_spent hpath.isNull]
    refine meets_pure ?_
    rintro _ ⟨rfl⟩
    exact .inr (.inl rfl)
  · cases left with
    | zero =>
      rw [expandWithin_zero hpath.isNull hbudget]
      exact meets_throw trivial
    | succ left =>
      rw [expandWithin_succ hpath.isNull hbudget, hpath.lastResort_eq]
      refine (find_gives hpath).bind fun r hr => ?_
      cases r with
      | none => exact meets_pure fun v hv => .inl hv
      | some f =>
        refine (settle_gives henv hpath (hr f rfl)).bind fun r hr => meets_pure fun v hv => ?_
        rcases Option.or_eq_some_iff.mp hv with hv | ⟨-, hv⟩
        · exact .inr (hr v hv)
        · exact .inl hv

theorem expandWithin_of_passes {m m' : Memory} {v : Value} (hpath : k.MakesPath)
    (hparts : k.parts = none) (hcustom : ∀ c ∈ k.coercionInForce?, ¬ c.IsCustom)
    (hbudget : budget ≠ some 0)
    (hanswer : (Sources.find k.direct ctx.sources).run m = (some v, m'))
    (hpasses : k.Passes ctx.env v) :
    ((expandWithin ctx (left + 1) chain k fallback budget).runFrom m).1 = .ok (some v) := by
  rw [expandWithin_succ hpath.isNull hbudget, runFrom_bind,
    find_of_answer hpath hparts hpasses.isOther.reference?_eq hanswer]
  have hsettle : AlwaysGives (do
      return (← settle ctx.env k { value := v, budget, literal := true }).or (k.lastResort fallback))
      (· = some v) := by
    refine (settle_of_passes hcustom hpasses).bind fun r hr => meets_pure ?_
    rw [hr, Option.some_or]
  obtain ⟨r, rfl, hrun⟩ := hsettle.exists_ok m'
  exact hrun

end Expand

theorem not_passes {env : Surroundings} {v : Value}
    (h : ∀ c ∈ k.coercionInForce?, c = .path ∨ c = .str ∨ c = .identity ∧ k.isMulti = true) :
    ¬ k.Passes env v := by
  rintro ⟨hother, ⟨c, hc, w, hgive, htext⟩, -⟩
  rcases h c hc with rfl | rfl | ⟨rfl, hmulti⟩
  · exact hother.not_path (Option.some.inj hgive).symm
  · exact hother.not_str (Option.some.inj hgive).symm
  · obtain rfl : v = w := hgive
    exact hother.not_str (htext hmulti)

/-- A key of the path mark comes to an absolute path, to a key, to its fallback, or to something
that it lets pass. It lets nothing pass if the coercion in force gives paths, as that of its family
does, or text, nor does a template whose coercion leaves values as they are. Whatever a single key
lets pass is what it comes to when that answers under its name. -/
theorem expand_absolute {m : Machine} {env : Surroundings} (hk : k.BuiltWith P)
    (hmark : k.mark = .path) (hresolve : env.resolve = m.resolve) (hcwd : m.cwd.isAbsolute = true) :
    (∀ registry sources fallback limit memory v,
      ((k.expand env registry sources fallback limit).runFrom memory).1 = .ok (some v) →
      fallback.or k.fallback? = some v ∨ v.isKey = true ∨ v.IsAbsolutePath ∨ k.Passes env v) ∧
    ((∀ c ∈ k.coercionInForce?, c = .path ∨ c = .str ∨ c = .identity ∧ k.isMulti = true) →
      ∀ v, ¬ k.Passes env v) ∧
    (k.parts = none → (∀ c ∈ k.coercionInForce?, ¬ c.IsCustom) →
      ∀ registry sources fallback limit memory memory' v, k.callBudget limit ≠ some 0 →
      (Sources.find k.direct (sources ++ registry.sources)).run memory = (some v, memory') →
      k.Passes env v →
      ((k.expand env registry sources fallback limit).runFrom memory).1 = .ok (some v)) := by
  have hpath := hk.makesPath hmark
  have henv : env.MakesAbsolute := by
    intro p q hq
    rw [hresolve] at hq
    exact m.resolve_isAbsolute hcwd hq
  refine ⟨?_, fun h v => not_passes h, ?_⟩
  · intro registry sources fallback limit memory v hv
    rw [expand_eq] at hv
    exact (expandWithin_gives henv hpath).of_ok hv v rfl
  · intro hparts hcustom registry sources fallback limit memory memory' v hbudget hanswer hpasses
    rw [expand_eq]
    exact expandWithin_of_passes hpath hparts hcustom hbudget hanswer hpasses

/-- A letter for integers lets an integer pass, also when an empty stack is asked before. -/
theorem expand_absolute_letter :
    let m : Machine := { (default : Machine) with cwd := ⟨"/work"⟩ }
    let env : Surroundings := ⟨m.resolve, fun _ v => .ok v, {}⟩
    ∃ k, make (.text "\x7ba\x7d") { mark := some .path, conversion := some "i" } = .ok k ∧
      k.mark = .path ∧ m.cwd.isAbsolute = true ∧ k.Passes env (.int 5) ∧
      (∀ registry sources fallback limit memory v,
        ((k.expand env registry sources fallback limit).runFrom memory).1 = .ok (some v) →
        fallback.or k.fallback? = some v ∨ v.isKey = true ∨ v.IsAbsolutePath ∨ k.Passes env v) ∧
      ∀ fallback, ((k.expand env {} [.stack 0, .table [("a", .int 5)]] fallback none).runFrom {}).1
        = .ok (some (.int 5)) := by
  intro m env
  let k := assembled { mark := some .path, conversion := some "i" } "a" "" (some 'i') .path
  have hmake : make (.text "\x7ba\x7d") { mark := some .path, conversion := some "i" } = .ok k := rfl
  have hbuilt : k.BuiltWith fun o => o.force = false := by
    refine .make ?_ rfl hmake
    intro other hother
    cases hother
  have hcwd : m.cwd.isAbsolute = true := by decide
  have hpasses : k.Passes env (.int 5) :=
    ⟨⟨nofun, nofun, nofun⟩, ⟨.int, rfl, .int 5, rfl, nofun⟩, rfl⟩
  obtain ⟨hgives, -, hpass⟩ := expand_absolute hbuilt rfl (rfl : env.resolve = m.resolve) hcwd
  refine ⟨k, hmake, rfl, hcwd, hpasses, hgives, fun fallback => ?_⟩
  have hcustom : ∀ c ∈ k.coercionInForce?, ¬ c.IsCustom := by
    rintro _ ⟨rfl⟩
    exact id
  have hdirect : k.direct = "a" := by decide
  refine hpass rfl hcustom {} _ fallback none {} {} (.int 5) (by decide) ?_ hpasses
  rw [hdirect]
  rfl

/-- An integer is what a key of the path mark comes to if its letter asks for one. -/
theorem expand_passes_number :
    let m : Machine := { (default : Machine) with cwd := ⟨"/work"⟩ }
    let env : Surroundings := ⟨m.resolve, fun _ v => .ok v, {}⟩
    ∃ k v, make (.text "\x7ba\x7d") { mark := some .path, conversion := some "i" } = .ok k ∧
      k.mark = .path ∧ k.fallback? = none ∧
      (k.expand env {} [.table [("a", .int 5)]] none none).runFrom {} = (.ok (some v), {}) ∧
      v.isKey = false ∧ ¬ v.IsAbsolutePath :=
  ⟨assembled { mark := some .path, conversion := some "i" } "a" "" (some 'i') .path, .int 5, rfl,
    rfl, rfl, rfl, rfl, id⟩

end Key

end KeyExpansion
