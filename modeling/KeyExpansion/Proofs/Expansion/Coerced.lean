-- SUMMARY: What coercions give.
import KeyExpansion.Proofs.Expansion.Settle

/-! # What coercions give

A coercion of a kind gives values of that kind only, and values of that kind it leaves alone, but
for paths, which it resolves. What a coercion from outside does is not known here. -/

namespace KeyExpansion

open Expand

namespace Coercion

variable {env : Surroundings} {key : String} {c : Coercion} {v w : Value}

theorem toPath_kind (h : toPath env key v = .ok w) : w.kind = .path := by
  unfold toPath at h
  split at h
  · obtain ⟨q, -, rfl⟩ := Except.map_eq_ok.mp h
    rfl
  · obtain ⟨q, -, rfl⟩ := Except.map_eq_ok.mp h
    rfl
  · cases h

theorem toInt_kind (h : toInt key v = .ok w) : w.kind = .int := by
  unfold toInt at h
  split at h
  · cases h
    rfl
  · cases h
    rfl
  · split at h
    · cases h
      rfl
    · cases h
  · split at h
    · cases h
      rfl
    · cases h
  · cases h

theorem toFloat_kind (h : toFloat key v = .ok w) : w.kind = .float := by
  unfold toFloat at h
  split at h
  · cases h
    rfl
  · cases h
    rfl
  · split at h
    · cases h
      rfl
    · cases h
  · cases h

theorem toMap_kind (h : toMap key v = .ok w) : w.kind = .map := by
  unfold toMap at h
  split at h
  · cases h
    rfl
  · cases h
    rfl
  · cases h

theorem toSectioned_kind {fresh : Uuid} (h : toSectioned fresh v = .ok w) : w.kind = .sectioned := by
  unfold toSectioned at h
  split at h
  · cases h
    rfl
  · obtain ⟨s, -, rfl⟩ := Except.map_eq_ok.mp h
    rfl

theorem toCode_kind {fresh : Uuid} (h : toCode env fresh key v = .ok w) : w.kind = .code := by
  unfold toCode at h
  split at h
  · cases h
    rfl
  · obtain ⟨reference, -, h⟩ := Except.bind_eq_ok.mp h
    obtain ⟨code, -, h⟩ := Except.bind_eq_ok.mp h
    cases h
    rfl
  · cases h

theorem toList_kind (v : Value) : (toList v).kind = .list := by
  cases v <;> rfl

/-- May the coercion turn `v` into `w`? -/
def MayGive (env : Surroundings) (c : Coercion) (v w : Value) : Prop :=
  match c with
  | .identity => w = v
  | .custom name => env.custom name v = .ok w
  | c => c.target? = some w.kind

/-- Coercions give values of their kind, what they are given, or what is given from outside. -/
theorem apply_gives (c : Coercion) (key : String) (v : Value) :
    Gives (c.apply env key v) (c.MayGive env v) := by
  have hlift {x : Except Error Value} {Q : Value → Prop} (h : ∀ w, x = .ok w → Q w) :
      Gives (liftM x) Q :=
    meets_liftExcept h fun _ _ => trivial
  cases c with
  | identity => exact meets_pure rfl
  | str => exact meets_pure rfl
  | path => exact hlift fun w h => congrArg some (toPath_kind h).symm
  | int => exact hlift fun w h => congrArg some (toInt_kind h).symm
  | float => exact hlift fun w h => congrArg some (toFloat_kind h).symm
  | sectioned =>
    exact (gives_anything _).bind fun _ _ => hlift fun w h => congrArg some (toSectioned_kind h).symm
  | code =>
    exact (gives_anything _).bind fun _ _ => hlift fun w h => congrArg some (toCode_kind h).symm
  | list => exact meets_pure (congrArg some (toList_kind v).symm)
  | map => exact hlift fun w h => congrArg some (toMap_kind h).symm
  | custom name => exact hlift fun w h => h

theorem mayGive_of_accepts (h : c.accepts v = true) : c.MayGive env v v := by
  cases c with
  | identity => rfl
  | custom => cases h
  | _ => exact congrArg some (beq_iff_eq.mp h).symm

theorem accepts_of_mayGive (hcustom : ¬ c.IsCustom) (h : c.MayGive env v w) : c.accepts w = true := by
  cases c with
  | identity => rfl
  | custom => exact absurd trivial hcustom
  | _ => exact beq_iff_eq.mpr (Option.some.inj h).symm

/-- A coercion leaves alone what needs none, unless it is a path. -/
theorem apply_of_accepts (hpath : v.kind ≠ .path) (h : c.accepts v = true) :
    AlwaysGives (c.apply env key v) (· = v) := by
  have hfresh : AlwaysGives fresh fun _ => True := fun _ _ => ⟨trivial, trivial⟩
  cases c with
  | identity => exact meets_pure rfl
  | custom => cases h
  | path => exact absurd (beq_iff_eq.mp h) hpath
  | str | int | float | list | map =>
    cases v <;> cases h
    exact meets_pure rfl
  | sectioned | code =>
    cases v <;> cases h
    exact hfresh.bind fun _ _ => meets_pure rfl

end Coercion

end KeyExpansion
