-- SUMMARY: The keys there are, and the shape that all of them have.
import KeyExpansion.Proofs.Expansion.Settle
import KeyExpansion.Proofs.Key.Built

/-! # Made keys

Keys come from texts, paths and other keys, with any options, and out of templates. As
long as no option names a coercion from outside no key has one, and the keys of a
template are single. -/

namespace KeyExpansion

namespace Key

/-- A key as it may come to be, without a coercion from outside anywhere. -/
inductive Made : Key → Prop where
  | make {input : Input} {o : Options} {k : Key} (source : ∀ other, input = .key other → Made other)
      (options : ∀ c ∈ o.coercion, ¬ c.IsCustom) (makes : make input o = .ok k) : Made k
  | label {k : Key} (n : Option Nat) (unlabelled : Made k) : Made { k with label := n }
  | field {k sub : Key} (template : Made k) (mem : sub ∈ k.subkeys) : Made sub

/-- Made keys are built with options that name no coercion from outside. -/
theorem Made.builtWith {k : Key} (h : k.Made) :
    k.BuiltWith fun o => ∀ c ∈ o.coercion, ¬ c.IsCustom := by
  induction h with
  | make _ options makes ih => exact .make ih options makes
  | label n _ ih => exact .label n ih
  | field _ mem ih => exact .field ih mem

theorem made_of_ofText {text : String} {k : Key} (h : ofText text = .ok k) : k.Made := by
  refine @Made.make (.text text) {} k ?_ ?_ h
  · intro other hother
    cases hother
  · intro c hc
    cases hc

theorem made_of_ofName {name : String} {k : Key} (h : ofName name = .ok k) : k.Made := by
  refine @Made.make (.text name) { implicit := true } k ?_ ?_ h
  · intro other hother
    cases hother
  · intro c hc
    cases hc

theorem made_of_ofReference {text : String} {k : Key} (h : ofReference text = .ok k) : k.Made := by
  unfold ofReference at h
  split at h
  · exact made_of_ofText h
  · exact made_of_ofName h

/-! ## The shape of keys -/

/-- No coercion comes from outside, and the keys of a template are single. -/
structure IsRegular (k : Key) : Prop where
  coercion : ¬ k.coercion.IsCustom
  field : ∀ sub ∈ k.subkeys, sub.parts = none ∧ ¬ sub.coercion.IsCustom

theorem single_coercion (mark : Mark) : ¬ (Family.single mark).coercion.IsCustom := by
  cases mark <;> exact id

theorem template_coercion (mark : Mark) : ¬ (Family.template mark).coercion.IsCustom := by
  cases mark <;> exact id

/-- The coercion of a key is that of the options or that of its family. -/
theorem not_isCustom_getD {o : Options} {c : Coercion} (ho : ∀ c ∈ o.coercion, ¬ c.IsCustom)
    (hc : ¬ c.IsCustom) : ¬ (o.coercion.getD c).IsCustom := by
  cases hcoercion : o.coercion with
  | none => exact hc
  | some given => exact ho given hcoercion

section Options

variable {o : Options} (ho : ∀ c ∈ o.coercion, ¬ c.IsCustom) {k : Key}
include ho

theorem assembled_isRegular (name format : String) (conversion : Option Char) (mark : Mark) :
    (assembled o name format conversion mark).IsRegular :=
  ⟨not_isCustom_getD ho (single_coercion mark), by simp [assembled, subkeys]⟩

theorem makeTemplate_isRegular {text : String} {pieces : List Template.Piece}
    (h : makeTemplate o text pieces = .ok k) : k.IsRegular := by
  obtain ⟨mark, -, subkeys, hsubkeys, conversion, -, -, rfl⟩ := makeTemplate_eq_ok.mp h
  refine ⟨not_isCustom_getD ho (template_coercion mark), fun sub hsub => ?_⟩
  obtain ⟨p, -, hp⟩ := Except.exists_of_mem_mapM hsubkeys hsub
  obtain ⟨conversion, -, -, -, rfl⟩ := makeSingle_eq_ok.mp hp
  exact ⟨rfl, single_coercion _⟩

theorem makeText_isRegular {text : String} (h : makeText o text = .ok k) : k.IsRegular := by
  rcases makeText_cases h with ⟨_, _, _, _, rfl⟩ | hnull | ⟨_, htemplate⟩
  · exact assembled_isRegular ho _ _ _ _
  · obtain ⟨-, -, rfl⟩ := makeNull_eq_ok.mp hnull
    exact ⟨id, by simp [subkeys, plainText]⟩
  · exact makeTemplate_isRegular ho htemplate

end Options

theorem Made.isRegular {k : Key} (h : k.Made) : k.IsRegular := by
  induction h with
  | @make input o k _ options makes ih =>
    cases input with
    | text text => exact makeText_isRegular options makes
    | path path => exact makeText_isRegular options makes
    | key other =>
      have hother := ih other rfl
      unfold Key.make at makes
      simp only at makes
      split at makes
      · refine makeText_isRegular (fun c hc => ?_) makes
        simp only [Options.inherit] at hc
        split at hc
        · rcases Option.or_eq_some_iff.mp hc with hc | ⟨-, hc⟩
          · exact options c hc
          · cases hc
            exact hother.coercion
        · exact options c hc
      · cases makes
        exact hother
  | label n _ ih => exact ⟨ih.coercion, ih.field⟩
  | @field k sub _ mem ih =>
    obtain ⟨hparts, hcoercion⟩ := ih.field sub mem
    exact ⟨hcoercion, by simp [subkeys, hparts]⟩

end Key

end KeyExpansion
