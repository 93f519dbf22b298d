-- SUMMARY: What may go wrong while a value is settled.
import KeyExpansion.Expansion.Expand
import KeyExpansion.Machine
import KeyExpansion.Proofs.Except
import KeyExpansion.Proofs.Expansion.Effect
import KeyExpansion.Proofs.Key.Single

/-! # How settling fails

Coercing, finalizing and checking a value fail for many reasons. All of them lie in the
value: none is that expansions led back to a key or nested too deep, which only following
may report, or that a key cannot be made. -/

namespace KeyExpansion

open KeyExpansion.Except (FailsOnly failsOnly_ok failsOnly_error)

/-- Does the error say what is wrong with a value? -/
def Error.IsOfValue : Error → Prop
  | .missingSection .. | .tooManyUuids .. | .badUuid .. | .typeMismatch .. | .conversion ..
  | .codeNotFound .. | .io .. => True
  | _ => False

/-! ## Reading sectioned texts -/

section Sectioned

variable {scheme : Scheme}

theorem canonUuid_failsOnly (fresh : Uuid) (text : List Char) :
    FailsOnly Error.IsOfValue (canonUuid fresh text) := by
  unfold canonUuid
  split
  · exact failsOnly_ok
  · split
    · exact failsOnly_error trivial
    · split
      · exact failsOnly_ok
      · split
        · exact failsOnly_ok
        · exact failsOnly_error trivial

theorem Scheme.clean_failsOnly (fresh : Uuid) (text : List Char) :
    FailsOnly Error.IsOfValue (scheme.clean fresh text) := by
  unfold clean cleanLed
  split
  · exact failsOnly_error trivial
  · exact (canonUuid_failsOnly fresh _).bind fun _ => failsOnly_ok

theorem Scheme.layOutFrom_failsOnly (text : List Char) (start : Nat) (sections : List Section) :
    FailsOnly Error.IsOfValue (layOutFrom text start sections) := by
  fun_induction layOutFrom text start sections with
  | case1 => exact failsOnly_ok
  | case2 => exact failsOnly_ok
  | case3 _ _ _ _ _ ih => exact ih.bind fun _ => failsOnly_ok
  | case4 _ _ _ _ _ _ _ _ ih => exact ih.bind fun _ => failsOnly_ok
  | case5 => exact failsOnly_error trivial
  | case6 _ _ _ _ _ _ _ _ ih => exact ih.bind fun _ => failsOnly_ok

theorem decodeWord_failsOnly (sec : Section) (text : List Char) (edge : Bool) (word : List Char)
    (carried : Carried) : FailsOnly Error.IsOfValue (decodeWord sec text edge word carried) := by
  unfold decodeWord
  split
  · exact failsOnly_ok
  · split
    · exact failsOnly_error trivial
    · rename_i value _
      have htake : FailsOnly Error.IsOfValue (carried.take text value) := by
        unfold Carried.take
        split
        · split
          · exact failsOnly_error trivial
          · exact failsOnly_ok
        · exact failsOnly_ok
      exact htake.bind fun _ => failsOnly_ok

theorem decodeWords_failsOnly (sec : Section) (text : List Char) (count index : Nat)
    (words : List Text.Span) (carried : Carried) :
    FailsOnly Error.IsOfValue (decodeWords sec text count index words carried) := by
  induction words generalizing index carried with
  | nil => exact failsOnly_ok
  | cons word words ih =>
    exact (decodeWord_failsOnly _ _ _ _ _).bind fun _ => (ih _ _).bind fun _ => failsOnly_ok

theorem decodeParts_failsOnly (text : List Char) (parts : List (Section × Part))
    (carried : Carried) : FailsOnly Error.IsOfValue (decodeParts text parts carried) := by
  induction parts generalizing carried with
  | nil => exact failsOnly_ok
  | cons part parts ih =>
    exact (decodeWords_failsOnly _ _ _ _ _ _).bind fun _ => (ih _).bind fun _ => failsOnly_ok

theorem Sectioned.parse_failsOnly (fresh : Uuid) (text : List Char) :
    FailsOnly Error.IsOfValue (parse scheme fresh text) := by
  refine (Scheme.clean_failsOnly fresh text).bind fun cleaned => ?_
  refine (Scheme.layOutFrom_failsOnly cleaned.text 0 scheme.sections).bind fun layout => ?_
  exact ((decodeParts_failsOnly _ _ _).bind fun _ => failsOnly_ok).bind fun _ => failsOnly_ok

end Sectioned

/-! ## Coercing -/

/-- Paths fail to resolve only for reasons of the file system. -/
def Surroundings.FailsByIo (env : Surroundings) : Prop :=
  ∀ p e, env.resolve p = .error e → ∃ reason, e = .io reason

theorem Surroundings.FailsByIo.failsOnly {env : Surroundings} (h : env.FailsByIo) (p : Path) :
    FailsOnly Error.IsOfValue (env.resolve p) := by
  intro e he
  obtain ⟨reason, rfl⟩ := h p e he
  trivial

theorem Machine.resolve_failsByIo (m : Machine) {p : Path} {e : Error}
    (h : m.resolve p = .error e) : ∃ reason, e = .io reason := by
  simp only [resolve] at h
  split at h
  · cases h
    exact ⟨_, rfl⟩
  · cases h

/-- Is what is done to a value given from outside? -/
def Coercion.IsCustom : Coercion → Prop
  | .custom _ => True
  | _ => False

namespace Coercion

variable {env : Surroundings} {key : String}

theorem toInt_failsOnly (v : Value) : FailsOnly Error.IsOfValue (toInt key v) := by
  unfold toInt
  split
  · exact failsOnly_ok
  · exact failsOnly_ok
  · split
    · exact failsOnly_ok
    · exact failsOnly_error trivial
  · split
    · exact failsOnly_ok
    · exact failsOnly_error trivial
  · exact failsOnly_error trivial

theorem toFloat_failsOnly (v : Value) : FailsOnly Error.IsOfValue (toFloat key v) := by
  unfold toFloat
  split
  · exact failsOnly_ok
  · exact failsOnly_ok
  · split
    · exact failsOnly_ok
    · exact failsOnly_error trivial
  · exact failsOnly_error trivial

theorem toPath_failsOnly {E : Error → Prop} (hplain : ∀ e, e.IsOfValue → E e)
    (hresolve : ∀ p, FailsOnly E (env.resolve p)) (v : Value) : FailsOnly E (toPath env key v) := by
  unfold toPath
  split
  · exact (hresolve _).map
  · exact (hresolve _).map
  · exact failsOnly_error (hplain _ trivial)

theorem toMap_failsOnly (v : Value) : FailsOnly Error.IsOfValue (toMap key v) := by
  unfold toMap
  split
  · exact failsOnly_ok
  · exact failsOnly_ok
  · exact failsOnly_error trivial

theorem toSectioned_failsOnly (fresh : Uuid) (v : Value) :
    FailsOnly Error.IsOfValue (toSectioned fresh v) := by
  unfold toSectioned
  split
  · exact failsOnly_ok
  · exact (Sectioned.parse_failsOnly _ _).map

theorem toCode_failsOnly (fresh : Uuid) (v : Value) :
    FailsOnly Error.IsOfValue (toCode env fresh key v) := by
  unfold toCode
  split
  · exact failsOnly_ok
  · refine (Sectioned.parse_failsOnly _ _).bind fun reference => ?_
    have hload : FailsOnly Error.IsOfValue (env.code.load reference) := by
      unfold CodeTable.load
      split
      · exact failsOnly_ok
      · exact failsOnly_error trivial
    exact hload.bind fun _ => failsOnly_ok
  · exact failsOnly_error trivial

end Coercion

namespace Expand

variable {I : Memory → Prop} {E : Error → Prop} {env : Surroundings}

theorem meets_failsOnly {α : Type} {x : Except Error α} (h : FailsOnly E x) :
    Meets I E (liftM x) fun _ => True :=
  meets_liftExcept (fun _ _ => trivial) h

/-- Coercions ask for nothing but a fresh uuid. They fail as the world outside does, or for
reasons that lie in the value. -/
theorem apply_meets (hplain : ∀ e, e.IsOfValue → E e) (hresolve : ∀ p, FailsOnly E (env.resolve p))
    (hfresh : ∀ m, I m → I m.fresh.2) {c : Coercion}
    (hcustom : ∀ name v, c = .custom name → FailsOnly E (env.custom name v)) (key : String)
    (v : Value) : Meets I E (c.apply env key v) fun _ => True := by
  have hown {x : Except Error Value} (h : FailsOnly Error.IsOfValue x) :
      Meets I E (liftM x) fun _ => True :=
    meets_failsOnly fun e he => hplain e (h e he)
  have huuid : Meets I E fresh fun _ => True := fun m hm => ⟨hfresh m hm, trivial⟩
  cases c with
  | identity => exact meets_pure trivial
  | str => exact meets_pure trivial
  | path => exact meets_failsOnly (Coercion.toPath_failsOnly hplain hresolve v)
  | int => exact hown (Coercion.toInt_failsOnly v)
  | float => exact hown (Coercion.toFloat_failsOnly v)
  | sectioned => exact huuid.bind fun fresh _ => hown (Coercion.toSectioned_failsOnly fresh v)
  | code => exact huuid.bind fun fresh _ => hown (Coercion.toCode_failsOnly fresh v)
  | list => exact meets_pure trivial
  | map => exact hown (Coercion.toMap_failsOnly v)
  | custom name => exact meets_failsOnly (hcustom name v rfl)

end Expand

/-! ## Settling -/

/-- No conversion letter asks for a coercion from outside. -/
theorem Conversion.not_isCustom {letter : Char} {c : Conversion} (h : find? letter = some c) :
    ¬ c.coercion.IsCustom := by
  rcases mem_of_find? h with rfl | rfl | rfl | rfl | rfl | rfl <;> exact id

namespace Key

open Expand

variable {I : Memory → Prop} {E : Error → Prop} {env : Surroundings} {k : Key}

theorem coerce_meets (hplain : ∀ e, e.IsOfValue → E e)
    (hresolve : ∀ p, FailsOnly E (env.resolve p)) (hfresh : ∀ m, I m → I m.fresh.2)
    (hcustom : ∀ name v, k.coercion = .custom name → FailsOnly E (env.custom name v)) (f : Found) :
    Meets I E (k.coerce env f) fun _ => True := by
  unfold coerce
  split
  · exact meets_pure trivial
  · split
    · split
      · exact meets_pure trivial
      · rename_i letter _ conversion hfind
        have hletter : ∀ name v, conversion.coercion = .custom name →
            FailsOnly E (env.custom name v) := by
          intro name v hname
          exact absurd (hname ▸ trivial) (Conversion.not_isCustom hfind)
        exact (apply_meets hplain hresolve hfresh hletter _ _).bind fun _ _ => meets_pure trivial
    · split
      · exact meets_pure trivial
      · exact (apply_meets hplain hresolve hfresh hcustom _ _).bind fun _ _ => meets_pure trivial

/-- Settling fails as the world outside does, or for reasons that lie in the value. -/
theorem settle_meets (hplain : ∀ e, e.IsOfValue → E e)
    (hresolve : ∀ p, FailsOnly E (env.resolve p)) (hfresh : ∀ m, I m → I m.fresh.2)
    (hcustom : ∀ name v, k.coercion = .custom name → FailsOnly E (env.custom name v)) (f : Found) :
    Meets I E (settle env k f) fun _ => True := by
  have hfinal (v : Value) : FailsOnly E (k.family.conduct.finalize env v) := by
    unfold Conduct.finalize
    split
    · exact (hresolve _).map
    · exact (hresolve _).map
    · exact failsOnly_ok
  have hverify (v : Value) : FailsOnly E (k.verify v) := by
    unfold verify
    split
    · split
      · exact failsOnly_ok
      · exact failsOnly_error (hplain _ trivial)
    · exact failsOnly_ok
  refine (coerce_meets hplain hresolve hfresh hcustom f).bind fun r _ => ?_
  cases r with
  | none => exact meets_pure trivial
  | some f =>
    simp only
    split
    · exact meets_pure trivial
    · refine (meets_failsOnly (hfinal f.value)).bind fun v _ => ?_
      exact (meets_failsOnly (hverify v)).bind fun _ _ => meets_pure trivial

end Key

end KeyExpansion
