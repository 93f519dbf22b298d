-- SUMMARY: What a computation that may fail and keeps its memory ensures.
import KeyExpansion.Expansion.Basic

/-! # What expansions ensure

An expansion changes the memory of stacks, may fail, and otherwise gives a value.
`Meets` says what holds of all three, and one rule for each way in which expansions are
put together carries it from the steps to the whole. -/

namespace KeyExpansion.Expand

variable {α β : Type}

/-! ## Lifted steps -/

@[simp] theorem liftM_ok (a : α) : (liftM (Except.ok a : Except Error α) : Expand α) = pure a := rfl

@[simp] theorem liftM_pure (a : α) : (liftM (pure a : StateM Memory α) : Expand α) = pure a := rfl

/-! ## Running -/

theorem runFrom_liftM (m : Memory) (x : StateM Memory α) :
    (liftM x : Expand α).runFrom m = (.ok (x.run m).1, (x.run m).2) := rfl

theorem runFrom_bind (m : Memory) (x : Expand α) (f : α → Expand β) :
    (x >>= f).runFrom m
      = (match x.runFrom m with
        | (.ok a, m) => (f a).runFrom m
        | (.error e, m) => (.error e, m)) := by
  change ((ExceptT.run x >>= fun r => ExceptT.bindCont f r) : StateM Memory _).run m = _
  rw [StateT.run_bind]
  change (ExceptT.bindCont f (x.runFrom m).1).run (x.runFrom m).2 = _
  rcases x.runFrom m with ⟨_ | _, _⟩ <;> rfl

/-! ## Ensuring -/

/-- From a memory with `I` the computation keeps `I`, gives values with `Q`, and fails
only with errors with `E`. -/
def Meets (I : Memory → Prop) (E : Error → Prop) (x : Expand α) (Q : α → Prop) : Prop :=
  ∀ m, I m → I (x.runFrom m).2 ∧
    match (x.runFrom m).1 with
    | .ok a => Q a
    | .error e => E e

variable {I : Memory → Prop} {E : Error → Prop} {Q : α → Prop} {R : β → Prop}

theorem meets_pure {a : α} (h : Q a) : Meets I E (pure a) Q := fun _ hm => ⟨hm, h⟩

theorem meets_throw {e : Error} (h : E e) : Meets I E (throw e) Q := fun _ hm => ⟨hm, h⟩

namespace Meets

theorem bind {x : Expand α} {f : α → Expand β} (hx : Meets I E x Q)
    (hf : ∀ a, Q a → Meets I E (f a) R) : Meets I E (x >>= f) R := by
  intro m hm
  have hrun := hx m hm
  rw [runFrom_bind]
  rcases hres : x.runFrom m with ⟨_ | a, m'⟩
  · simpa [hres] using hrun
  · simp only [hres] at hrun
    exact hf a hrun.2 m' hrun.1

theorem mono {x : Expand α} {Q' : α → Prop} (hx : Meets I E x Q) (h : ∀ a, Q a → Q' a) :
    Meets I E x Q' := by
  intro m hm
  have hrun := hx m hm
  rcases hres : x.runFrom m with ⟨_ | a, m'⟩
  · simpa [hres] using hrun
  · simp only [hres] at hrun ⊢
    exact ⟨hrun.1, h a hrun.2⟩

/-- The error of a failing run. -/
theorem of_error {x : Expand α} (hx : Meets I E x Q) {m : Memory} (hm : I m) {e : Error}
    (h : (x.runFrom m).1 = .error e) : E e := by
  have hrun := (hx m hm).2
  rwa [h] at hrun

end Meets

/-- What the computation gives, if it gives anything, has `Q`. -/
abbrev Gives (x : Expand α) (Q : α → Prop) : Prop :=
  Meets (fun _ => True) (fun _ => True) x Q

/-- From every memory the computation gives something with `Q`. -/
abbrev AlwaysGives (x : Expand α) (Q : α → Prop) : Prop :=
  Meets (fun _ => True) (fun _ => False) x Q

theorem gives_anything (x : Expand α) : Gives x fun _ => True := by
  intro m _
  refine ⟨trivial, ?_⟩
  split <;> trivial

theorem Gives.of_ok {x : Expand α} (hx : Gives x Q) {m : Memory} {a : α}
    (h : (x.runFrom m).1 = .ok a) : Q a := by
  have hrun := (hx m trivial).2
  rwa [h] at hrun

theorem AlwaysGives.exists_ok {x : Expand α} (hx : AlwaysGives x Q) (m : Memory) :
    ∃ a, Q a ∧ (x.runFrom m).1 = .ok a := by
  have hrun := (hx m trivial).2
  split at hrun
  · exact ⟨_, hrun, ‹_›⟩
  · exact hrun.elim

theorem meets_liftExcept {x : Except Error α} (hok : ∀ a, x = .ok a → Q a)
    (herror : ∀ e, x = .error e → E e) : Meets I E (liftM x) Q := by
  cases x with
  | ok a => exact meets_pure (hok a rfl)
  | error e => exact meets_throw (herror e rfl)

theorem meets_liftState {x : StateM Memory α} (h : ∀ m, I m → I (x m).2 ∧ Q (x m).1) :
    Meets I E (liftM x) Q := h

end KeyExpansion.Expand
