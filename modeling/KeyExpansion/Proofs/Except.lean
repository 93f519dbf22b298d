-- SUMMARY: When a computation that may fail gives a value, and when it gives an error.
import Mathlib.Data.List.Forall2

/-! # Results of computations that may fail

Readers and makers of keys run in `Except`. These lemmas take a run apart: a sequence
of steps gives a value when each step does, and an error when one of them does. -/

namespace KeyExpansion.Except

variable {ε α β : Type}

theorem bind_eq_ok {x : Except ε α} {f : α → Except ε β} {b : β} :
    x >>= f = .ok b ↔ ∃ a, x = .ok a ∧ f a = .ok b := by
  cases x with
  | error e => simp [bind, Except.bind]
  | ok a => simp [bind, Except.bind]

theorem bind_eq_error {x : Except ε α} {f : α → Except ε β} {e : ε} :
    x >>= f = .error e ↔ x = .error e ∨ ∃ a, x = .ok a ∧ f a = .error e := by
  cases x with
  | error e' => simp [bind, Except.bind]
  | ok a => simp [bind, Except.bind]

theorem map_eq_error {x : Except ε α} {f : α → β} {e : ε} :
    f <$> x = .error e ↔ x = .error e := by
  cases x with
  | error e' => simp [Functor.map, Except.map]
  | ok a => simp [Functor.map, Except.map]

theorem map_eq_ok {x : Except ε α} {f : α → β} {b : β} :
    f <$> x = .ok b ↔ ∃ a, x = .ok a ∧ f a = b := by
  cases x with
  | error e => simp [Functor.map, Except.map]
  | ok a => simp [Functor.map, Except.map]

theorem pure_eq_ok {a b : α} : (pure a : Except ε α) = .ok b ↔ a = b := by
  simp [pure, Except.pure]

theorem exists_ok_of_isOk {x : Except ε α} (h : x.isOk = true) : ∃ a, x = .ok a := by
  cases x with
  | error e => cases h
  | ok a => exact ⟨a, rfl⟩

/-- Each item of a list gives the item at its place. -/
theorem mapM_eq_ok {f : α → Except ε β} {xs : List α} {ys : List β} :
    xs.mapM f = .ok ys ↔ List.Forall₂ (fun x y => f x = .ok y) xs ys := by
  induction xs generalizing ys with
  | nil => cases ys <;> simp [pure_eq_ok]
  | cons x xs ih =>
    simp only [List.mapM_cons, bind_eq_ok, pure_eq_ok, ih]
    constructor
    · rintro ⟨y, hy, rest, hrest, rfl⟩
      exact .cons hy hrest
    · rintro (_ | ⟨hy, hrest⟩)
      exact ⟨_, hy, _, hrest, rfl⟩

theorem exists_of_mem_mapM {f : α → Except ε β} {xs : List α} {ys : List β}
    (h : xs.mapM f = .ok ys) {y : β} (hy : y ∈ ys) : ∃ x ∈ xs, f x = .ok y := by
  have hforall := mapM_eq_ok.mp h
  clear h
  induction hforall with
  | nil => cases hy
  | @cons x y' xs ys hx _ ih =>
    rcases List.mem_cons.mp hy with rfl | hy
    · exact ⟨x, by simp, hx⟩
    · obtain ⟨x', hx', heq⟩ := ih hy
      exact ⟨x', List.mem_cons_of_mem _ hx', heq⟩

/-! ## Errors -/

/-- Only errors with `E` may come out. -/
def FailsOnly (E : ε → Prop) (x : Except ε α) : Prop :=
  ∀ e, x = .error e → E e

variable {E : ε → Prop} {x : Except ε α}

theorem failsOnly_ok {a : α} : FailsOnly E (.ok a : Except ε α) := by
  intro e h
  cases h

theorem failsOnly_error {e : ε} (h : E e) : FailsOnly E (.error e : Except ε α) := by
  rintro _ ⟨rfl⟩
  exact h

theorem FailsOnly.bind {f : α → Except ε β} (hx : FailsOnly E x) (hf : ∀ a, FailsOnly E (f a)) :
    FailsOnly E (x >>= f) := by
  intro e h
  rcases bind_eq_error.mp h with herror | ⟨a, -, herror⟩
  · exact hx e herror
  · exact hf a e herror

theorem FailsOnly.map {f : α → β} (hx : FailsOnly E x) : FailsOnly E (f <$> x) := by
  intro e h
  exact hx e (map_eq_error.mp h)

/-! ## Both ends -/

/-- A value that comes out has `Q`, an error `E`. -/
def Ends (Q : α → Prop) (E : ε → Prop) (x : Except ε α) : Prop :=
  (∀ a, x = .ok a → Q a) ∧ FailsOnly E x

variable {Q : α → Prop} {R : β → Prop}

@[simp] theorem ends_ok {a : α} : Ends Q E (.ok a : Except ε α) ↔ Q a := by
  simp [Ends, FailsOnly]

@[simp] theorem ends_error {e : ε} : Ends Q E (.error e : Except ε α) ↔ E e := by
  simp [Ends, FailsOnly]

theorem Ends.mono {Q' : α → Prop} {E' : ε → Prop} (h : Ends Q E x) (hQ : ∀ a, Q a → Q' a)
    (hE : ∀ e, E e → E' e) : Ends Q' E' x :=
  ⟨fun a ha => hQ a (h.1 a ha), fun e he => hE e (h.2 e he)⟩

theorem Ends.bind {f : α → Except ε β} (h : Ends Q E x) (hf : ∀ a, Q a → Ends R E (f a)) :
    Ends R E (x >>= f) := by
  cases x with
  | error e => exact ends_error.mpr (ends_error.mp h)
  | ok a => exact hf a (ends_ok.mp h)

/-- Steps over a list keep what one step keeps, about the items that it has been over. -/
theorem ends_foldlM {f : β → α → Except ε β} {P : List α → β → Prop} {xs : List α}
    (hstep : ∀ before x b, x ∈ xs → P before b → Ends (P (before ++ [x])) E (f b x))
    {before : List α} {b : β} (hstart : P before b) : Ends (P (before ++ xs)) E (xs.foldlM f b) := by
  induction xs generalizing before b with
  | nil =>
    rw [List.append_nil]
    exact ends_ok.mpr hstart
  | cons x xs ih =>
    rw [List.foldlM_cons]
    refine (hstep before x b List.mem_cons_self hstart).bind ?_
    intro next hnext
    have hrest := ih (fun before y b hy => hstep before y b (List.mem_cons_of_mem x hy)) hnext
    rwa [List.append_assoc, List.singleton_append] at hrest

end KeyExpansion.Except
