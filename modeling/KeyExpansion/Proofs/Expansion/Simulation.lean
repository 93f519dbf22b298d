-- SUMMARY: When one expansion gives a value, another one gives the same and leaves the same memory.
import KeyExpansion.Proofs.Expansion.Effect

/-! # Simulation

Two expansions run side by side from one memory. The second one `Simulates` the first if it
gives a related value, and leaves the same memory, whenever the first gives a value. What
the first does not give a value for is left open, so an error of it simulates anything. -/

namespace KeyExpansion.Expand

variable {α β γ δ : Type}

/-- From a memory with `I`, where `x` gives a value `y` gives one that is related to it by
`R`, and both end in the same memory, again with `I`. -/
def Simulates (I : Memory → Prop) (R : α → β → Prop) (x : Expand α) (y : Expand β) : Prop :=
  ∀ m a m', I m → x.runFrom m = (.ok a, m') → I m' ∧ ∃ b, R a b ∧ y.runFrom m = (.ok b, m')

variable {I : Memory → Prop} {R : α → β → Prop} {S : γ → δ → Prop}

theorem simulates_pure {a : α} {b : β} (h : R a b) : Simulates I R (pure a) (pure b) := by
  intro m a' m' hm hrun
  cases hrun
  exact ⟨hm, b, h, rfl⟩

theorem simulates_throw {e : Error} {y : Expand β} : Simulates I R (throw e : Expand α) y := by
  intro m a m' _ hrun
  cases hrun

theorem Simulates.bind {x : Expand α} {y : Expand β} {f : α → Expand γ} {g : β → Expand δ}
    (hxy : Simulates I R x y) (hfg : ∀ a b, R a b → Simulates I S (f a) (g b)) :
    Simulates I S (x >>= f) (y >>= g) := by
  intro m c m' hm hrun
  rw [runFrom_bind] at hrun
  rcases hx : x.runFrom m with ⟨_ | a, m₁⟩
  · simp [hx] at hrun
  · simp only [hx] at hrun
    obtain ⟨hm₁, b, hab, hy⟩ := hxy m a m₁ hm hx
    obtain ⟨hm', d, hcd, hg⟩ := hfg a b hab m₁ c m' hm₁ hrun
    refine ⟨hm', d, hcd, ?_⟩
    rw [runFrom_bind, hy]
    exact hg

/-- An expansion simulates itself. -/
theorem Meets.simulates {E : Error → Prop} {Q : α → Prop} {x : Expand α} (h : Meets I E x Q) :
    Simulates I (fun a b => a = b ∧ Q a) x x := by
  intro m a m' hm hrun
  obtain ⟨hm', ha⟩ := h m hm
  simp only [hrun] at hm' ha
  exact ⟨hm', a, ⟨rfl, ha⟩, hrun⟩

end KeyExpansion.Expand
