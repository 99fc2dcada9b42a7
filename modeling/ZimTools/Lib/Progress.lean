import ZimTools.Lib.Transition

/-!
# Progress

That a system never gets stuck says that it comes to its end only together with
a bound on its runs.  Here the bound is a measure.  Some steps are moves, and
each of them lowers it.  Others are answers of an environment, of which a run may
have any number: each raises it by at most one.  The rest does not raise it.
-/

namespace Transition

universe u

variable {σ ℓ : Type u} {step : σ → ℓ → Option σ}

/-- The number of steps with a kind of label. -/
def steps (kind : ℓ → Bool) (tr : List (Taken σ ℓ)) : Nat := tr.countP fun t => kind t.label

theorem steps_snoc (kind : ℓ → Bool) (tr : List (Taken σ ℓ)) (t : Taken σ ℓ) :
    steps kind (tr ++ [t]) = steps kind tr + (kind t.label).toNat := by
  rw [steps, List.countP_append, List.countP_singleton, steps]
  cases kind t.label <;> rfl

/-- Moves lower the measure, and only answers raise it. -/
def Measured (step : σ → ℓ → Option σ) (move answer : ℓ → Bool) (measure : σ → Nat) : Prop :=
  ∀ ⦃s s' : σ⦄ ⦃l : ℓ⦄, step s l = some s' →
    measure s' + (move l).toNat ≤ measure s + (answer l).toNat

/-- A run has no more moves than its first state allows and its answers add. -/
theorem Run.length_le {move answer : ℓ → Bool} {measure : σ → Nat} {s₀ s : σ}
    {tr : List (Taken σ ℓ)} (hm : Measured step move answer measure) (h : Run step s₀ tr s) :
    steps move tr + measure s ≤ measure s₀ + steps answer tr := by
  induction h with
  | nil => simp [steps]
  | snoc _ hs ih =>
      have hstep := hm hs
      rw [steps_snoc, steps_snoc]
      dsimp only
      omega

end Transition
