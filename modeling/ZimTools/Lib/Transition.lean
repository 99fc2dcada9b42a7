import Mathlib.Data.List.Basic

/-!
# Transition systems

A system is a partial step function.  The label of a step resolves every choice
there is: who moves, and what the environment answers.  A run is the list of
the steps taken, oldest first, so that a property of runs can speak of the
state before a step, of its label and of what lies between two steps.

`Run.invariant` is the induction over runs.  Its step lemma may use a condition
that every step of the run meets.  `Run.cut` opens a run at one of its steps.
`exec` computes a run from its labels.
-/

namespace Transition

universe u

/-- A step that was taken. -/
structure Taken (σ ℓ : Type u) where
  pre : σ
  label : ℓ
  post : σ

variable {σ ℓ : Type u} {step : σ → ℓ → Option σ}

/-- `Run step s₀ tr s`: the steps `tr` lead from `s₀` to `s`. -/
inductive Run (step : σ → ℓ → Option σ) (s₀ : σ) : List (Taken σ ℓ) → σ → Prop where
  | nil : Run step s₀ [] s₀
  | snoc {tr : List (Taken σ ℓ)} {s s' : σ} {l : ℓ} :
      Run step s₀ tr s → step s l = some s' → Run step s₀ (tr ++ [⟨s, l, s'⟩]) s'

/-- What holds at first and is preserved by every step that meets a condition
holds at the end of a run of such steps. -/
theorem Run.invariant {s₀ s : σ} {tr : List (Taken σ ℓ)} (Inv : σ → Prop)
    (Cond : Taken σ ℓ → Prop) (hinit : Inv s₀)
    (hstep : ∀ t : Taken σ ℓ, step t.pre t.label = some t.post → Cond t → Inv t.pre → Inv t.post)
    (h : Run step s₀ tr s) (hcond : ∀ t ∈ tr, Cond t) : Inv s := by
  induction h with
  | nil => exact hinit
  | @snoc tr s s' l _ hs ih =>
      have hpre : Inv s := ih fun t ht => hcond t (List.mem_append_left _ ht)
      exact hstep ⟨s, l, s'⟩ hs (hcond _ (List.mem_append_right _ (List.mem_singleton_self _))) hpre

/-- Behind any of its steps a run is a run to the state before that step. -/
theorem Run.cut {s₀ s : σ} {tr : List (Taken σ ℓ)} (h : Run step s₀ tr s) :
    ∀ {a b : List (Taken σ ℓ)} {t : Taken σ ℓ}, tr = a ++ t :: b →
      Run step s₀ a t.pre ∧ step t.pre t.label = some t.post ∧ Run step t.post b s := by
  induction h with
  | nil => intro a b t heq; simp at heq
  | @snoc tr s s' l h hs ih =>
      intro a b t heq
      rcases List.eq_nil_or_concat' b with rfl | ⟨b, u, rfl⟩
      · obtain ⟨rfl, ht⟩ := List.append_inj' heq rfl
        obtain rfl : ⟨s, l, s'⟩ = t := by simpa using ht
        exact ⟨h, hs, .nil⟩
      · rw [← List.cons_append, ← List.append_assoc] at heq
        obtain ⟨htr, hu⟩ := List.append_inj' heq rfl
        obtain rfl : ⟨s, l, s'⟩ = u := by simpa using hu
        obtain ⟨ha, ht, hb⟩ := ih htr
        exact ⟨ha, ht, .snoc hb hs⟩

/-- What holds along a run of steps that meet a condition holds after each. -/
theorem Run.invariant_mem {s₀ s : σ} {tr : List (Taken σ ℓ)} (Inv : σ → Prop)
    (Cond : Taken σ ℓ → Prop) (hinit : Inv s₀)
    (hstep : ∀ t : Taken σ ℓ, step t.pre t.label = some t.post → Cond t → Inv t.pre → Inv t.post)
    (h : Run step s₀ tr s) (hcond : ∀ t ∈ tr, Cond t) {t : Taken σ ℓ} (ht : t ∈ tr) :
    Inv t.pre ∧ Inv t.post := by
  obtain ⟨a, b, rfl⟩ := List.append_of_mem ht
  obtain ⟨ha, hs, -⟩ := h.cut rfl
  have hpre : Inv t.pre :=
    ha.invariant Inv Cond hinit hstep fun u hu => hcond u (List.mem_append_left _ hu)
  exact ⟨hpre, hstep t hs (hcond t ht) hpre⟩

/-- The run of a list of labels. -/
def exec (step : σ → ℓ → Option σ) : σ → List ℓ → Option (List (Taken σ ℓ) × σ)
  | s, [] => some ([], s)
  | s, l :: ls => do
      let s' ← step s l
      let (tr, last) ← exec step s' ls
      pure (⟨s, l, s'⟩ :: tr, last)

theorem Run.cons {s s' last : σ} {l : ℓ} {tr : List (Taken σ ℓ)} (hs : step s l = some s')
    (h : Run step s' tr last) : Run step s (⟨s, l, s'⟩ :: tr) last := by
  induction h with
  | nil => exact .snoc .nil hs
  | snoc _ hs' ih => exact .snoc ih hs'

theorem run_of_exec : ∀ (ls : List ℓ) {s last : σ} {tr : List (Taken σ ℓ)},
    exec step s ls = some (tr, last) → Run step s tr last
  | [], s, last, tr, h => by
      simp only [exec, Option.some.injEq, Prod.mk.injEq] at h
      obtain ⟨rfl, rfl⟩ := h
      exact .nil
  | l :: ls, s, last, tr, h => by
      simp only [exec, Option.bind_eq_bind, Option.bind_eq_some_iff, Option.pure_def,
        Option.some.injEq, Prod.mk.injEq] at h
      obtain ⟨s', hs, ⟨tr', last'⟩, hrest, rfl, rfl⟩ := h
      exact (run_of_exec ls hrest).cons hs

end Transition
