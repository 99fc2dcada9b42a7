import Mathlib.Algebra.BigOperators.Intervals
import Mathlib.Data.List.Count
import Mathlib.Logic.Function.Basic
import ZimTools.Lib.Progress

/-!
# Parts that run side by side

Some systems of one kind run side by side, under a control that they share.  A
step is one of one part.  The control may refuse it, and goes on with it when it
does not.

What a run of all parts is for one of them is a run of that part (`Run.part`), so
that whatever holds along the runs of a part holds for each of them here.  The
measures of the parts add up (`Measured.joint`).  What happens in the parts
happens in some order (`perm_of_parts`).
-/

namespace Transition

variable {γ ι σ ℓ : Type} [DecidableEq ι]

/-- A control and the parts. -/
structure Joint (γ ι σ : Type) where
  control : γ
  parts : ι → σ

/-- A step of a part, with what the control says to where it leads. -/
def jointStep (step : σ → ℓ → Option σ) (allow : γ → ι → ℓ → σ → Option γ) (s : Joint γ ι σ)
    (l : ι × ℓ) : Option (Joint γ ι σ) := do
  let part ← step (s.parts l.1) l.2
  let control ← allow s.control l.1 l.2 part
  some ⟨control, Function.update s.parts l.1 part⟩

/-- What a step is for a part. -/
def partOf (i : ι) (t : Taken (Joint γ ι σ) (ι × ℓ)) : Option (Taken σ ℓ) :=
  if t.label.1 = i then some ⟨t.pre.parts i, t.label.2, t.post.parts i⟩ else none

variable {step : σ → ℓ → Option σ} {allow : γ → ι → ℓ → σ → Option γ} {s₀ s s' : Joint γ ι σ}

theorem jointStep_eq_some {l : ι × ℓ} :
    jointStep step allow s l = some s' ↔
      ∃ part, step (s.parts l.1) l.2 = some part ∧
        allow s.control l.1 l.2 part = some s'.control ∧
          s'.parts = Function.update s.parts l.1 part := by
  simp only [jointStep, Option.bind_eq_bind, Option.bind_eq_some_iff, Option.some.injEq]
  constructor
  · rintro ⟨part, hpart, control, hcontrol, rfl⟩
    exact ⟨part, hpart, hcontrol, rfl⟩
  · rintro ⟨part, hpart, hcontrol, hparts⟩
    exact ⟨part, hpart, _, hcontrol, by rw [← hparts]⟩

/-- A step leaves the other parts where they are. -/
theorem parts_of_ne {l : ι × ℓ} (hs : jointStep step allow s l = some s') {i : ι} (hi : l.1 ≠ i) :
    s'.parts i = s.parts i := by
  obtain ⟨part, -, -, hparts⟩ := jointStep_eq_some.mp hs
  rw [hparts, Function.update_of_ne (Ne.symm hi)]

theorem step_part {l : ι × ℓ} (hs : jointStep step allow s l = some s') :
    step (s.parts l.1) l.2 = some (s'.parts l.1) := by
  obtain ⟨part, hpart, -, hparts⟩ := jointStep_eq_some.mp hs
  rw [hparts, Function.update_self, hpart]

/-- A run of all is a run of each part. -/
theorem Run.part {tr : List (Taken (Joint γ ι σ) (ι × ℓ))} (h : Run (jointStep step allow) s₀ tr s)
    (i : ι) : Run step (s₀.parts i) (tr.filterMap (partOf i)) (s.parts i) := by
  induction h with
  | nil => exact .nil
  | @snoc tr s s' l _ hs ih =>
      rw [List.filterMap_append]
      by_cases hi : l.1 = i
      · subst hi
        have hpart : partOf l.1 ⟨s, l, s'⟩ = some ⟨s.parts l.1, l.2, s'.parts l.1⟩ := if_pos rfl
        rw [List.filterMap_cons_some hpart, List.filterMap_nil]
        exact ih.snoc (step_part hs)
      · have hpart : partOf i ⟨s, l, s'⟩ = none := if_neg hi
        rw [List.filterMap_cons_none hpart, List.filterMap_nil, List.append_nil, parts_of_ne hs hi]
        exact ih

/-! ## The measures -/

theorem sum_update {parts : Finset ι} {i : ι} (hi : i ∈ parts) (measure : σ → Nat) (f : ι → σ)
    (part : σ) :
    (∑ j ∈ parts, measure (Function.update f i part j)) + measure (f i) =
      (∑ j ∈ parts, measure (f j)) + measure part := by
  rw [← Finset.add_sum_erase parts _ hi, ← Finset.add_sum_erase parts (fun j => measure (f j)) hi,
    Function.update_self]
  have hrest : ∑ j ∈ parts.erase i, measure (Function.update f i part j) =
      ∑ j ∈ parts.erase i, measure (f j) := by
    refine Finset.sum_congr rfl fun j hj => ?_
    rw [Function.update_of_ne (Finset.ne_of_mem_erase hj)]
  rw [hrest]
  omega

/-- The measures of finitely many parts, where the control refuses the others. -/
theorem Measured.joint {move answer : ℓ → Bool} {measure : σ → Nat} {parts : Finset ι}
    (hm : Measured step move answer measure)
    (hparts : ∀ {c c' : γ} {i : ι} {l : ℓ} {part : σ}, allow c i l part = some c' → i ∈ parts) :
    Measured (jointStep step allow) (fun l => move l.2) (fun l => answer l.2)
      fun s => ∑ i ∈ parts, measure (s.parts i) := by
  intro s s' l hs
  obtain ⟨part, hpart, hallow, hupdate⟩ := jointStep_eq_some.mp hs
  have hsum := sum_update (hparts hallow) measure s.parts part
  have hstep := hm hpart
  dsimp only
  rw [hupdate]
  omega

/-! ## What happens in the parts -/

/-- The events of a run of all parts, each with the part it happens in. -/
def events {α : Type} (event : Taken σ ℓ → Option α)
    (tr : List (Taken (Joint γ ι σ) (ι × ℓ))) : List (ι × α) :=
  tr.filterMap fun t => ((partOf t.label.1 t).bind event).map (t.label.1, ·)

/-- Those of one part are the events of its run. -/
theorem filter_events {α : Type} (event : Taken σ ℓ → Option α) (i : ι)
    (tr : List (Taken (Joint γ ι σ) (ι × ℓ))) :
    (events event tr).filter (fun e => e.1 = i) =
      ((tr.filterMap (partOf i)).filterMap event).map (i, ·) := by
  rw [events, List.filter_filterMap, List.filterMap_filterMap, List.map_filterMap]
  refine List.filterMap_congr fun t _ => ?_
  by_cases hi : t.label.1 = i
  · subst hi
    cases (partOf t.label.1 t).bind event with
    | none => rfl
    | some a => simp
  · have hpart : partOf i t = none := if_neg hi
    rw [hpart]
    cases (partOf t.label.1 t).bind event with
    | none => rfl
    | some a => simp [hi]

/-- Events of parts that happen in the same order in each part happen in some
order. -/
theorem perm_of_parts {α : Type} [DecidableEq α] {a b : List (ι × α)}
    (h : ∀ i, a.filter (fun e => e.1 = i) = b.filter fun e => e.1 = i) : a.Perm b := by
  refine List.perm_iff_count.mpr fun e => ?_
  have hcount (l : List (ι × α)) : l.count e = (l.filter fun f => f.1 = e.1).count e :=
    (List.count_filter (p := fun f : ι × α => f.1 = e.1) (decide_eq_true rfl)).symm
  rw [hcount a, hcount b, h e.1]

end Transition
