import Mathlib.Data.List.Basic

/-!
# Lists of partial results

`mapM` in `Option` is the list of the results of a partial function when it is
defined on the whole list, and undefined otherwise.
-/

namespace MapM

variable {α β : Type} {f : α → Option β} {l : List α}

theorem eq_some_map {g : α → β} (h : ∀ a ∈ l, f a = some (g a)) : l.mapM f = some (l.map g) := by
  induction l with
  | nil => rfl
  | cons a l ih =>
      rw [List.mapM_cons, h a (List.mem_cons_self ..),
        ih fun b hb => h b (List.mem_cons_of_mem a hb)]
      rfl

theorem eq_none {a : α} (ha : a ∈ l) (h : f a = none) : l.mapM f = none := by
  induction l with
  | nil => exact absurd ha List.not_mem_nil
  | cons b l ih =>
      rw [List.mapM_cons]
      rcases List.mem_cons.mp ha with rfl | ha
      · rw [h]
        rfl
      · rw [ih ha]
        cases f b <;> rfl

theorem exists_eq_some (h : ∀ a ∈ l, ∃ b, f a = some b) : ∃ bs, l.mapM f = some bs := by
  induction l with
  | nil => exact ⟨[], rfl⟩
  | cons a l ih =>
      obtain ⟨b, hb⟩ := h a (List.mem_cons_self ..)
      obtain ⟨bs, hbs⟩ := ih fun c hc => h c (List.mem_cons_of_mem a hc)
      rw [List.mapM_cons, hb, hbs]
      exact ⟨b :: bs, rfl⟩

/-- Every result is the result of an element. -/
theorem exists_of_mem {bs : List β} (h : l.mapM f = some bs) {b : β} (hb : b ∈ bs) :
    ∃ a ∈ l, f a = some b := by
  induction l generalizing bs with
  | nil =>
      rw [← Option.some.inj h] at hb
      exact absurd hb List.not_mem_nil
  | cons a l ih =>
      simp only [List.mapM_cons, Option.bind_eq_bind, Option.bind_eq_some_iff, Option.pure_def,
        Option.some.injEq] at h
      obtain ⟨b', ha, bs, hbs, rfl⟩ := h
      rcases List.mem_cons.mp hb with rfl | hb
      · exact ⟨a, List.mem_cons_self .., ha⟩
      · obtain ⟨c, hc, hfc⟩ := ih hbs hb
        exact ⟨c, List.mem_cons_of_mem a hc, hfc⟩

/-- The result of an element is a result. -/
theorem mem_of_eq_some {bs : List β} (h : l.mapM f = some bs) {a : α} {b : β} (ha : a ∈ l)
    (hb : f a = some b) : b ∈ bs := by
  induction l generalizing bs with
  | nil => cases ha
  | cons c l ih =>
      simp only [List.mapM_cons, Option.bind_eq_bind, Option.bind_eq_some_iff, Option.pure_def,
        Option.some.injEq] at h
      obtain ⟨b', hc, bs, hbs, rfl⟩ := h
      rcases List.mem_cons.mp ha with rfl | ha
      · rw [hb] at hc
        exact List.mem_cons.mpr (.inl (Option.some.inj hc))
      · exact List.mem_cons_of_mem b' (ih hbs ha)

/-- What the results have in common with the elements. -/
theorem map_eq_map {γ : Type} {g : α → γ} {g' : β → γ} {bs : List β} (h : l.mapM f = some bs)
    (hf : ∀ a b, f a = some b → g' b = g a) : bs.map g' = l.map g := by
  induction l generalizing bs with
  | nil =>
      rw [← Option.some.inj h]
      rfl
  | cons a l ih =>
      simp only [List.mapM_cons, Option.bind_eq_bind, Option.bind_eq_some_iff, Option.pure_def,
        Option.some.injEq] at h
      obtain ⟨b, hb, bs, hbs, rfl⟩ := h
      rw [List.map_cons, List.map_cons, hf a b hb, ih hbs]

theorem exists_flatten {f : α → Option (List β)} (h : ∀ a ∈ l, ∃ bs, f a = some bs) :
    ∃ bs, (l.mapM f).map List.flatten = some bs := by
  obtain ⟨bs, hbs⟩ := exists_eq_some h
  rw [hbs]
  exact ⟨bs.flatten, rfl⟩

/-- Partial lists that are all defined and empty. -/
theorem flatten_eq_nil_iff {f : α → Option (List β)} :
    (l.mapM f).map List.flatten = some [] ↔ ∀ a ∈ l, f a = some [] := by
  induction l with
  | nil => simp
  | cons a l ih =>
      rw [List.forall_mem_cons, ← ih, List.mapM_cons]
      cases f a with
      | none => simp
      | some e => cases l.mapM f <;> simp

end MapM
