import Mathlib.Algebra.GroupWithZero.Nat
import Mathlib.Data.List.Basic

/-!
# Greedy packing

A list of things with sizes is cut into consecutive groups: a thing goes into
the open group unless that would take the group, which must not be empty,
beyond a limit.  Nothing is lost (`pack_flatten`), no group is empty
(`pack_ne_nil`), and a group is beyond the limit only when it is a single thing
(`pack_within`).  No other cut into groups within the limit has fewer of them
(`pack_length_le`).
-/

namespace Packing

universe u

variable {α : Type u} (size : α → Nat) (limit : Nat)

def total (group : List α) : Nat := (group.map size).sum

/-- The groups, with `group` the open one. -/
def pack (group : List α) : List α → List (List α)
  | [] => [group]
  | a :: l =>
      if 0 < total size group ∧ limit < total size group + size a then group :: pack [a] l
      else pack (group ++ [a]) l

/-- Within the limit, or a single thing. -/
def Within (group : List α) : Prop := total size group ≤ limit ∨ ∃ a, group = [a]

variable {size limit}

@[simp] theorem total_nil : total size ([] : List α) = 0 := rfl

@[simp] theorem total_append (a b : List α) :
    total size (a ++ b) = total size a + total size b := by
  simp [total]

@[simp] theorem total_singleton (a : α) : total size [a] = size a := by
  simp [total]

theorem total_pos {group : List α} (hpos : ∀ a ∈ group, 0 < size a) (hne : group ≠ []) :
    0 < total size group := by
  cases group with
  | nil => exact absurd rfl hne
  | cons a group =>
      have ha : 0 < size a := hpos a (List.mem_cons_self ..)
      rw [← List.singleton_append, total_append, total_singleton]
      omega

/-- The groups hold everything, in order. -/
theorem pack_flatten (group l : List α) : (pack size limit group l).flatten = group ++ l := by
  induction l generalizing group with
  | nil => simp [pack]
  | cons a l ih =>
      rw [pack]
      split
      · rw [List.flatten_cons, ih, List.singleton_append]
      · rw [ih, List.append_assoc, List.singleton_append]

theorem pack_ne_nil {group l : List α} (h : group ++ l ≠ []) :
    ∀ g ∈ pack size limit group l, g ≠ [] := by
  induction l generalizing group with
  | nil =>
      intro g hg
      obtain rfl := List.mem_singleton.mp hg
      simpa using h
  | cons a l ih =>
      rw [pack]
      split
      · next hfull =>
          intro g hg
          cases hg with
          | head =>
              intro hnil
              rw [hnil] at hfull
              exact absurd hfull.1 (by simp)
          | tail _ hg => exact ih (by simp) g hg
      · exact ih (by simp)

variable (size limit) in
theorem pack_length_pos (group l : List α) : 0 < (pack size limit group l).length := by
  induction l generalizing group with
  | nil => exact Nat.one_pos
  | cons a l ih =>
      rw [pack]
      split
      · exact Nat.succ_pos _
      · exact ih _

/-- Only a single thing is beyond the limit. -/
theorem pack_within {group l : List α} (hpos : ∀ a ∈ group ++ l, 0 < size a)
    (h : Within size limit group) : ∀ g ∈ pack size limit group l, Within size limit g := by
  induction l generalizing group with
  | nil =>
      intro g hg
      obtain rfl := List.mem_singleton.mp hg
      exact h
  | cons a l ih =>
      rw [pack]
      split
      · intro g hg
        cases hg with
        | head => exact h
        | tail _ hg =>
            have hpos' : ∀ b ∈ [a] ++ l, 0 < size b := fun b hb =>
              hpos b (List.mem_append_right _ hb)
            exact ih hpos' (Or.inr ⟨a, rfl⟩) g hg
      · next hfull =>
          have hpos' : ∀ b ∈ group ++ [a] ++ l, 0 < size b := by
            rw [List.append_assoc]
            exact hpos
          refine ih hpos' ?_
          cases group with
          | nil => exact Or.inr ⟨a, rfl⟩
          | cons b group =>
              have hopen : 0 < total size (b :: group) :=
                total_pos (fun c hc => hpos c (List.mem_append_left _ hc)) (by simp)
              refine Or.inl ?_
              rw [total_append, total_singleton]
              omega

/-! ## The number of groups -/

/-- Under a limit of one, each thing is a group of its own. -/
theorem pack_length_of_le_one {group l : List α} (hlimit : limit ≤ 1)
    (hpos : ∀ a ∈ group ++ l, 0 < size a) (hne : group ≠ []) :
    (pack size limit group l).length = l.length + 1 := by
  induction l generalizing group with
  | nil => rfl
  | cons a l ih =>
      have ha : 0 < size a := hpos a (by simp)
      have hgroup := total_pos (fun b hb => hpos b (List.mem_append_left _ hb)) hne
      rw [pack, if_pos ⟨hgroup, by omega⟩, List.length_cons, List.length_cons,
        ih (fun b hb => hpos b (by simpa using Or.inr hb)) (List.cons_ne_nil a [])]

variable (size limit) in
/-- Greedy packing of what is left for another cut, whose open group has `rest`
before it and whose later groups are `groups`.  When the greedy open group is no
larger than the other one, no more groups are to come than there.  One more may
come when greedy packing has closed a group more. -/
def Ahead (rest : List α) (groups : List (List α)) : Prop :=
  ∀ (group : List α) (spent : Nat), spent + total size rest ≤ limit →
    (pack size limit group (rest ++ groups.flatten)).length ≤ groups.length + 2 ∧
      (total size group ≤ spent →
        (pack size limit group (rest ++ groups.flatten)).length ≤ groups.length + 1)

theorem ahead_nil : Ahead size limit [] [] :=
  fun _ _ _ => ⟨by simp [pack], fun _ => by simp [pack]⟩

/-- The other cut closes its group: greedy packing is one group ahead. -/
theorem Ahead.close {rest : List α} {groups : List (List α)} (h : Ahead size limit rest groups)
    (hrest : total size rest ≤ limit) : Ahead size limit [] (rest :: groups) := by
  intro group spent _
  obtain ⟨hbehind, -⟩ := h group 0 (by omega)
  rw [List.nil_append, List.flatten_cons, List.length_cons]
  exact ⟨by omega, fun _ => by omega⟩

/-- The next thing goes into the open group of the other cut.  Where it does not
fit into the greedy one, that was the larger of the two. -/
theorem Ahead.cons {rest : List α} {groups : List (List α)} (h : Ahead size limit rest groups)
    (a : α) : Ahead size limit (a :: rest) groups := by
  intro group spent hlimit
  rw [← List.singleton_append, total_append, total_singleton] at hlimit
  rw [List.cons_append, pack]
  split
  · next hfull =>
      obtain ⟨-, hsame⟩ := h [a] (spent + size a) (by omega)
      have hlength := hsame (by rw [total_singleton]; omega)
      rw [List.length_cons]
      exact ⟨by omega, fun _ => by omega⟩
  · obtain ⟨hbehind, hsame⟩ := h (group ++ [a]) (spent + size a) (by omega)
    refine ⟨hbehind, fun hgroup => hsame ?_⟩
    rw [total_append, total_singleton]
    omega

theorem ahead_append {groups : List (List α)} (h : Ahead size limit [] groups) (rest : List α) :
    Ahead size limit rest groups := by
  induction rest with
  | nil => exact h
  | cons a rest ih => exact ih.cons a

theorem ahead_of_le {groups : List (List α)} (h : ∀ g ∈ groups, total size g ≤ limit) :
    Ahead size limit [] groups := by
  induction groups with
  | nil => exact ahead_nil
  | cons g groups ih =>
      rw [List.forall_mem_cons] at h
      exact (ahead_append (ih h.2) g).close h.1

/-- No cut into groups within the limit has fewer groups. -/
theorem pack_length_le {groups : List (List α)} (hne : groups ≠ [])
    (h : ∀ g ∈ groups, total size g ≤ limit) :
    (pack size limit [] groups.flatten).length ≤ groups.length := by
  cases groups with
  | nil => exact absurd rfl hne
  | cons g groups =>
      rw [List.forall_mem_cons] at h
      obtain ⟨-, hsame⟩ := ahead_append (ahead_of_le h.2) g [] 0 (by omega)
      rw [List.flatten_cons, List.length_cons]
      exact hsame (Nat.zero_le _)

end Packing
