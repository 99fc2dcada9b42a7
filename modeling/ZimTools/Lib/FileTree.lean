import Mathlib.Data.List.Basic
import Mathlib.Data.List.Nodup

/-!
# Directory trees

What a directory shows, entry by entry, with what its directories show inside.
A path is the list of the names on it, and leads to a leaf or to a directory
(`get`).  When no directory has a name twice, the leaves that a walk comes to
are exactly those that paths lead to (`mem_leaves_iff`), each once
(`nodup_leaves`).
-/

universe u v

/-- The entries of a directory from one of them on. -/
inductive FileTree (ν : Type u) (δ : Type v) where
  | nil
  | leaf (name : ν) (content : δ) (rest : FileTree ν δ)
  | dir (name : ν) (inside rest : FileTree ν δ)

namespace FileTree

variable {ν : Type u} {δ : Type v}

/-- The names in a directory. -/
def names : FileTree ν δ → List ν
  | nil => []
  | leaf name _ rest => name :: rest.names
  | dir name _ rest => name :: rest.names

/-- All leaves with their paths, in the order of a walk. -/
def leaves : FileTree ν δ → List (List ν × δ)
  | nil => []
  | leaf name content rest => ([name], content) :: rest.leaves
  | dir name inside rest => inside.leaves.map (fun l => (name :: l.1, l.2)) ++ rest.leaves

/-- The number of directories in one another. -/
def depth : FileTree ν δ → Nat
  | nil => 0
  | leaf _ _ rest => rest.depth
  | dir _ inside rest => max (inside.depth + 1) rest.depth

/-- No directory has a name twice. -/
def Distinct : FileTree ν δ → Prop
  | nil => True
  | leaf name _ rest => name ∉ rest.names ∧ rest.Distinct
  | dir name inside rest => name ∉ rest.names ∧ inside.Distinct ∧ rest.Distinct

/-- Every name in the tree has a property. -/
def AllNames (P : ν → Prop) : FileTree ν δ → Prop
  | nil => True
  | leaf name _ rest => P name ∧ rest.AllNames P
  | dir name inside rest => P name ∧ inside.AllNames P ∧ rest.AllNames P

/-! ## Paths -/

/-- What is at a path: a leaf, or the entries of a directory. -/
def get [DecidableEq ν] : FileTree ν δ → List ν → Option (δ ⊕ FileTree ν δ)
  | t, [] => some (.inr t)
  | nil, _ :: _ => none
  | leaf name content rest, n :: path =>
      if name = n then if path = [] then some (.inl content) else none else rest.get (n :: path)
  | dir name inside rest, n :: path =>
      if name = n then inside.get path else rest.get (n :: path)

theorem exists_cons_of_mem_leaves {t : FileTree ν δ} {path : List ν} {content : δ}
    (h : (path, content) ∈ t.leaves) : ∃ n path', path = n :: path' ∧ n ∈ t.names := by
  induction t with
  | nil => cases h
  | leaf name content' rest ih =>
      rcases List.mem_cons.mp h with h | h
      · cases h
        exact ⟨name, [], rfl, List.mem_cons_self ..⟩
      · obtain ⟨n, path', rfl, hn⟩ := ih h
        exact ⟨n, path', rfl, List.mem_cons_of_mem _ hn⟩
  | dir name inside rest _ ih =>
      rcases List.mem_append.mp h with h | h
      · obtain ⟨l, -, hl⟩ := List.mem_map.mp h
        cases hl
        exact ⟨name, l.1, rfl, List.mem_cons_self ..⟩
      · obtain ⟨n, path', rfl, hn⟩ := ih h
        exact ⟨n, path', rfl, List.mem_cons_of_mem _ hn⟩

/-- Each leaf has a path of its own. -/
theorem nodup_leaves {t : FileTree ν δ} (ht : t.Distinct) : (t.leaves.map Prod.fst).Nodup := by
  induction t with
  | nil => exact List.nodup_nil
  | leaf name content rest ih =>
      refine List.nodup_cons.mpr ⟨fun h => ?_, ih ht.2⟩
      obtain ⟨l, hl, heq⟩ := List.mem_map.mp h
      obtain ⟨n, path', hpath, hn⟩ := exists_cons_of_mem_leaves hl
      rw [heq] at hpath
      cases hpath
      exact ht.1 hn
  | dir name inside rest ihInside ihRest =>
      rw [leaves, List.map_append, List.map_map]
      have hinside : (inside.leaves.map (Prod.fst ∘ fun l => (name :: l.1, l.2))).Nodup := by
        have hmap := (ihInside ht.2.1).map (List.cons_injective (a := name))
        rwa [List.map_map] at hmap
      refine hinside.append (ihRest ht.2.2) fun path hpath hpath' => ?_
      obtain ⟨l, -, rfl⟩ := List.mem_map.mp hpath
      obtain ⟨l', hl', heq⟩ := List.mem_map.mp hpath'
      obtain ⟨n, path', hpath, hn⟩ := exists_cons_of_mem_leaves hl'
      rw [heq] at hpath
      cases hpath
      exact ht.1 hn

theorem forall_mem_leaves {P : ν → Prop} {t : FileTree ν δ} (h : t.AllNames P) :
    ∀ l ∈ t.leaves, ∀ n ∈ l.1, P n := by
  induction t with
  | nil => nofun
  | leaf name content rest ih =>
      refine List.forall_mem_cons.mpr ⟨fun n hn => ?_, ih h.2⟩
      rw [List.mem_singleton.mp hn]
      exact h.1
  | dir name inside rest ihInside ihRest =>
      intro l hl
      rcases List.mem_append.mp hl with hl | hl
      · obtain ⟨l, hmem, rfl⟩ := List.mem_map.mp hl
        exact List.forall_mem_cons.mpr ⟨h.1, ihInside h.2.1 l hmem⟩
      · exact ihRest h.2.2 l hl

section

variable [DecidableEq ν]

theorem name_mem_of_get {t : FileTree ν δ} {n : ν} {path : List ν} {x : δ ⊕ FileTree ν δ}
    (h : t.get (n :: path) = some x) : n ∈ t.names := by
  induction t with
  | nil => cases h
  | leaf name content rest ih =>
      rw [get] at h
      split at h
      · next hn => exact hn ▸ List.mem_cons_self ..
      · exact List.mem_cons_of_mem _ (ih h)
  | dir name inside rest _ ih =>
      rw [get] at h
      split at h
      · next hn => exact hn ▸ List.mem_cons_self ..
      · exact List.mem_cons_of_mem _ (ih h)

/-- The walk comes to exactly the leaves that paths lead to. -/
theorem mem_leaves_iff {t : FileTree ν δ} (ht : t.Distinct) {path : List ν} {content : δ} :
    (path, content) ∈ t.leaves ↔ t.get path = some (.inl content) := by
  induction t generalizing path with
  | nil => cases path <;> simp [leaves, get]
  | leaf name content' rest ih =>
      cases path with
      | nil =>
          refine iff_of_false (fun h => ?_) nofun
          obtain ⟨_, _, h, -⟩ := exists_cons_of_mem_leaves h
          cases h
      | cons n path =>
          have hrest : (n :: path, content) ∈ rest.leaves ↔ rest.get (n :: path) = some (.inl content) :=
            ih ht.2
          rw [leaves, get, List.mem_cons, hrest]
          by_cases hn : name = n
          · subst hn
            have hnone : rest.get (name :: path) ≠ some (.inl content) := fun h =>
              ht.1 (name_mem_of_get h)
            rw [if_pos rfl, or_iff_left hnone]
            by_cases hpath : path = []
            · subst hpath
              simp [eq_comm]
            · simp [hpath]
          · rw [if_neg hn]
            refine or_iff_right fun h => hn ?_
            cases h
            rfl
  | dir name inside rest ihInside ihRest =>
      cases path with
      | nil =>
          refine iff_of_false (fun h => ?_) nofun
          obtain ⟨_, _, h, -⟩ := exists_cons_of_mem_leaves h
          cases h
      | cons n path =>
          have hinside : (path, content) ∈ inside.leaves ↔ inside.get path = some (.inl content) :=
            ihInside ht.2.1
          have hrest : (n :: path, content) ∈ rest.leaves ↔ rest.get (n :: path) = some (.inl content) :=
            ihRest ht.2.2
          rw [leaves, get, List.mem_append, hrest]
          by_cases hn : name = n
          · subst hn
            have hnone : rest.get (name :: path) ≠ some (.inl content) := fun h =>
              ht.1 (name_mem_of_get h)
            rw [if_pos rfl, or_iff_left hnone, ← hinside, List.mem_map]
            constructor
            · rintro ⟨l, hl, heq⟩
              cases heq
              exact hl
            · intro h
              exact ⟨(path, content), h, rfl⟩
          · rw [if_neg hn]
            refine or_iff_right fun h => ?_
            obtain ⟨l, -, heq⟩ := List.mem_map.mp h
            cases heq
            exact hn rfl

end

end FileTree
