import Mathlib.Algebra.BigOperators.Group.List.Basic
import Mathlib.Tactic.Abel

/-!
# Running sums

A checksum of two sums adds up the elements of a list, and at each element adds
the first sum to the second one.  `sums` is the loop, over any commutative
monoid, and `sums_eq` what it comes to: the sum of the elements, and the sum of
all first sums on the way.  In the second sum an element counts as often as
there are elements from it on (`sum_firstSums`).

In a group two such loops over the same elements, one of which takes something
off each element, come to the same exactly when what is taken off cancels in
both sums (`sums_sub_eq_iff`).
-/

namespace RunningSums

universe u v w

variable {M : Type u}

section Monoid

variable [AddCommMonoid M]

/-- A pass over an element. -/
def next (s : M × M) (d : M) : M × M := (s.1 + d, s.2 + (s.1 + d))

def sums (s : M × M) (l : List M) : M × M := l.foldl next s

/-- The first sum behind each element. -/
def firstSums (s : M) : List M → List M
  | [] => []
  | d :: l => (s + d) :: firstSums (s + d) l

/-- The sum in which an element counts as often as there are elements from it on. -/
def weighted : List M → M
  | [] => 0
  | d :: l => (l.length + 1) • d + weighted l

theorem sums_eq (s t : M) (l : List M) :
    sums (s, t) l = (s + l.sum, t + (firstSums s l).sum) := by
  induction l generalizing s t with
  | nil => simp [sums, firstSums]
  | cons d l ih =>
      rw [sums, List.foldl_cons, ← sums, next, ih, firstSums, List.sum_cons, List.sum_cons]
      simp only [add_assoc]

theorem sum_firstSums (s : M) (l : List M) :
    (firstSums s l).sum = l.length • s + weighted l := by
  induction l generalizing s with
  | nil => simp [firstSums, weighted]
  | cons d l ih =>
      rw [firstSums, List.sum_cons, ih, weighted, List.length_cons, nsmul_add, succ_nsmul,
        succ_nsmul]
      abel

theorem weighted_eq_zero {l : List M} (h : ∀ d ∈ l, d = 0) : weighted l = 0 := by
  induction l with
  | nil => rfl
  | cons d l ih =>
      obtain ⟨rfl, hl⟩ := List.forall_mem_cons.mp h
      rw [weighted, ih hl, nsmul_zero, add_zero]

section Map

variable {N : Type v} {F : Type w} [AddCommMonoid N] [FunLike F M N] [AddMonoidHomClass F M N] (f : F)

theorem map_firstSums (s : M) (l : List M) :
    (firstSums s l).map f = firstSums (f s) (l.map f) := by
  induction l generalizing s with
  | nil => rfl
  | cons d l ih => rw [firstSums, List.map_cons, ih, map_add, List.map_cons, firstSums]

theorem map_weighted (l : List M) : f (weighted l) = weighted (l.map f) := by
  induction l with
  | nil => exact map_zero f
  | cons d l ih => rw [weighted, map_add, map_nsmul, ih, List.map_cons, weighted, List.length_map]

end Map

end Monoid

section Group

variable [AddCommGroup M]

theorem sum_sub (l : List (M × M)) : (l.map fun p => p.1 - p.2).sum =
    (l.map Prod.fst).sum - (l.map Prod.snd).sum := by
  induction l with
  | nil => simp
  | cons p l ih =>
      rw [List.map_cons, List.map_cons, List.map_cons, List.sum_cons, List.sum_cons, List.sum_cons, ih]
      abel

theorem weighted_sub (l : List (M × M)) : weighted (l.map fun p => p.1 - p.2) =
    weighted (l.map Prod.fst) - weighted (l.map Prod.snd) := by
  induction l with
  | nil => simp [weighted]
  | cons p l ih =>
      simp only [List.map_cons, weighted, List.length_map, ih, nsmul_sub]
      abel

/-- What is taken off changes nothing when it cancels in both sums. -/
theorem sums_sub_eq_iff (s t : M) (l : List (M × M)) :
    sums (s, t) (l.map fun p => p.1 - p.2) = sums (s, t) (l.map Prod.fst) ↔
      (l.map Prod.snd).sum = 0 ∧ weighted (l.map Prod.snd) = 0 := by
  rw [sums_eq, sums_eq, sum_firstSums, sum_firstSums, List.length_map, List.length_map, sum_sub,
    weighted_sub, Prod.mk.injEq]
  simp only [add_right_inj, sub_eq_self]

end Group

end RunningSums
