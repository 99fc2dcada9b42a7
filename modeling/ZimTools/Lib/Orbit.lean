import Mathlib.Logic.Function.Iterate
import Mathlib.Data.Finset.Card
import Mathlib.Data.Nat.Find

/-!
# Following a function

From a point one follows a function `f` until a stop is reached, if ever.  On a
bounded orbit the alternative is a cycle without stops (`not_reaches_iff`).

`exists_meet` is the termination of the two-speed search in which the fast
runner moves in every round and the slow one in every other round, the test
standing between the two moves: in some round below twice the bound the fast
runner, having moved, is where the slow one still stands.
`not_reaches_of_repeat` is its soundness.
-/

namespace Orbit

universe u

variable {α : Type u} {f : α → α} {stop : α → Prop}

/-- Following `f` from `x` reaches a stop. -/
def Reaches (f : α → α) (stop : α → Prop) (x : α) : Prop := ∃ k, stop (f^[k] x)

theorem Reaches.of_stop {x : α} (h : stop x) : Reaches f stop x := ⟨0, h⟩

theorem reaches_of_iterate {x : α} {k : Nat} (h : Reaches f stop (f^[k] x)) :
    Reaches f stop x := by
  obtain ⟨n, hn⟩ := h
  exact ⟨n + k, by rwa [Function.iterate_add_apply]⟩

/-- Points that are no stops can be skipped. -/
theorem reaches_iterate_iff {x : α} :
    ∀ {k : Nat}, (∀ j < k, ¬ stop (f^[j] x)) → (Reaches f stop (f^[k] x) ↔ Reaches f stop x) := by
  intro k hfree
  refine ⟨reaches_of_iterate, fun ⟨n, hn⟩ => ?_⟩
  have hkn : k ≤ n := by
    by_contra hlt
    exact hfree n (by omega) hn
  refine ⟨n - k, ?_⟩
  rwa [← Function.iterate_add_apply, Nat.sub_add_cancel hkn]

theorem reaches_next_iff {x : α} (h : ¬ stop x) : Reaches f stop (f x) ↔ Reaches f stop x :=
  reaches_iterate_iff (k := 1) fun j hj => by
    obtain rfl : j = 0 := by omega
    exact h

/-! ## Repeated points -/

/-- Behind a repeated point the orbit is periodic. -/
theorem iterate_periodic {x : α} {a p : Nat} (h : f^[a + p] x = f^[a] x) :
    ∀ (q n : Nat), a ≤ n → f^[n + p * q] x = f^[n] x
  | 0, n, _ => by rw [Nat.mul_zero, Nat.add_zero]
  | q + 1, n, hn => by
      have hstep : f^[n + p] x = f^[n] x := by
        rw [show n + p = (n - a) + (a + p) by omega, Function.iterate_add_apply, h,
          ← Function.iterate_add_apply, Nat.sub_add_cancel hn]
      calc f^[n + p * (q + 1)] x = f^[n + p + p * q] x := by
            rw [Nat.mul_succ, show n + (p * q + p) = n + p + p * q by omega]
        _ = f^[n + p] x := iterate_periodic h q (n + p) (by omega)
        _ = f^[n] x := hstep

/-- A repetition without a stop before it excludes stops altogether. -/
theorem not_reaches_of_repeat {x : α} {m n : Nat} (hmn : m < n) (heq : f^[n] x = f^[m] x)
    (hfree : ∀ k < n, ¬ stop (f^[k] x)) : ¬ Reaches f stop x := by
  have hper : f^[m + (n - m)] x = f^[m] x := by
    rw [show m + (n - m) = n by omega]
    exact heq
  rintro ⟨k, hk⟩
  by_cases hlt : k < n
  · exact hfree k hlt hk
  · -- fold the point back into the first period
    have hmod := Nat.mod_lt (k - m) (show 0 < n - m by omega)
    have hdiv := Nat.mod_add_div (k - m) (n - m)
    have hfold := iterate_periodic hper ((k - m) / (n - m)) (m + (k - m) % (n - m)) (by omega)
    rw [show m + (k - m) % (n - m) + (n - m) * ((k - m) / (n - m)) = k by omega] at hfold
    exact hfree (m + (k - m) % (n - m)) (by omega) (hfold ▸ hk)

/-! ## Bounded orbits -/

section Bounded

variable {index : α → Nat} {N : Nat} {x : α}

/-- Among the first `N + 1` points of an orbit bounded by `N` one is repeated. -/
theorem exists_repeat (hinj : Function.Injective index) (hbound : ∀ k, index (f^[k] x) < N) :
    ∃ a b, a < b ∧ b ≤ N ∧ f^[b] x = f^[a] x := by
  have hcard : (Finset.range N).card < (Finset.range (N + 1)).card := by simp
  obtain ⟨a, ha, b, hb, hne, heq⟩ :=
    Finset.exists_ne_map_eq_of_card_lt_of_maps_to (f := fun k => index (f^[k] x)) hcard
      (fun k _ => by simpa using hbound k)
  simp only [Finset.mem_range] at ha hb
  have hpoint : f^[a] x = f^[b] x := hinj heq
  rcases Nat.lt_or_gt_of_ne hne with hlt | hlt
  · exact ⟨a, b, hlt, by omega, hpoint.symm⟩
  · exact ⟨b, a, hlt, by omega, hpoint⟩

/-- A stop that is reached at all is reached within the bound. -/
theorem Reaches.exists_lt (hinj : Function.Injective index) (hbound : ∀ k, index (f^[k] x) < N)
    (h : Reaches f stop x) : ∃ k < N, stop (f^[k] x) := by
  classical
  obtain ⟨k, hk, hfirst⟩ : ∃ k, stop (f^[k] x) ∧ ∀ j < k, ¬ stop (f^[j] x) :=
    ⟨Nat.find h, Nat.find_spec h, fun j hj => Nat.find_min h hj⟩
  refine ⟨k, Nat.lt_of_not_le fun hle => ?_, hk⟩
  obtain ⟨a, b, hab, hbN, heq⟩ := exists_repeat hinj hbound
  exact not_reaches_of_repeat hab heq (fun j hj => hfirst j (by omega)) h

/-- The two runners of the search meet. -/
theorem exists_meet (hinj : Function.Injective index) (hbound : ∀ k, index (f^[k] x) < N) :
    ∃ t, t < 2 * N ∧ f^[t + 1] x = f^[t / 2] x := by
  obtain ⟨a, b, hab, hbN, heq⟩ := exists_repeat hinj hbound
  have hper : f^[a + (b - a)] x = f^[a] x := by rwa [show a + (b - a) = b by omega]
  -- the first multiple of the period above the tail is the distance to catch up
  obtain ⟨q, hq⟩ : ∃ q, a / (b - a) = q := ⟨_, rfl⟩
  have hdiv := Nat.div_add_mod a (b - a)
  have hmod := Nat.mod_lt a (show 0 < b - a by omega)
  have hsucc : (b - a) * (q + 1) = (b - a) * q + (b - a) := Nat.mul_succ _ _
  rw [hq] at hdiv
  obtain ⟨m, hm⟩ : ∃ m, (b - a) * (q + 1) = m + 1 :=
    ⟨(b - a) * q + (b - a) - 1, by omega⟩
  refine ⟨2 * m, by omega, ?_⟩
  have hcatch := iterate_periodic hper (q + 1) m (by omega)
  rw [hm] at hcatch
  rwa [show 2 * m + 1 = m + (m + 1) by omega, show 2 * m / 2 = m by omega]

/-- On a bounded orbit whose stops are fixed points, no stop is reached exactly
when the orbit runs into a cycle without stops. -/
theorem not_reaches_iff (hinj : Function.Injective index) (hbound : ∀ k, index (f^[k] x) < N)
    (hfix : ∀ y, stop y → f y = y) :
    ¬ Reaches f stop x ↔
      ∃ k p, 0 < p ∧ f^[k + p] x = f^[k] x ∧ ∀ j < p, ¬ stop (f^[k + j] x) := by
  constructor
  · intro h
    obtain ⟨a, b, hab, -, heq⟩ := exists_repeat hinj hbound
    refine ⟨a, b - a, by omega, by rwa [show a + (b - a) = b by omega], fun j _ hj => ?_⟩
    exact h ⟨a + j, hj⟩
  · rintro ⟨k, p, hp, heq, hcycle⟩
    refine not_reaches_of_repeat (m := k) (n := k + p) (by omega) heq fun j hj hstop => ?_
    by_cases hjk : j < k
    · -- a stop before the cycle would be the whole cycle
      have hstay : f^[k] x = f^[j] x := by
        rw [show k = (k - j) + j by omega, Function.iterate_add_apply]
        exact Function.iterate_fixed (hfix _ hstop) _
      exact hcycle 0 hp (by rw [Nat.add_zero, hstay]; exact hstop)
    · have := hcycle (j - k) (by omega)
      rw [show k + (j - k) = j by omega] at this
      exact this hstop

end Bounded

end Orbit
