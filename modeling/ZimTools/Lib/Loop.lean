import Mathlib.Logic.Relation

/-!
# Loops

A loop of an imperative program is a body that either goes on with a new state
or leaves with a result.  `run` executes it for a bounded number of passes, so
it is total and evaluates.  A loop that never leaves is `none` at every bound.

`run_total` is the rule of total correctness: an invariant, a measure the body
decreases, and a postcondition of the exits.  `run_invariant` is the rule
without the measure, for a loop that has left.

A program with loops and failures is a value of `ExceptT ε Option`: `none` when
it still runs at its bound, and otherwise a failure or a value.  `Returns` says
that it has come to a value.  Its lemmas take a program apart along its binds
and its folds.

`counted` is the loop `for (i = 0; i < size; i++)` whose counter is kept modulo
`m`, as a machine integer is.  Below the modulus it is a fold over the indices.
From the modulus on the counter wraps before it reaches the bound, and the loop
never returns (`returns_counted`).
-/

namespace Loop

universe u v

variable {σ : Type u} {ρ : Type v}

/-- Run a loop for at most `n` passes. -/
def run (body : σ → σ ⊕ ρ) : Nat → σ → Option ρ
  | 0, _ => none
  | n + 1, s =>
      match body s with
      | .inl s' => run body n s'
      | .inr r => some r

theorem run_succ_inl {body : σ → σ ⊕ ρ} {s s' : σ} (n : Nat) (h : body s = .inl s') :
    run body (n + 1) s = run body n s' := by
  simp [run, h]

theorem run_succ_inr {body : σ → σ ⊕ ρ} {s : σ} {r : ρ} (n : Nat) (h : body s = .inr r) :
    run body (n + 1) s = some r := by
  simp [run, h]

/-- More passes do not change a result. -/
theorem run_mono {body : σ → σ ⊕ ρ} {r : ρ} :
    ∀ {n m : Nat} {s : σ}, run body n s = some r → n ≤ m → run body m s = some r
  | 0, _, _, h, _ => by simp [run] at h
  | n + 1, 0, _, _, hle => by omega
  | n + 1, m + 1, s, h, hle => by
      cases hb : body s with
      | inl s' =>
          rw [run_succ_inl n hb] at h
          rw [run_succ_inl m hb]
          exact run_mono h (by omega)
      | inr r' =>
          rw [run_succ_inr n hb] at h
          rw [run_succ_inr m hb]
          exact h

/-- Total correctness.  Under the invariant every pass either keeps it and
decreases the measure, or leaves with a result that meets the postcondition. -/
theorem run_total (body : σ → σ ⊕ ρ) (Inv : σ → Prop) (Post : ρ → Prop) (measure : σ → Nat)
    (hstep : ∀ s s', Inv s → body s = .inl s' → Inv s' ∧ measure s' < measure s)
    (hexit : ∀ s r, Inv s → body s = .inr r → Post r) :
    ∀ (n : Nat) (s : σ), Inv s → measure s < n → ∃ r, run body n s = some r ∧ Post r
  | 0, _, _, hlt => by omega
  | n + 1, s, hs, hlt => by
      cases hb : body s with
      | inl s' =>
          obtain ⟨hs', hdec⟩ := hstep s s' hs hb
          rw [run_succ_inl n hb]
          exact run_total body Inv Post measure hstep hexit n s' hs' (by omega)
      | inr r => exact ⟨r, run_succ_inr n hb, hexit s r hs hb⟩

/-- Partial correctness. -/
theorem run_invariant {body : σ → σ ⊕ ρ} (Inv : σ → Prop) (Post : ρ → Prop)
    (hstep : ∀ s s', Inv s → body s = .inl s' → Inv s')
    (hexit : ∀ s r, Inv s → body s = .inr r → Post r) :
    ∀ {n : Nat} {s : σ} {r : ρ}, run body n s = some r → Inv s → Post r
  | 0, _, _, h, _ => by simp [run] at h
  | n + 1, s, r, h, hs => by
      cases hb : body s with
      | inl s' =>
          rw [run_succ_inl n hb] at h
          exact run_invariant Inv Post hstep hexit h (hstep s s' hs hb)
      | inr r' =>
          rw [run_succ_inr n hb] at h
          exact Option.some.inj h ▸ hexit s r' hs hb

/-- A loop that comes to a state from which it leaves has that result. -/
theorem run_of_steps {body : σ → σ ⊕ ρ} {s s' : σ} {r r' : ρ}
    (h : Relation.ReflTransGen (fun s s' => body s = .inl s') s s') (hexit : body s' = .inr r) :
    ∀ {n : Nat}, run body n s = some r' → r' = r := by
  induction h using Relation.ReflTransGen.head_induction_on with
  | refl =>
      intro n hrun
      cases n with
      | zero => exact nomatch hrun
      | succ n =>
          rw [run_succ_inr n hexit] at hrun
          exact (Option.some.inj hrun).symm
  | head hstep _ ih =>
      intro n hrun
      cases n with
      | zero => exact nomatch hrun
      | succ n =>
          rw [run_succ_inl n hstep] at hrun
          exact ih hrun

/-! ## Programs that return -/

section Returns

variable {ε α β : Type u}

/-- The program has come to the value `a`. -/
def Returns (x : ExceptT ε Option α) (a : α) : Prop := x.run = some (.ok a)

@[simp] theorem returns_pure {a b : α} : Returns (pure a : ExceptT ε Option α) b ↔ b = a := by
  simp only [Returns, ExceptT.run_pure, Option.pure_def, Option.some.injEq, Except.ok.injEq]
  exact eq_comm

@[simp] theorem returns_throw {e : ε} {a : α} :
    ¬ Returns (throw e : ExceptT ε Option α) a := by
  simp [Returns]

@[simp] theorem returns_bind {x : ExceptT ε Option α} {f : α → ExceptT ε Option β} {b : β} :
    Returns (x >>= f) b ↔ ∃ a, Returns x a ∧ Returns (f a) b := by
  rw [Returns, ExceptT.run_bind]
  cases h : x.run with
  | none => simp [Returns, h]
  | some r =>
      cases r with
      | error e => simp [Returns, h]
      | ok a => simp [Returns, h]

/-- The program has come to the failure `e`. -/
def Fails (x : ExceptT ε Option α) (e : ε) : Prop := x.run = some (.error e)

@[simp] theorem fails_pure {a : α} {e : ε} : ¬ Fails (pure a : ExceptT ε Option α) e := by
  simp [Fails]

@[simp] theorem fails_throw {e e' : ε} :
    Fails (throw e : ExceptT ε Option α) e' ↔ e' = e := by
  simp only [Fails, ExceptT.run_throw, Option.pure_def, Option.some.injEq, Except.error.injEq]
  exact eq_comm

theorem fails_bind {x : ExceptT ε Option α} {f : α → ExceptT ε Option β} {e : ε} :
    Fails (x >>= f) e ↔ Fails x e ∨ ∃ a, Returns x a ∧ Fails (f a) e := by
  rw [Fails, ExceptT.run_bind]
  cases h : x.run with
  | none => simp [Fails, Returns, h]
  | some r =>
      cases r with
      | error e' => simp [Fails, Returns, h]
      | ok a => simp [Fails, Returns, h]

theorem fails_bind_pure {x : ExceptT ε Option α} {f : α → β} {e : ε} :
    Fails (x >>= fun a => pure (f a)) e ↔ Fails x e := by
  rw [fails_bind]
  simp only [fails_pure, and_false, exists_false, or_false]

section Adapt

variable {ε' : Type u} {f : ε → ε'} {x : ExceptT ε Option α}

theorem returns_adapt {a : α} : Returns (ExceptT.adapt f x) a ↔ Returns x a := by
  change x.run.map (Except.mapError f) = some (.ok a) ↔ x.run = some (.ok a)
  obtain - | e | b := x.run
  · simp
  · change some (Except.error (f e)) = some (.ok a) ↔ _
    simp
  · change some (Except.ok b) = some (.ok a) ↔ _
    simp

theorem fails_adapt {e' : ε'} : Fails (ExceptT.adapt f x) e' ↔ ∃ e, Fails x e ∧ f e = e' := by
  change x.run.map (Except.mapError f) = some (.error e') ↔ ∃ e, x.run = some (.error e) ∧ f e = e'
  obtain - | e | b := x.run
  · simp
  · change some (Except.error (f e)) = some (.error e') ↔ _
    simp
  · change some (Except.ok b) = some (.error e') ↔ _
    simp

end Adapt

/-- A fold that returns has made a pass for each element. -/
theorem Returns.exists_pass {f : β → α → ExceptT ε Option β} {l : List α} {s r : β}
    (h : Returns (l.foldlM f s) r) : ∀ a ∈ l, ∃ s r, Returns (f s a) r := by
  induction l generalizing s with
  | nil => simp
  | cons a l ih =>
      rw [List.foldlM_cons, returns_bind] at h
      obtain ⟨s', ha, hl⟩ := h
      exact List.forall_mem_cons.mpr ⟨⟨s, s', ha⟩, ih hl⟩

/-- A fold returns when each of its passes does, from any state of an invariant. -/
theorem returns_foldlM {f : β → α → ExceptT ε Option β} {P : α → Prop} {g : β → α → β}
    (Inv : β → Prop) (hInv : ∀ s a, Inv s → Inv (g s a)) :
    ∀ {l : List α} {s r : β}, Inv s →
      (∀ a ∈ l, ∀ s r, Inv s → (Returns (f s a) r ↔ P a ∧ r = g s a)) →
      (Returns (l.foldlM f s) r ↔ (∀ a ∈ l, P a) ∧ r = l.foldl g s)
  | [], s, r, _, _ => by simp
  | a :: l, s, r, hs, h => by
      have ih := returns_foldlM Inv hInv (r := r) (hInv s a hs)
        fun b hb => h b (List.mem_cons_of_mem a hb)
      simp only [List.foldlM_cons, returns_bind, fun r => h a (List.mem_cons_self ..) s r hs,
        List.forall_mem_cons, List.foldl_cons, and_assoc, ← ih]
      constructor
      · rintro ⟨_, hP, rfl, hr⟩
        exact ⟨hP, hr⟩
      · rintro ⟨hP, hr⟩
        exact ⟨_, hP, rfl, hr⟩

end Returns

/-! ## Counted loops -/

section Counted

variable {τ ε : Type u}

/-- One pass of `for (i = 0; i < size; i++)` with a counter modulo `m`.  The
body may fail, and then the loop is left with its failure. -/
def countedPass (m size : Nat) (body : Nat → τ → Except ε τ) :
    Nat × τ → (Nat × τ) ⊕ Except ε τ
  | (i, s) =>
      if i < size then
        match body i s with
        | .ok s' => .inl ((i + 1) % m, s')
        | .error e => .inr (.error e)
      else .inr (.ok s)

/-- The counted loop from `i = 0`, for less than `fuel` passes of its body. -/
def counted (m size : Nat) (body : Nat → τ → Except ε τ) (fuel : Nat) (s : τ) :
    ExceptT ε Option τ :=
  ExceptT.mk (run (countedPass m size body) fuel (0, s))

variable {m size : Nat} {body : Nat → τ → Except ε τ}

theorem run_countedPass_of_lt {i fuel : Nat} {s s' : τ} (hi : i < size)
    (hb : body i s = .ok s') :
    run (countedPass m size body) (fuel + 1) (i, s) =
      run (countedPass m size body) fuel ((i + 1) % m, s') :=
  run_succ_inl fuel (by simp [countedPass, hi, hb])

theorem run_countedPass_of_error {i fuel : Nat} {s : τ} {e : ε} (hi : i < size)
    (hb : body i s = .error e) :
    run (countedPass m size body) (fuel + 1) (i, s) = some (.error e) :=
  run_succ_inr fuel (by simp [countedPass, hi, hb])

/-- While the counter stays below the modulus, the loop from `i` on is the fold
over the remaining `k` indices. -/
theorem run_countedPass_iff (hm : size < m) :
    ∀ {fuel k i : Nat} {s r : τ}, i + k = size →
      (run (countedPass m size body) fuel (i, s) = some (.ok r) ↔
        k < fuel ∧ (List.range' i k).foldlM (fun s i => body i s) s = .ok r)
  | 0, k, i, s, r, hi => by simp [run]
  | fuel + 1, 0, i, s, r, hi => by
      have hstop : ¬ i < size := by omega
      rw [run_succ_inr (r := .ok s) fuel (by simp [countedPass, hstop])]
      simp [pure, Except.pure]
  | fuel + 1, k + 1, i, s, r, hi => by
      rw [List.range'_succ, List.foldlM_cons]
      cases hb : body i s with
      | error e =>
          rw [run_countedPass_of_error (by omega) hb]
          simp [bind, Except.bind]
      | ok s' =>
          rw [run_countedPass_of_lt (by omega) hb, Nat.mod_eq_of_lt (by omega),
            run_countedPass_iff hm (by omega : i + 1 + k = size)]
          simp [bind, Except.bind]

/-- From the modulus on the counter never reaches the bound. -/
theorem run_countedPass_ne_ok (hm : 0 < m) (hsize : m ≤ size) :
    ∀ {fuel i : Nat} {s r : τ}, i < m →
      run (countedPass m size body) fuel (i, s) ≠ some (.ok r)
  | 0, i, s, r, _ => by simp [run]
  | fuel + 1, i, s, r, hi => by
      cases hb : body i s with
      | error e =>
          rw [run_countedPass_of_error (by omega) hb]
          simp
      | ok s' =>
          rw [run_countedPass_of_lt (by omega) hb]
          exact run_countedPass_ne_ok hm hsize (Nat.mod_lt _ hm)

/-- A counted loop returns when its bound is below the modulus and no pass
fails. -/
theorem returns_counted (hm : 0 < m) {fuel : Nat} {s r : τ} :
    Returns (counted m size body fuel s) r ↔ size < m ∧ size < fuel ∧
      (List.range' 0 size).foldlM (fun s i => body i s) s = .ok r := by
  change run (countedPass m size body) fuel (0, s) = some (.ok r) ↔ _
  by_cases hsize : size < m
  · simpa [hsize] using run_countedPass_iff hsize (Nat.zero_add size)
  · have hne : run (countedPass m size body) fuel (0, s) ≠ some (.ok r) :=
      run_countedPass_ne_ok hm (Nat.le_of_not_lt hsize) hm
    simpa [hsize] using hne

/-- Below the modulus enough fuel gives the result of the fold, also when it fails. -/
theorem run_countedPass_eq (hm : size < m) :
    ∀ {fuel k i : Nat} {s : τ}, i + k = size → k < fuel →
      run (countedPass m size body) fuel (i, s) =
        some ((List.range' i k).foldlM (fun s i => body i s) s)
  | 0, _, _, _, _, hk => absurd hk (Nat.not_lt_zero _)
  | fuel + 1, 0, i, s, hi, _ => by
      have hstop : ¬ i < size := by omega
      exact run_succ_inr fuel (by simp [countedPass, hstop, pure, Except.pure])
  | fuel + 1, k + 1, i, s, hi, hk => by
      rw [List.range'_succ, List.foldlM_cons]
      cases hb : body i s with
      | error e => exact run_countedPass_of_error (by omega) hb
      | ok s' =>
          rw [run_countedPass_of_lt (by omega) hb, Nat.mod_eq_of_lt (by omega)]
          exact run_countedPass_eq hm (by omega) (Nat.lt_of_succ_lt_succ hk)

/-- Below the modulus the loop fails when the fold does. -/
theorem fails_counted (hm : size < m) {s : τ} {e : ε} :
    (∃ fuel, Fails (counted m size body fuel s) e) ↔
      (List.range' 0 size).foldlM (fun s i => body i s) s = .error e := by
  have hrun : ∀ fuel, size < fuel → run (countedPass m size body) fuel (0, s) =
      some ((List.range' 0 size).foldlM (fun s i => body i s) s) :=
    fun fuel => run_countedPass_eq hm (Nat.zero_add size)
  constructor
  · rintro ⟨fuel, h⟩
    have hmore := run_mono h (Nat.le_max_left fuel (size + 1))
    rw [hrun _ (Nat.lt_of_lt_of_le (Nat.lt_succ_self size) (Nat.le_max_right ..))] at hmore
    exact Option.some.inj hmore
  · intro h
    exact ⟨size + 1, (hrun _ (Nat.lt_succ_self size)).trans (congrArg some h)⟩

/-- A loop does not fail when none of its passes does. -/
theorem run_countedPass_ne_error (hm : 0 < m)
    (hbody : ∀ i < m, i < size → ∀ s, ∃ s', body i s = .ok s') :
    ∀ {fuel i : Nat} {s : τ} {e : ε}, i < m →
      run (countedPass m size body) fuel (i, s) ≠ some (.error e)
  | 0, _, _, _, _ => by simp [run]
  | fuel + 1, i, s, e, hi => by
      by_cases hsize : i < size
      · obtain ⟨s', hb⟩ := hbody i hi hsize s
        rw [run_countedPass_of_lt hsize hb]
        exact run_countedPass_ne_error hm hbody (Nat.mod_lt _ hm)
      · rw [run_succ_inr (r := .ok s) fuel (by simp [countedPass, hsize])]
        simp

theorem not_fails_counted (hm : 0 < m)
    (hbody : ∀ i < m, i < size → ∀ s, ∃ s', body i s = .ok s') {fuel : Nat} {s : τ} {e : ε} :
    ¬ Fails (counted m size body fuel s) e :=
  run_countedPass_ne_error hm hbody hm

/-- The passes from a counter `i` to the next one at `j`. -/
def ahead (m j i : Nat) : Nat := if i ≤ j then j - i else m - i + j

theorem ahead_lt {j i : Nat} (hj : j < m) (hi : i < m) : ahead m j i < m := by
  rw [ahead]
  split <;> omega

theorem ahead_succ {j i : Nat} (hj : j < m) (hi : i < m) (hne : i ≠ j) :
    ahead m j ((i + 1) % m) < ahead m j i := by
  by_cases hwrap : i + 1 = m
  · rw [hwrap, Nat.mod_self, ahead, ahead, if_pos (Nat.zero_le j), if_neg (by omega)]
    omega
  · rw [Nat.mod_eq_of_lt (by omega), ahead, ahead]
    split <;> split <;> omega

/-- A pass at `j` decreases the measure, and any other one the way to `j`. -/
theorem countedPass_measure (hsize : m ≤ size) {j : Nat} (hj : j < m) (measure : τ → Nat)
    (hstep : ∀ i < m, ∀ s s', body i s = .ok s' →
      if i = j then measure s' < measure s else measure s' ≤ measure s)
    {i : Nat} (hi : i < m) {s : τ} {t : Nat × τ} (ht : countedPass m size body (i, s) = .inl t) :
    t.1 < m ∧ measure t.2 * m + ahead m j t.1 < measure s * m + ahead m j i := by
  have hm : 0 < m := Nat.zero_lt_of_lt hj
  rw [countedPass, if_pos (Nat.lt_of_lt_of_le hi hsize)] at ht
  cases hb : body i s with
  | error e =>
      rw [hb] at ht
      exact absurd ht Sum.inr_ne_inl
  | ok s' =>
      rw [hb] at ht
      obtain rfl := Sum.inl.inj ht
      refine ⟨Nat.mod_lt _ hm, ?_⟩
      have hlt := hstep i hi s s' hb
      dsimp only
      by_cases hij : i = j
      · rw [if_pos hij] at hlt
        have hahead := ahead_lt hj (Nat.mod_lt (i + 1) hm)
        calc measure s' * m + ahead m j ((i + 1) % m)
            < (measure s' + 1) * m := by rw [Nat.succ_mul]; omega
          _ ≤ measure s * m := Nat.mul_le_mul_right m hlt
          _ ≤ measure s * m + ahead m j i := Nat.le_add_right ..
      · rw [if_neg hij] at hlt
        exact Nat.add_lt_add_of_le_of_lt (Nat.mul_le_mul_right m hlt) (ahead_succ hj hi hij)

/-- A loop whose bound the counter never reaches fails in the end, when a pass
at `j` decreases a measure that no pass increases. -/
theorem fails_counted_of_wrap (hsize : m ≤ size) {j : Nat} (hj : j < m) {e : ε}
    (measure : τ → Nat)
    (hstep : ∀ i < m, ∀ s s', body i s = .ok s' →
      if i = j then measure s' < measure s else measure s' ≤ measure s)
    (hfail : ∀ i < m, ∀ s e', body i s = .error e' → e' = e) (s : τ) :
    ∃ fuel, Fails (counted m size body fuel s) e := by
  have hexit : ∀ (t : Nat × τ) r, t.1 < m → countedPass m size body t = .inr r →
      r = .error e := by
    rintro ⟨i, s⟩ r hi hr
    rw [countedPass, if_pos (Nat.lt_of_lt_of_le hi hsize)] at hr
    cases hb : body i s with
    | ok s' =>
        rw [hb] at hr
        exact absurd hr Sum.inl_ne_inr
    | error e' =>
        rw [hb] at hr
        rw [← Sum.inr.inj hr, hfail i hi s e' hb]
  obtain ⟨r, hr, rfl⟩ := run_total _ (·.1 < m) _ _
    (fun _ _ hi => countedPass_measure hsize hj measure hstep hi) hexit _ (0, s)
    (Nat.zero_lt_of_lt hj) (Nat.lt_succ_self _)
  exact ⟨measure s * m + ahead m j 0 + 1, hr⟩

/-- A loop over the indices of a list is a loop over its elements. -/
theorem foldlM_range'_getElem? {α : Type u} {f : τ → α → Except ε τ} {e : Except ε τ} :
    ∀ (before l : List α) (s : τ),
      (List.range' before.length l.length).foldlM
        (fun s i => (before ++ l)[i]?.elim e (f s)) s = l.foldlM f s
  | before, [], s => rfl
  | before, a :: l, s => by
      rw [List.length_cons, List.range'_succ, List.foldlM_cons, List.foldlM_cons,
        List.getElem?_append_right (Nat.le_refl _), Nat.sub_self, List.getElem?_cons_zero]
      refine bind_congr fun s' => ?_
      have ih := foldlM_range'_getElem? (f := f) (e := e) (before ++ [a]) l s'
      rwa [List.length_append, List.length_singleton, List.append_assoc,
        List.singleton_append] at ih

end Counted

end Loop
