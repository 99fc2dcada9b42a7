import ZimTools.Cache.ConcurrentCache
import ZimTools.Lib.Progress

/-!
# No call waits for ever

A call of `ConcurrentCache::getOrPut` waits on a placeholder.  The placeholder may
have been evicted since, and its call may be about to throw.  All the same a call
only ever waits for one with its own key that runs its generator, or has just done
so and can go on by itself (`Owned`, `calls_end`).  Each call takes at most four
steps, so that all calls end once the generators do, and the calls with other
keys are never held up.
-/

namespace ZimTools

open Transition

namespace ConcurrentCache

variable {ι κ υ ε : Type} [DecidableEq ι] [DecidableEq κ]

/-! ## The steps of a call -/

/-- The call that takes a step. -/
def Action.call : Action ι υ ε → ι
  | .lookup i | .generate i _ | .fulfil i | .drop i | .unwind i | .wait i => i

/-- The steps that a call has in front of it, at most. -/
def Phase.weight : Phase ι υ ε → Nat
  | .calling => 4
  | .generating _ => 3
  | .fulfilling .. | .dropping _ => 2
  | .unwinding _ | .waiting _ => 1
  | .returned _ | .threw _ => 0

/-- A step moves one call on, to a phase with less in front of it. -/
theorem phase_step {key : ι → κ} {s s' : State ι κ υ ε} {a : Action ι υ ε}
    (hs : step key s a = some s') :
    ∃ p : Phase ι υ ε, s'.phase = Function.update s.phase a.call p ∧
      p.weight < (s.phase a.call).weight := by
  cases step_cases hs with
  | @lookup i hi =>
      rw [lookup_eq]
      refine ⟨_, rfl, ?_⟩
      rw [Action.call, hi]
      split <;> simp [Phase.weight]
  | value hi => exact ⟨_, rfl, by simp [Action.call, hi, Phase.weight]⟩
  | stdException hi => exact ⟨_, rfl, by simp [Action.call, hi, Phase.weight]⟩
  | otherException hi => exact ⟨_, rfl, by simp [Action.call, hi, Phase.weight]⟩
  | fulfil hi => exact ⟨_, rfl, by simp [Action.call, hi, Phase.weight]⟩
  | drop hi => exact ⟨_, rfl, by simp [Action.call, hi, Phase.weight]⟩
  | unwind hi => exact ⟨_, rfl, by simp [Action.call, hi, Phase.weight]⟩
  | noSuchKey hi _ => exact ⟨_, rfl, by simp [Action.call, hi, Phase.weight]⟩
  | returned hi _ _ => exact ⟨_, rfl, by simp [Action.call, hi, Phase.weight]⟩
  | brokenPromise hi _ _ => exact ⟨_, rfl, by simp [Action.call, hi, Phase.weight]⟩

/-- Every step of a call leaves it with one less. -/
theorem measured (key : ι → κ) (i : ι) :
    Measured (step (υ := υ) (ε := ε) key) (fun a => a.call = i) (fun _ => false)
      fun s => (s.phase i).weight := by
  intro s s' a hs
  obtain ⟨p, hphase, hweight⟩ := phase_step hs
  dsimp only
  rw [hphase]
  by_cases hi : a.call = i
  · subst hi
    rw [Function.update_self, decide_eq_true rfl]
    exact hweight
  · rw [Function.update_of_ne (Ne.symm hi), decide_eq_false hi]

/-! ## The placeholders -/

/-- A call that has missed and has not settled its promise. -/
def Busy : Phase ι υ ε → Prop
  | .generating _ | .fulfilling .. | .dropping _ | .unwinding _ => True
  | _ => False

/-- The promise of a placeholder is settled, or its call is on the way to it. -/
def Alive (s : State ι κ υ ε) (p : ι) : Prop := s.promise p ≠ .pending ∨ Busy (s.phase p)

/-- The placeholder that a call has looked up. -/
def Phase.seen : Phase ι υ ε → Option ι
  | .generating x | .fulfilling x _ | .waiting x => x.value
  | _ => none

/-- No placeholder that a call can come to is left alone. -/
structure Owned (s : State ι κ υ ε) : Prop where
  cached : ∀ e ∈ s.impl.contents, Alive s e.2
  seen : ∀ i p, (s.phase i).seen = some p → Alive s p

omit [DecidableEq ι] in
theorem owned_start (maxEntries : Nat) : Owned (start maxEntries : State ι κ υ ε) where
  cached := by simp [start]
  seen := nofun

omit [DecidableEq ι] in
/-- A lookup that hits leaves the placeholders that there are; one that misses
adds its own. -/
theorem lookup_cases (s : State ι κ υ ε) (k : κ) (i : ι) :
    (∃ p, (k, p) ∈ s.impl.contents ∧ (s.impl.getOrPut k i).2 = .hit p ∧
      ∀ e ∈ (s.impl.getOrPut k i).1.contents, e ∈ s.impl.contents) ∨
    (s.impl.getOrPut k i).2 = .put i ∧
      ∀ e ∈ (s.impl.getOrPut k i).1.contents, e ∈ s.impl.contents ∨ e.2 = i := by
  obtain ⟨hcontents, hanswer⟩ := Prod.ext_iff.mp (s.impl.getOrPut_contents k i)
  dsimp only at hcontents hanswer
  rw [hcontents, hanswer, Recency.getOrPut]
  cases hlookup : s.impl.contents.lookup k with
  | some p =>
      refine Or.inl ⟨p, Recency.mem_of_lookup hlookup, rfl, fun e he => ?_⟩
      rcases List.mem_cons.mp he with rfl | he
      · exact Recency.mem_of_lookup hlookup
      · exact (Recency.mem_remove.mp he).1
  | none =>
      refine Or.inr ⟨rfl, fun e he => ?_⟩
      rcases List.mem_cons.mp (List.mem_of_mem_take he) with rfl | he
      · exact Or.inr rfl
      · exact Or.inl he

/-- A promise that is settled stays so. -/
theorem settled_step {key : ι → κ} {s s' : State ι κ υ ε} {a : Action ι υ ε}
    (hs : step key s a = some s') {p : ι} (h : s.promise p ≠ .pending) :
    s'.promise p ≠ .pending := by
  cases step_cases hs with
  | lookup hi =>
      rw [lookup_eq]
      exact h
  | @fulfil i x v hi =>
      show Function.update s.promise i (.fulfilled v) p ≠ .pending
      rw [Function.update_apply]
      split
      · nofun
      · exact h
  | @unwind i e hi =>
      show Function.update s.promise i .abandoned p ≠ .pending
      rw [Function.update_apply]
      split
      · nofun
      · exact h
  | _ => exact h

/-- A busy call stays so until it has settled its promise. -/
theorem busy_step {key : ι → κ} {s s' : State ι κ υ ε} {a : Action ι υ ε}
    (hs : step key s a = some s') {p : ι} (h : Busy (s.phase p)) : Alive s' p := by
  obtain ⟨q, hphase, -⟩ := phase_step hs
  by_cases hcall : a.call = p
  · subst hcall
    cases step_cases hs with
    | lookup hi => exact absurd h (by rw [Action.call, hi]; exact id)
    | value hi => exact Or.inr (by simp [State.goto, Action.call, Busy])
    | stdException hi => exact Or.inr (by simp [State.goto, Action.call, Busy])
    | otherException hi => exact Or.inr (by simp [State.goto, Action.call, Busy])
    | fulfil hi => exact Or.inl (by simp [State.goto, State.settle, Action.call])
    | drop hi => exact Or.inr (by simp [State.goto, Action.call, Busy])
    | unwind hi => exact Or.inl (by simp [State.goto, State.settle, Action.call])
    | noSuchKey hi _ => exact absurd h (by rw [Action.call, hi]; exact id)
    | returned hi _ _ => exact absurd h (by rw [Action.call, hi]; exact id)
    | brokenPromise hi _ _ => exact absurd h (by rw [Action.call, hi]; exact id)
  · refine Or.inr ?_
    rw [hphase, Function.update_of_ne (Ne.symm hcall)]
    exact h

theorem alive_step {key : ι → κ} {s s' : State ι κ υ ε} {a : Action ι υ ε}
    (hs : step key s a = some s') {p : ι} (h : Alive s p) : Alive s' p :=
  h.elim (fun hp => Or.inl (settled_step hs hp)) (busy_step hs)

/-- Beside a lookup, what a call sees it has seen before, and what is cached was. -/
theorem seen_step {key : ι → κ} {s s' : State ι κ υ ε} {a : Action ι υ ε}
    (hs : step key s a = some s') (ha : ∀ i, a ≠ .lookup i) :
    (∀ e ∈ s'.impl.contents, e ∈ s.impl.contents) ∧
      ∀ i p, (s'.phase i).seen = some p → (s.phase i).seen = some p := by
  have hgoto : ∀ {j : ι} {q : Phase ι υ ε},
      (∀ p, q.seen = some p → (s.phase j).seen = some p) →
        ∀ i p, (Function.update s.phase j q i).seen = some p → (s.phase i).seen = some p := by
    intro j q hq i p hp
    rw [Function.update_apply] at hp
    split at hp
    · next hij => exact hij ▸ hq p hp
    · exact hp
  cases step_cases hs with
  | lookup hi => exact absurd rfl (ha _)
  | value hi => exact ⟨fun _ he => he, hgoto fun p hp => by rw [hi]; exact hp⟩
  | fulfil hi => exact ⟨fun _ he => he, hgoto fun p hp => by rw [hi]; exact hp⟩
  | @drop i e hi =>
      refine ⟨fun e he => ?_, hgoto nofun⟩
      have hmem : e ∈ (s.impl.drop (key i)).1.contents := he
      rw [show LruCache.contents _ = _ from congrArg Prod.fst (s.impl.drop_contents _)] at hmem
      exact (Recency.mem_remove.mp hmem).1
  | _ => exact ⟨fun _ he => he, hgoto nofun⟩

/-- A call that has looked its key up sees a placeholder that is alive. -/
theorem owned_lookup {key : ι → κ} {s : State ι κ υ ε} {i : ι} (hi : s.phase i = .calling)
    (h : Owned s) : Owned (lookup key s i) := by
  have hs : step key s (.lookup i) = some (lookup key s i) := by rw [step, hi]
  have hold : ∀ j p, j ≠ i → ((lookup key s i).phase j).seen = some p →
      Alive (lookup key s i) p := by
    intro j p hj hp
    rw [lookup_eq, State.goto] at hp
    dsimp only at hp
    rw [Function.update_of_ne hj] at hp
    exact alive_step hs (h.seen j p hp)
  have hcached : ∀ e ∈ s.impl.contents, Alive (lookup key s i) e.2 := fun e he =>
    alive_step hs (h.cached e he)
  rcases lookup_cases s (key i) i with ⟨p, hmem, hhit, hcontents⟩ | ⟨hput, hcontents⟩
  · have hphase : (lookup key s i).phase i = .waiting (.hit p) := by
      rw [lookup_eq, hhit]
      exact Function.update_self ..
    refine ⟨fun e he => hcached e (hcontents e ?_), fun j q hq => ?_⟩
    · rw [lookup_eq] at he
      exact he
    · by_cases hj : j = i
      · subst hj
        rw [hphase] at hq
        obtain rfl : p = q := Option.some.inj hq
        exact hcached _ hmem
      · exact hold j q hj hq
  · have hphase : (lookup key s i).phase i = .generating (.put i) := by
      rw [lookup_eq, hput]
      exact Function.update_self ..
    have hown : Alive (lookup key s i) i := Or.inr (by rw [hphase]; trivial)
    refine ⟨fun e he => ?_, fun j q hq => ?_⟩
    · rw [lookup_eq] at he
      rcases hcontents e he with he | he
      · exact hcached e he
      · exact he ▸ hown
    · by_cases hj : j = i
      · subst hj
        rw [hphase] at hq
        obtain rfl : j = q := Option.some.inj hq
        exact hown
      · exact hold j q hj hq

theorem owned_step {key : ι → κ} {s s' : State ι κ υ ε} {a : Action ι υ ε}
    (hs : step key s a = some s') (h : Owned s) : Owned s' := by
  by_cases ha : ∃ i, a = .lookup i
  · obtain ⟨i, rfl⟩ := ha
    cases step_cases hs with
    | lookup hi => exact owned_lookup hi h
  · obtain ⟨hcached, hseen⟩ := seen_step hs fun i hi => ha ⟨i, hi⟩
    exact ⟨fun e he => alive_step hs (h.cached e (hcached e he)),
      fun i p hp => alive_step hs (h.seen i p (hseen i p hp))⟩

/-! ## A run -/

/-- A call that runs its generator, or can take a step of its own. -/
def GoesOn (key : ι → κ) (s : State ι κ υ ε) (i : ι) : Prop :=
  (∃ x, s.phase i = .generating x) ∨ ∃ a s', a.call = i ∧ step key s a = some s'

/-- A call that has returned or thrown. -/
def Ended (s : State ι κ υ ε) (i : ι) : Prop :=
  (∃ v, s.phase i = .returned v) ∨ ∃ t, s.phase i = .threw t

/-- A call that is on the way to settle its promise does not wait. -/
theorem goesOn_of_busy {key : ι → κ} {s : State ι κ υ ε} {p : ι} (h : Busy (s.phase p)) :
    GoesOn key s p := by
  cases hp : s.phase p with
  | generating x => exact Or.inl ⟨x, hp⟩
  | fulfilling x v => exact Or.inr ⟨.fulfil p, _, rfl, by rw [step, hp]⟩
  | dropping e => exact Or.inr ⟨.drop p, _, rfl, by rw [step, hp]⟩
  | unwinding e => exact Or.inr ⟨.unwind p, _, rfl, by rw [step, hp]⟩
  | calling => exact absurd h (by rw [hp]; exact id)
  | waiting x => exact absurd h (by rw [hp]; exact id)
  | returned v => exact absurd h (by rw [hp]; exact id)
  | threw t => exact absurd h (by rw [hp]; exact id)

/-- A call that waits can go on, or a call with its key can. -/
theorem goesOn_of_waiting {key : ι → κ} {made : ι → υ → Prop} {s : State ι κ υ ε} {i : ι}
    {x : AccessResult ι} (hi : s.phase i = .waiting x) (hsound : Sound key made s)
    (howned : Owned s) : GoesOn key s i ∨ ∃ p, key p = key i ∧ GoesOn key s p := by
  have hknows := hsound.knows i
  rw [hi] at hknows
  obtain ⟨p, hx, hkey⟩ := hknows
  have halive : Alive s p := howned.seen i p (by rw [hi]; exact hx)
  cases hp : s.promise p with
  | pending =>
      have hbusy : Busy (s.phase p) := halive.resolve_left fun hne => hne hp
      exact Or.inr ⟨p, hkey, goesOn_of_busy hbusy⟩
  | fulfilled v =>
      exact Or.inl (Or.inr ⟨.wait i, s.goto i (.returned v), rfl,
        by simp only [step, hi, wait, hx, hp]⟩)
  | abandoned =>
      exact Or.inl (Or.inr ⟨.wait i, s.goto i (.threw .brokenPromise), rfl,
        by simp only [step, hi, wait, hx, hp]⟩)

/-- Any number of calls, in any order of their steps, with a cache of any size
and generators that may throw: each call takes at most four steps, and one that
has not ended can go on, or waits for one with the same key that can. -/
theorem calls_end {key : ι → κ} {maxEntries : Nat}
    {tr : List (Taken (State ι κ υ ε) (Action ι υ ε))} {s : State ι κ υ ε}
    (h : Run (step key) (start maxEntries) tr s) (i : ι) :
    steps (fun a => a.call = i) tr ≤ 4 ∧
      (Ended s i ∨ GoesOn key s i ∨ ∃ p, key p = key i ∧ GoesOn key s p) := by
  have howned : Owned s := h.invariant Owned (fun _ => True) (owned_start maxEntries)
    (fun _ hs _ hi => owned_step hs hi) fun _ _ => trivial
  constructor
  · have hlength := h.length_le (measured key i)
    have hanswers : steps (fun _ : Action ι υ ε => false) tr = 0 := by simp [steps]
    have hstart : ((start maxEntries : State ι κ υ ε).phase i).weight = 4 := rfl
    rw [hanswers, hstart] at hlength
    omega
  · cases hi : s.phase i with
    | calling => exact Or.inr (Or.inl (Or.inr ⟨.lookup i, _, rfl, by rw [step, hi]⟩))
    | generating x => exact Or.inr (Or.inl (goesOn_of_busy (by rw [hi]; trivial)))
    | fulfilling x v => exact Or.inr (Or.inl (goesOn_of_busy (by rw [hi]; trivial)))
    | dropping e => exact Or.inr (Or.inl (goesOn_of_busy (by rw [hi]; trivial)))
    | unwinding e => exact Or.inr (Or.inl (goesOn_of_busy (by rw [hi]; trivial)))
    | waiting x => exact Or.inr (goesOn_of_waiting hi (sound_run h) howned)
    | returned v => exact Or.inl (Or.inl ⟨v, hi⟩)
    | threw t => exact Or.inl (Or.inr ⟨t, hi⟩)

/-- In the run of `outlived` the call 1 waits on a placeholder that was evicted. -/
theorem calls_end_outlived : ∃ tr s,
    Run (step (· / 2)) (start 1 : State Nat Nat Nat Unit) tr s ∧ s.impl.holds 0 = false ∧
      steps (fun a => a.call = 1) tr ≤ 4 ∧
        (Ended s 1 ∨ GoesOn (· / 2) s 1 ∨ ∃ p, p / 2 = 1 / 2 ∧ GoesOn (· / 2) s p) :=
  have h : Run (step (· / 2)) (start 1) _ _ := run_of_exec outlived rfl
  ⟨_, _, h, rfl, calls_end h 1⟩

end ConcurrentCache
end ZimTools
