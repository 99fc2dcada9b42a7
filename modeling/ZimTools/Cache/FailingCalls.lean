import ZimTools.Cache.ConcurrentCache

/-!
# Calls whose generator throws

A call of `ConcurrentCache::getOrPut` that fails is to take its own placeholder
out of the cache, and nothing else.  The code drops whatever is cached under its
key, and does so for a `std::exception` only.

A run keeps to what is expected (`CleansUp`) exactly when no call that drops its
key finds the placeholder of another call there (`FindsOwn`), and no call that
threw something else still has its slot when it ends (`LosesSlot`): this is
`failing_calls_iff`.  In `takesAnothers` a call whose slot was evicted takes out
the placeholder of the call that came after it.
-/

namespace ZimTools

open Transition

namespace ConcurrentCache

variable {ι κ υ ε : Type} [DecidableEq ι] [DecidableEq κ]

/-- The steps of a call from the exception of its generator on. -/
inductive Fails (i : ι) : Action ι υ ε → Prop where
  | stdException (e : ε) : Fails i (.generate i (.stdException e))
  | otherException (e : ε) : Fails i (.generate i (.otherException e))
  | drop : Fails i (.drop i)
  | unwind : Fails i (.unwind i)

/-- What is expected of a step. -/
structure CleansUp (key : ι → κ) (t : Taken (State ι κ υ ε) (Action ι υ ε)) : Prop where
  /-- A failing call takes out nothing but its own placeholder, -/
  kept : ∀ i, Fails i t.label → ∀ e ∈ t.pre.impl.contents, e ≠ (key i, i) →
    e ∈ t.post.impl.contents
  /-- which is out of the cache when the call ends. -/
  removed : ∀ i, t.label = .unwind i → (key i, i) ∉ t.post.impl.contents
  /-- No placeholder of a call that has ended without a value is cached. -/
  fulfillable : ∀ e ∈ t.post.impl.contents, t.post.promise e.2 ≠ .abandoned

/-- A call that drops its key finds its own placeholder there, or none. -/
def FindsOwn (key : ι → κ) (t : Taken (State ι κ υ ε) (Action ι υ ε)) : Prop :=
  ∀ i, t.label = .drop i → ∀ p, (key i, p) ∈ t.pre.impl.contents → p = i

/-- The generator of a call threw something else than a `std::exception`. -/
def ThrewOther (tr : List (Taken (State ι κ υ ε) (Action ι υ ε))) (i : ι) : Prop :=
  ∃ t ∈ tr, ∃ e, t.label = .generate i (.otherException e)

/-- A call that threw something else has lost its slot by the time it ends. -/
def LosesSlot (key : ι → κ) (tr : List (Taken (State ι κ υ ε) (Action ι υ ε)))
    (t : Taken (State ι κ υ ε) (Action ι υ ε)) : Prop :=
  ∀ i, t.label = .unwind i → ThrewOther tr i → (key i, i) ∉ t.pre.impl.contents

/-! ## What a step does to placeholders -/

theorem phase_goto (s : State ι κ υ ε) (i j : ι) (p : Phase ι υ ε) :
    (s.goto i p).phase j = if j = i then p else s.phase j := by
  simp [State.goto, Function.update_apply]

theorem promise_settle (s : State ι κ υ ε) (i j : ι) (p : Promise υ) :
    (s.settle i p).promise j = if j = i then p else s.promise j := by
  simp [State.settle, Function.update_apply]

omit [DecidableEq ι] in
theorem contents_drop (s : State ι κ υ ε) (k : κ) :
    (s.impl.drop k).1.contents = Recency.remove k s.impl.contents :=
  congrArg Prod.fst (s.impl.drop_contents k)

/-- Only the lookup of a call puts its placeholder into the cache. -/
theorem mem_contents_step {key : ι → κ} {s s' : State ι κ υ ε} {a : Action ι υ ε}
    (hs : step key s a = some s') {e : κ × ι} (he : e ∈ s'.impl.contents) :
    e ∈ s.impl.contents ∨ ∃ i, a = .lookup i ∧ s.phase i = .calling ∧ e = (key i, i) := by
  cases step_cases hs with
  | @lookup i hi =>
      rw [lookup_eq] at he
      have hcontents := (Prod.ext_iff.mp (s.impl.getOrPut_contents (key i) i)).1
      have hmem : e ∈ (s.impl.getOrPut (key i) i).1.contents := he
      rw [show LruCache.contents _ = _ from hcontents] at hmem
      rcases Recency.mem_of_mem_getOrPut hmem with hmem | hnew
      · exact Or.inl hmem
      · exact Or.inr ⟨i, rfl, hi, hnew⟩
  | @drop i e' hi =>
      have hmem : e ∈ (s.impl.drop (key i)).1.contents := he
      rw [contents_drop] at hmem
      exact Or.inl (Recency.mem_remove.mp hmem).1
  | _ => exact Or.inl he

/-- Only the end of a failing call abandons its promise. -/
theorem abandoned_step {key : ι → κ} {s s' : State ι κ υ ε} {a : Action ι υ ε}
    (hs : step key s a = some s') {p : ι} (hp : s'.promise p = .abandoned) :
    s.promise p = .abandoned ∨ a = .unwind p := by
  cases step_cases hs with
  | lookup hi =>
      rw [lookup_eq] at hp
      exact Or.inl hp
  | @fulfil i x v hi =>
      have hsettle : (s.settle i (.fulfilled v)).promise p = .abandoned := hp
      rw [promise_settle] at hsettle
      split at hsettle
      · exact nomatch hsettle
      · exact Or.inl hsettle
  | @unwind i e hi =>
      have hsettle : (s.settle i .abandoned).promise p = .abandoned := hp
      rw [promise_settle] at hsettle
      split at hsettle
      · next h => exact Or.inr (h ▸ rfl)
      · exact Or.inl hsettle
  | _ => exact Or.inl hp

/-- A call that has taken a step is never back where it started. -/
theorem calling_step {key : ι → κ} {s s' : State ι κ υ ε} {a : Action ι υ ε}
    (hs : step key s a = some s') {p : ι} (hp : s'.phase p = .calling) :
    s.phase p = .calling ∧ a ≠ .unwind p := by
  cases step_cases hs with
  | @lookup i hi =>
      rw [lookup_eq, phase_goto] at hp
      split at hp
      · split at hp <;> exact nomatch hp
      · exact ⟨hp, nofun⟩
  | unwind hi =>
      rw [phase_goto] at hp
      split at hp
      · exact nomatch hp
      · next hne =>
          refine ⟨hp, fun h => hne ?_⟩
          exact (Action.unwind.inj h).symm
  | _ =>
      rw [phase_goto] at hp
      split at hp
      · exact nomatch hp
      · exact ⟨hp, nofun⟩

/-- A call unwinds when it threw something else, or has dropped its key. -/
theorem unwinding_step {key : ι → κ} {s s' : State ι κ υ ε} {a : Action ι υ ε}
    (hs : step key s a = some s') {i : ι} {e : ε} (hi : s'.phase i = .unwinding e) :
    s.phase i = .unwinding e ∨ a = .generate i (.otherException e) ∨
      (key i, i) ∉ s'.impl.contents := by
  cases step_cases hs with
  | lookup hj =>
      rw [lookup_eq, phase_goto] at hi
      split at hi
      · split at hi <;> exact nomatch hi
      · exact Or.inl hi
  | otherException hj =>
      rw [phase_goto] at hi
      split at hi
      · next h =>
          cases h
          cases hi
          exact Or.inr (Or.inl rfl)
      · exact Or.inl hi
  | @drop j e' hj =>
      rw [phase_goto] at hi
      split at hi
      · next h =>
          cases h
          refine Or.inr (Or.inr fun hmem => ?_)
          have hdrop : (key i, i) ∈ (s.impl.drop (key i)).1.contents := hmem
          rw [contents_drop] at hdrop
          exact (Recency.mem_remove.mp hdrop).2 rfl
      · exact Or.inl hi
  | _ =>
      rw [phase_goto] at hi
      split at hi
      · exact nomatch hi
      · exact Or.inl hi

/-! ## Runs -/

omit [DecidableEq ι] in
theorem ThrewOther.append {tr : List (Taken (State ι κ υ ε) (Action ι υ ε))} {i : ι}
    (h : ThrewOther tr i) (tr' : List (Taken (State ι κ υ ε) (Action ι υ ε))) :
    ThrewOther (tr ++ tr') i := by
  obtain ⟨t, ht, hl⟩ := h
  exact ⟨t, List.mem_append_left _ ht, hl⟩

/-- What holds in every run: a call whose promise is abandoned has begun, and a
call that unwinds threw something else or has no slot. -/
structure Tracked (key : ι → κ) (tr : List (Taken (State ι κ υ ε) (Action ι υ ε)))
    (s : State ι κ υ ε) : Prop where
  begun : ∀ p, s.promise p = .abandoned → s.phase p ≠ .calling
  unwinding : ∀ i e, s.phase i = .unwinding e →
    ThrewOther tr i ∨ (key i, i) ∉ s.impl.contents

theorem tracked_run {key : ι → κ} {maxEntries : Nat}
    {tr : List (Taken (State ι κ υ ε) (Action ι υ ε))} {s : State ι κ υ ε}
    (h : Run (step key) (start maxEntries) tr s) : Tracked key tr s := by
  induction h with
  | nil => exact ⟨nofun, nofun⟩
  | @snoc tr s s' a hrun hs ih =>
      constructor
      · intro p hp hcalling
        obtain ⟨hbefore, ha⟩ := calling_step hs hcalling
        rcases abandoned_step hs hp with hp | hp
        · exact ih.begun p hp hbefore
        · exact ha hp
      · intro i e hi
        rcases unwinding_step hs hi with hi | ha | hout
        · rcases ih.unwinding i e hi with hother | hout
          · exact Or.inl (hother.append _)
          · refine Or.inr fun hmem => ?_
            rcases mem_contents_step hs hmem with hmem | ⟨j, -, hj, heq⟩
            · exact hout hmem
            · obtain rfl : i = j := congrArg Prod.snd heq
              exact nomatch hi.symm.trans hj
        · exact Or.inl ⟨_, List.mem_append_right _ (List.mem_singleton_self _), e, ha⟩
        · exact Or.inr hout

/-- No placeholder of a call that has ended without a value is cached. -/
def Fulfillable (s : State ι κ υ ε) : Prop :=
  ∀ e ∈ s.impl.contents, s.promise e.2 ≠ .abandoned

theorem fulfillable_step {key : ι → κ} {tr : List (Taken (State ι κ υ ε) (Action ι υ ε))}
    {s s' : State ι κ υ ε} {a : Action ι υ ε} (hs : step key s a = some s')
    (hsound : ∀ e ∈ s.impl.contents, key e.2 = e.1) (htracked : Tracked key tr s)
    (hloses : LosesSlot key tr ⟨s, a, s'⟩) (h : Fulfillable s) : Fulfillable s' := by
  intro e he hp
  rcases abandoned_step hs hp with hp | rfl
  · rcases mem_contents_step hs he with he | ⟨i, -, hi, rfl⟩
    · exact h e he hp
    · exact htracked.begun i hp hi
  · rcases mem_contents_step hs he with he | ⟨i, ha, -⟩
    · -- The call that ends here still has its slot.
      have hslot : (key e.2, e.2) ∈ s.impl.contents := by
        rw [hsound e he]
        exact he
      cases step_cases hs with
      | unwind hi =>
          rcases htracked.unwinding _ _ hi with hother | hout
          · exact hloses _ rfl hother hslot
          · exact hout hslot
    · exact nomatch ha

theorem fulfillable_run {key : ι → κ} {maxEntries : Nat}
    {tr : List (Taken (State ι κ υ ε) (Action ι υ ε))} {s : State ι κ υ ε}
    (h : Run (step key) (start maxEntries) tr s) (hloses : ∀ t ∈ tr, LosesSlot key tr t) :
    Fulfillable s := by
  induction h with
  | nil => exact fun e he => nomatch he
  | @snoc tr s s' a hrun hs ih =>
      have hloses' : ∀ t ∈ tr ++ [⟨s, a, s'⟩], LosesSlot key tr t := fun t ht i ha hother =>
        hloses t ht i ha (hother.append _)
      refine fulfillable_step hs (sound_run hrun).cached (tracked_run hrun) ?_ (ih ?_)
      · exact hloses' _ (List.mem_append_right _ (List.mem_singleton_self _))
      · exact fun t ht => hloses' t (List.mem_append_left _ ht)

/-- A failing call that finds its own placeholder, or none, leaves the others. -/
theorem kept_step {key : ι → κ} {s s' : State ι κ υ ε} {a : Action ι υ ε}
    (hs : step key s a = some s') (hfinds : FindsOwn key ⟨s, a, s'⟩) {i : ι} (hi : Fails i a)
    {e : κ × ι} (he : e ∈ s.impl.contents) (hne : e ≠ (key i, i)) : e ∈ s'.impl.contents := by
  cases step_cases hs with
  | stdException | otherException | unwind => exact he
  | @drop j e' hj =>
      cases hi with
      | drop =>
          have hkey : e.1 ≠ key i := by
            intro hkey
            have howner : e.2 = i := hfinds i rfl e.2 (hkey ▸ he)
            exact hne (Prod.ext hkey howner)
          have hmem : e ∈ (s.impl.drop (key i)).1.contents := by
            rw [contents_drop]
            exact Recency.mem_remove.mpr ⟨he, hkey⟩
          exact hmem
  | lookup | value | fulfil | noSuchKey | returned | brokenPromise => exact nomatch hi

/-- Any number of calls, in any order of their steps, with a cache of any size:
failing calls clean up after themselves exactly in the runs in which no call
drops the placeholder of another, and no call that threw something else than a
`std::exception` ends with its slot still there. -/
theorem failing_calls_iff {key : ι → κ} {maxEntries : Nat}
    {tr : List (Taken (State ι κ υ ε) (Action ι υ ε))} {s : State ι κ υ ε}
    (h : Run (step key) (start maxEntries) tr s) :
    (∀ t ∈ tr, CleansUp key t) ↔ ∀ t ∈ tr, FindsOwn key t ∧ LosesSlot key tr t := by
  constructor
  · intro hclean t ht
    obtain ⟨a, b, rfl⟩ := List.append_of_mem ht
    obtain ⟨-, hs, -⟩ := h.cut rfl
    obtain ⟨pre, label, post⟩ := t
    have hc := hclean _ ht
    constructor
    · rintro i rfl p hp
      by_contra hne
      have hkept := hc.kept i .drop _ hp (by simpa using hne)
      have hstep : Step key pre (.drop i) post := step_cases hs
      cases hstep with
      | drop hi =>
          have hmem : (key i, p) ∈ (pre.impl.drop (key i)).1.contents := hkept
          rw [contents_drop] at hmem
          exact (Recency.mem_remove.mp hmem).2 rfl
    · rintro i rfl - hslot
      have hstep : Step key pre (.unwind i) post := step_cases hs
      cases hstep with
      | unwind hi => exact hc.removed i rfl hslot
  · intro hcond t ht
    obtain ⟨a, b, rfl⟩ := List.append_of_mem ht
    obtain ⟨hrun, hs, -⟩ := h.cut rfl
    obtain ⟨pre, label, post⟩ := t
    have hpost : Run (step key) (start maxEntries) (a ++ [⟨pre, label, post⟩]) post :=
      .snoc hrun hs
    have hfulfillable : Fulfillable post := by
      refine fulfillable_run hpost fun u hu i hl hother => ?_
      have hu' : u ∈ a ++ ⟨pre, label, post⟩ :: b := by
        rw [← List.singleton_append, ← List.append_assoc]
        exact List.mem_append_left _ hu
      refine (hcond u hu').2 i hl ?_
      rw [← List.singleton_append, ← List.append_assoc]
      exact hother.append b
    refine ⟨fun i hi e he hne => kept_step hs (hcond _ ht).1 hi he hne, ?_, hfulfillable⟩
    rintro i rfl hslot
    refine hfulfillable _ hslot ?_
    have hstep : Step key pre (.unwind i) post := step_cases hs
    cases hstep with
    | unwind hi => simp [State.goto, State.settle]

/-- The call 0 fails and takes out its own placeholder.  The call 1 has another
key. -/
theorem failing_calls_own : ∃ tr s,
    Run (step id) (start 2 : State Nat Nat Nat Unit) tr s ∧
      s.phase 0 = .threw (.generator ()) ∧ s.impl.contents = [(1, 1)] ∧
      ((∀ t ∈ tr, CleansUp id t) ↔ ∀ t ∈ tr, FindsOwn id t ∧ LosesSlot id tr t) :=
  have h : Run (step id) (start 2) _ _ := run_of_exec
    [.lookup 0, .lookup 1, .generate 0 (.stdException ()), .drop 0, .unwind 0] rfl
  ⟨_, _, h, rfl, rfl, failing_calls_iff h⟩

/-- The calls 0 and 1 share a key, and the cache has room for one: the call 2
evicts the placeholder of the call 0, and the call 1 puts its own there. -/
def takesAnothers : List (Action Nat Nat Unit) :=
  [.lookup 0, .lookup 2, .lookup 1, .generate 0 (.stdException ()), .drop 0]

/-- The call 0 drops the placeholder of the call 1. -/
theorem failing_call_takes_anothers : ∃ tr s,
    Run (step (· / 2)) (start 1 : State Nat Nat Nat Unit) tr s ∧
      ¬ ∀ t ∈ tr, CleansUp (· / 2) t := by
  have h : Run (step (· / 2)) (start 1) _ _ := run_of_exec takesAnothers rfl
  refine ⟨_, _, h, fun hclean => ?_⟩
  have hlast := hclean _ (List.mem_append_right [_, _, _, _] (List.mem_singleton_self _))
  have hmem := hlast.kept 0 .drop (0, 1) (List.mem_singleton_self _) (by decide)
  exact nomatch hmem

end ConcurrentCache
end ZimTools
