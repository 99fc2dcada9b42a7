import Mathlib.Logic.Function.Basic
import ZimTools.Lib.Transition
import ZimTools.Cache.LruCache

/-!
# The concurrent cache

A call of `ConcurrentCache::getOrPut` looks its key up under a lock and leaves
there, unless it finds one, the placeholder of its own promise.  A call that
misses runs its generator and fulfils the promise.  When the generator throws,
the call drops the key under the lock, whoever's placeholder is there by then,
and its promise is abandoned.  Every other call waits on the placeholder it has.

The calls are the elements of a type, of which there may be any number, and a
placeholder is named by the call whose promise it belongs to.  A step is one of
the steps of a call.  What a generator does is left to the step.

A placeholder may outlive its slot in the cache.  The invariant (`Sound`) is
therefore not about the cache alone: a placeholder is only ever seen by calls
with the key of the call it belongs to.
-/

namespace ZimTools

open Transition

namespace ConcurrentCache

/-! ## Calls -/

/-- What running a generator ends in: a value, an exception `getOrPut` catches
as a `std::exception`, or one of another type. -/
inductive Outcome (υ ε : Type) where
  | value (v : υ)
  | stdException (e : ε)
  | otherException (e : ε)
deriving DecidableEq, Repr

/-- The shared state of a promise and its futures. -/
inductive Promise (υ : Type) where
  | pending
  | fulfilled (v : υ)
  | abandoned
deriving DecidableEq, Repr

/-- What a call throws: the exception of its generator, the `future_error` of a
placeholder that was abandoned, or the `range_error` of `AccessResult::value`. -/
inductive Thrown (ε : Type) where
  | generator (e : ε)
  | brokenPromise
  | noSuchKey
deriving DecidableEq, Repr

/-- Where a call is, with the result `x` of its lookup. -/
inductive Phase (ι υ ε : Type) where
  | calling
  | generating (x : AccessResult ι)
  | fulfilling (x : AccessResult ι) (v : υ)
  | dropping (e : ε)
  | unwinding (e : ε)
  | waiting (x : AccessResult ι)
  | returned (v : υ)
  | threw (t : Thrown ε)

variable {ι κ υ ε : Type} [DecidableEq ι] [DecidableEq κ]

/-- The cache, the promises and the calls. -/
structure State (ι κ υ ε : Type) [DecidableEq κ] where
  impl : LruCache κ ι
  promise : ι → Promise υ
  phase : ι → Phase ι υ ε

def start (maxEntries : Nat) : State ι κ υ ε where
  impl := .create maxEntries
  promise := fun _ => .pending
  phase := fun _ => .calling

/-- A call goes on to a phase. -/
def State.goto (s : State ι κ υ ε) (i : ι) (p : Phase ι υ ε) : State ι κ υ ε :=
  { s with phase := Function.update s.phase i p }

def State.settle (s : State ι κ υ ε) (i : ι) (p : Promise υ) : State ι κ υ ε :=
  { s with promise := Function.update s.promise i p }

/-- A step of a call.  Only `generate` has an outcome of its own. -/
inductive Action (ι υ ε : Type) where
  | lookup (i : ι)
  | generate (i : ι) (o : Outcome υ ε)
  | fulfil (i : ι)
  | drop (i : ι)
  | unwind (i : ι)
  | wait (i : ι)

/-- `impl_.getOrPut` under the lock, and the test whether to generate. -/
def lookup (key : ι → κ) (s : State ι κ υ ε) (i : ι) : State ι κ υ ε :=
  let r := s.impl.getOrPut (key i) i
  let s := { s with impl := r.1 }
  if r.2.miss then s.goto i (.generating r.2) else s.goto i (.waiting r.2)

/-- `x.value().get()`, for a placeholder that is settled. -/
def wait (s : State ι κ υ ε) (i : ι) (x : AccessResult ι) : Option (State ι κ υ ε) :=
  match x.value with
  | none => some (s.goto i (.threw .noSuchKey))
  | some p => match s.promise p with
    | .pending => none
    | .fulfilled v => some (s.goto i (.returned v))
    | .abandoned => some (s.goto i (.threw .brokenPromise))

def step (key : ι → κ) (s : State ι κ υ ε) : Action ι υ ε → Option (State ι κ υ ε)
  | .lookup i => match s.phase i with
    | .calling => some (lookup key s i)
    | _ => none
  | .generate i o => match s.phase i with
    | .generating x => match o with
      | .value v => some (s.goto i (.fulfilling x v))
      | .stdException e => some (s.goto i (.dropping e))
      | .otherException e => some (s.goto i (.unwinding e))
    | _ => none
  | .fulfil i => match s.phase i with
    | .fulfilling x v => some ((s.settle i (.fulfilled v)).goto i (.waiting x))
    | _ => none
  | .drop i => match s.phase i with
    | .dropping e =>
        some (State.goto { s with impl := (s.impl.drop (key i)).1 } i (.unwinding e))
    | _ => none
  | .unwind i => match s.phase i with
    | .unwinding e => some ((s.settle i .abandoned).goto i (.threw (.generator e)))
    | _ => none
  | .wait i => match s.phase i with
    | .waiting x => wait s i x
    | _ => none

theorem lookup_eq (key : ι → κ) (s : State ι κ υ ε) (i : ι) :
    lookup key s i = State.goto { s with impl := (s.impl.getOrPut (key i) i).1 } i
      (if (s.impl.getOrPut (key i) i).2.miss then .generating (s.impl.getOrPut (key i) i).2
        else .waiting (s.impl.getOrPut (key i) i).2) := by
  unfold lookup
  dsimp only
  split <;> rfl

/-- What a step is: what a call does, and where it was before. -/
inductive Step (key : ι → κ) (s : State ι κ υ ε) :
    Action ι υ ε → State ι κ υ ε → Prop where
  | lookup {i : ι} (hi : s.phase i = .calling) : Step key s (.lookup i) (lookup key s i)
  | value {i : ι} {x : AccessResult ι} {v : υ} (hi : s.phase i = .generating x) :
      Step key s (.generate i (.value v)) (s.goto i (.fulfilling x v))
  | stdException {i : ι} {x : AccessResult ι} {e : ε} (hi : s.phase i = .generating x) :
      Step key s (.generate i (.stdException e)) (s.goto i (.dropping e))
  | otherException {i : ι} {x : AccessResult ι} {e : ε} (hi : s.phase i = .generating x) :
      Step key s (.generate i (.otherException e)) (s.goto i (.unwinding e))
  | fulfil {i : ι} {x : AccessResult ι} {v : υ} (hi : s.phase i = .fulfilling x v) :
      Step key s (.fulfil i) ((s.settle i (.fulfilled v)).goto i (.waiting x))
  | drop {i : ι} {e : ε} (hi : s.phase i = .dropping e) :
      Step key s (.drop i)
        (State.goto { s with impl := (s.impl.drop (key i)).1 } i (.unwinding e))
  | unwind {i : ι} {e : ε} (hi : s.phase i = .unwinding e) :
      Step key s (.unwind i) ((s.settle i .abandoned).goto i (.threw (.generator e)))
  | noSuchKey {i : ι} {x : AccessResult ι} (hi : s.phase i = .waiting x)
      (hx : x.value = none) : Step key s (.wait i) (s.goto i (.threw .noSuchKey))
  | returned {i p : ι} {x : AccessResult ι} {v : υ} (hi : s.phase i = .waiting x)
      (hx : x.value = some p) (hp : s.promise p = .fulfilled v) :
      Step key s (.wait i) (s.goto i (.returned v))
  | brokenPromise {i p : ι} {x : AccessResult ι} (hi : s.phase i = .waiting x)
      (hx : x.value = some p) (hp : s.promise p = .abandoned) :
      Step key s (.wait i) (s.goto i (.threw .brokenPromise))

theorem step_cases {key : ι → κ} {s s' : State ι κ υ ε} {a : Action ι υ ε}
    (h : step key s a = some s') : Step key s a s' := by
  cases a with
  | lookup i =>
      simp only [step] at h
      split at h
      · obtain rfl := Option.some.inj h
        exact .lookup ‹_›
      · exact nomatch h
  | generate i o =>
      simp only [step] at h
      split at h
      · split at h <;> obtain rfl := Option.some.inj h
        · exact .value ‹_›
        · exact .stdException ‹_›
        · exact .otherException ‹_›
      · exact nomatch h
  | fulfil i =>
      simp only [step] at h
      split at h
      · obtain rfl := Option.some.inj h
        exact .fulfil ‹_›
      · exact nomatch h
  | drop i =>
      simp only [step] at h
      split at h
      · obtain rfl := Option.some.inj h
        exact .drop ‹_›
      · exact nomatch h
  | unwind i =>
      simp only [step] at h
      split at h
      · obtain rfl := Option.some.inj h
        exact .unwind ‹_›
      · exact nomatch h
  | wait i =>
      simp only [step] at h
      split at h
      · simp only [wait] at h
        split at h
        · obtain rfl := Option.some.inj h
          exact .noSuchKey ‹_› ‹_›
        · split at h
          · exact nomatch h
          · obtain rfl := Option.some.inj h
            exact .returned ‹_› ‹_› ‹_›
          · obtain rfl := Option.some.inj h
            exact .brokenPromise ‹_› ‹_› ‹_›
      · exact nomatch h

/-! ## What calls see of each other

Both invariants say something of the phase of each call and of each promise.
`goto` and `settle` keep them when the new phase and promise have it too. -/

/-- The lookup has led to a placeholder, of a call with the same key. -/
def Leads (key : ι → κ) (i : ι) (x : AccessResult ι) : Prop :=
  ∃ p, x.value = some p ∧ key p = key i

/-- What a call knows: `made p v` stands for a value `v` generated by `p`. -/
def Knows (key : ι → κ) (made : ι → υ → Prop) (i : ι) : Phase ι υ ε → Prop
  | .generating x | .waiting x => Leads key i x
  | .fulfilling x v => Leads key i x ∧ made i v
  | .returned v => ∃ p, key p = key i ∧ made p v
  | _ => True

structure Sound (key : ι → κ) (made : ι → υ → Prop) (s : State ι κ υ ε) : Prop where
  cached : ∀ e ∈ s.impl.contents, key e.2 = e.1
  knows : ∀ i, Knows key made i (s.phase i)
  fulfilled : ∀ p v, s.promise p = .fulfilled v → made p v

omit [DecidableEq ι] [DecidableEq κ] in
theorem Knows.mono {key : ι → κ} {made made' : ι → υ → Prop}
    (hmade : ∀ p v, made p v → made' p v) {i : ι} {p : Phase ι υ ε}
    (h : Knows key made i p) : Knows key made' i p := by
  cases p with
  | fulfilling x v => exact ⟨h.1, hmade i v h.2⟩
  | returned v =>
      obtain ⟨p, hp, hv⟩ := h
      exact ⟨p, hp, hmade p v hv⟩
  | _ => exact h

omit [DecidableEq ι] in
theorem Sound.mono {key : ι → κ} {made made' : ι → υ → Prop}
    (hmade : ∀ p v, made p v → made' p v) {s : State ι κ υ ε} (h : Sound key made s) :
    Sound key made' s :=
  ⟨h.cached, fun i => (h.knows i).mono hmade, fun p v hp => hmade p v (h.fulfilled p v hp)⟩

theorem Sound.goto {key : ι → κ} {made : ι → υ → Prop} {s : State ι κ υ ε}
    (h : Sound key made s) {i : ι} {p : Phase ι υ ε} (hp : Knows key made i p) :
    Sound key made (s.goto i p) := by
  refine ⟨h.cached, fun j => ?_, h.fulfilled⟩
  by_cases hj : j = i
  · subst hj
    simpa [State.goto] using hp
  · simpa [State.goto, hj] using h.knows j

theorem Sound.settle {key : ι → κ} {made : ι → υ → Prop} {s : State ι κ υ ε}
    (h : Sound key made s) {i : ι} {p : Promise υ} (hp : ∀ v, p = .fulfilled v → made i v) :
    Sound key made (s.settle i p) := by
  refine ⟨h.cached, h.knows, fun j v hj => ?_⟩
  by_cases hji : j = i
  · subst hji
    exact hp v (by simpa [State.settle] using hj)
  · exact h.fulfilled j v (by simpa [State.settle, hji] using hj)

omit [DecidableEq ι] in
/-- The key of a placeholder in the cache is that of its call. -/
theorem Sound.getOrPut {key : ι → κ} {made : ι → υ → Prop} {s : State ι κ υ ε}
    (h : Sound key made s) (i : ι) :
    Sound key made { s with impl := (s.impl.getOrPut (key i) i).1 } ∧
      Leads key i (s.impl.getOrPut (key i) i).2 := by
  have hspec := s.impl.getOrPut_contents (key i) i
  obtain ⟨hcontents, hanswer⟩ := Prod.ext_iff.mp hspec
  refine ⟨⟨fun e he => ?_, h.knows, h.fulfilled⟩, ?_⟩
  · rw [show LruCache.contents _ = _ from hcontents] at he
    rcases Recency.mem_of_mem_getOrPut he with he | rfl
    · exact h.cached e he
    · rfl
  · rw [show Prod.snd _ = _ from hanswer]
    rcases Recency.getOrPut_answer s.impl.data.maxSize (key i) i s.impl.contents with
      ⟨val, hval, hr⟩ | ⟨-, hr⟩ <;> rw [hr]
    · exact ⟨val, rfl, h.cached _ hval⟩
    · exact ⟨i, rfl, rfl⟩

omit [DecidableEq ι] in
theorem Sound.drop {key : ι → κ} {made : ι → υ → Prop} {s : State ι κ υ ε}
    (h : Sound key made s) (k : κ) :
    Sound key made { s with impl := (s.impl.drop k).1 } := by
  refine ⟨fun e he => ?_, h.knows, h.fulfilled⟩
  rw [show LruCache.contents _ = _ from congrArg Prod.fst (s.impl.drop_contents k)] at he
  exact h.cached e (Recency.mem_remove.mp he).1

omit [DecidableEq ι] in
theorem sound_start (key : ι → κ) (made : ι → υ → Prop) (maxEntries : Nat) :
    Sound key made (start maxEntries : State ι κ υ ε) where
  cached := by simp [start]
  knows := fun _ => trivial
  fulfilled := nofun

/-- `made` may grow by the value the step generates. -/
theorem sound_step {key : ι → κ} {made made' : ι → υ → Prop} {s s' : State ι κ υ ε}
    {a : Action ι υ ε} (hs : step key s a = some s') (h : Sound key made s)
    (hmade : ∀ p v, made p v → made' p v)
    (hnew : ∀ i v, a = .generate i (.value v) → made' i v) : Sound key made' s' := by
  replace h := h.mono hmade
  cases step_cases hs with
  | @lookup i hi =>
      obtain ⟨hsound, hleads⟩ := h.getOrPut i
      rw [lookup_eq]
      refine hsound.goto ?_
      split <;> exact hleads
  | @value i x v hi =>
      have hk := h.knows i
      rw [hi] at hk
      exact h.goto ⟨hk, hnew i v rfl⟩
  | stdException hi => exact h.goto trivial
  | otherException hi => exact h.goto trivial
  | @fulfil i x v hi =>
      have hk := h.knows i
      rw [hi] at hk
      refine Sound.goto (h.settle fun w hw => ?_) hk.1
      obtain rfl := Promise.fulfilled.inj hw
      exact hk.2
  | drop hi => exact (h.drop _).goto trivial
  | unwind hi => exact Sound.goto (h.settle (p := .abandoned) nofun) trivial
  | noSuchKey hi hx => exact h.goto trivial
  | @returned i p x v hi hx hp =>
      have hk := h.knows i
      rw [hi] at hk
      obtain ⟨q, hq, hkey⟩ := hk
      obtain rfl := Option.some.inj (hx.symm.trans hq)
      exact h.goto ⟨p, hkey, h.fulfilled p v hp⟩
  | brokenPromise hi hx hp => exact h.goto trivial

/-- The generator of a call was run and gave a value. -/
def Generated (tr : List (Taken (State ι κ υ ε) (Action ι υ ε))) (i : ι) (v : υ) : Prop :=
  ∃ t ∈ tr, t.label = .generate i (.value v)

theorem sound_run {key : ι → κ} {maxEntries : Nat}
    {tr : List (Taken (State ι κ υ ε) (Action ι υ ε))} {s : State ι κ υ ε}
    (h : Run (step key) (start maxEntries) tr s) : Sound key (Generated tr) s := by
  induction h with
  | nil => exact sound_start ..
  | snoc _ hs ih =>
      refine sound_step hs ih (fun p v hp => ?_) (fun i v ha => ?_)
      · obtain ⟨t, ht, hl⟩ := hp
        exact ⟨t, List.mem_append_left _ ht, hl⟩
      · exact ⟨_, List.mem_append_right _ (List.mem_singleton_self _), ha⟩

/-! ## Calls without exceptions -/

/-- A call that has met no exception. -/
def Calm : Phase ι υ ε → Prop
  | .dropping _ | .unwinding _ | .threw _ => False
  | _ => True

structure Quiet (s : State ι κ υ ε) : Prop where
  calm : ∀ i, Calm (s.phase i)
  kept : ∀ p, s.promise p ≠ .abandoned

theorem Quiet.goto {s : State ι κ υ ε} (h : Quiet s) {i : ι} {p : Phase ι υ ε} (hp : Calm p) :
    Quiet (s.goto i p) := by
  refine ⟨fun j => ?_, h.kept⟩
  by_cases hj : j = i
  · subst hj
    simpa [State.goto] using hp
  · simpa [State.goto, hj] using h.calm j

theorem Quiet.settle {s : State ι κ υ ε} (h : Quiet s) {i : ι} {p : Promise υ}
    (hp : p ≠ .abandoned) : Quiet (s.settle i p) := by
  refine ⟨h.calm, fun j => ?_⟩
  by_cases hj : j = i
  · subst hj
    simpa [State.settle] using hp
  · simpa [State.settle, hj] using h.kept j

/-- Only a generator brings an exception in. -/
theorem quiet_step {key : ι → κ} {made : ι → υ → Prop} {s s' : State ι κ υ ε}
    {a : Action ι υ ε} (hs : step key s a = some s') (hsound : Sound key made s) (h : Quiet s)
    (ha : ∀ i e, a ≠ .generate i (.stdException e) ∧ a ≠ .generate i (.otherException e)) :
    Quiet s' := by
  cases step_cases hs with
  | @lookup i hi =>
      have hquiet : Quiet { s with impl := (s.impl.getOrPut (key i) i).1 } := ⟨h.calm, h.kept⟩
      rw [lookup_eq]
      refine hquiet.goto ?_
      split <;> trivial
  | value hi => exact h.goto trivial
  | stdException hi => exact absurd rfl (ha _ _).1
  | otherException hi => exact absurd rfl (ha _ _).2
  | fulfil hi => exact (h.settle (p := .fulfilled _) nofun).goto (p := .waiting _) trivial
  | @drop i e hi =>
      have hc := h.calm i
      rw [hi] at hc
      exact hc.elim
  | @unwind i e hi =>
      have hc := h.calm i
      rw [hi] at hc
      exact hc.elim
  | @noSuchKey i x hi hx =>
      have hk := hsound.knows i
      rw [hi] at hk
      obtain ⟨p, hp, -⟩ := hk
      exact absurd (hx.symm.trans hp) nofun
  | returned hi hx hp => exact h.goto trivial
  | brokenPromise hi hx hp => exact absurd hp (h.kept _)

/-- No generator of the run threw. -/
def NoneThrew (tr : List (Taken (State ι κ υ ε) (Action ι υ ε))) : Prop :=
  ∀ t ∈ tr, ∀ i e,
    t.label ≠ .generate i (.stdException e) ∧ t.label ≠ .generate i (.otherException e)

theorem quiet_run {key : ι → κ} {maxEntries : Nat}
    {tr : List (Taken (State ι κ υ ε) (Action ι υ ε))} {s : State ι κ υ ε}
    (h : Run (step key) (start maxEntries) tr s) (hnone : NoneThrew tr) : Quiet s := by
  induction h with
  | nil => exact ⟨fun _ => trivial, fun _ => nofun⟩
  | snoc hrun hs ih =>
      exact quiet_step hs (sound_run hrun) (ih fun t ht => hnone t (List.mem_append_left _ ht))
        (hnone _ (List.mem_append_right _ (List.mem_singleton_self _)))

/-! ## What a key is lost by -/

/-- The lookup of a call misses. -/
def Misses (i : ι) (t : Taken (State ι κ υ ε) (Action ι υ ε)) : Prop :=
  t.label = .lookup i ∧ ∃ x, t.post.phase i = .generating x

/-- A lookup leaves a key out that was in the cache.  A cache without any room
also leaves the key out that the lookup has put there. -/
def Evicts (key : ι → κ) (k : κ) (t : Taken (State ι κ υ ε) (Action ι υ ε)) : Prop :=
  ∃ i, t.label = .lookup i ∧
    (t.pre.impl.holds k = true ∨ key i = k ∧ t.pre.impl.data.maxSize = 0) ∧
    t.post.impl.holds k = false

/-- A call whose generator threw drops its key. -/
def Drops (key : ι → κ) (k : κ) (t : Taken (State ι κ υ ε) (Action ι υ ε)) : Prop :=
  ∃ i e, t.label = .drop i ∧ t.pre.phase i = .dropping e ∧ key i = k

/-- A lookup misses exactly when the cache does not hold its key. -/
theorem misses_lookup {key : ι → κ} {s : State ι κ υ ε} {i : ι}
    (h : ∃ x, (lookup key s i).phase i = .generating x) : s.impl.holds (key i) = false := by
  obtain ⟨x, hx⟩ := h
  have hanswer := (Prod.ext_iff.mp (s.impl.getOrPut_contents (key i) i)).2
  rcases Recency.getOrPut_answer s.impl.data.maxSize (key i) i s.impl.contents with
    ⟨val, -, hr⟩ | ⟨hkey, -⟩
  · rw [hr] at hanswer
    dsimp only at hanswer
    simp [lookup, hanswer, AccessResult.miss, AccessResult.isHit, State.goto] at hx
  · exact Bool.eq_false_iff.mpr fun hh => hkey (LruCache.holds_iff.mp hh)

/-- In a cache with room the key of a lookup is there behind it. -/
theorem holds_lookup {key : ι → κ} {s s' : State ι κ υ ε} {i : ι}
    (hs : step key s (.lookup i) = some s') (hroom : 0 < s.impl.data.maxSize) :
    s'.impl.holds (key i) = true := by
  cases step_cases hs with
  | lookup hi =>
      rw [lookup_eq]
      exact LruCache.holds_getOrPut hroom (key i) i

/-- Only an eviction or a drop loses a key. -/
theorem lost_step {key : ι → κ} {s s' : State ι κ υ ε} {a : Action ι υ ε} {k : κ}
    (hs : step key s a = some s') (hk : s.impl.holds k = true) (hk' : s'.impl.holds k = false) :
    Evicts key k ⟨s, a, s'⟩ ∨ Drops key k ⟨s, a, s'⟩ := by
  cases step_cases hs with
  | lookup hi => exact Or.inl ⟨_, rfl, Or.inl hk, hk'⟩
  | @drop i e hi =>
      refine Or.inr ⟨i, e, rfl, hi, ?_⟩
      by_contra hne
      have hcontents : (s.impl.drop (key i)).1.contents =
          Recency.remove (key i) s.impl.contents :=
        congrArg Prod.fst (s.impl.drop_contents (key i))
      obtain ⟨e, he, rfl⟩ := List.mem_map.mp (LruCache.holds_iff.mp hk)
      have hmem : e ∈ (s.impl.drop (key i)).1.contents := by
        rw [hcontents]
        exact Recency.mem_remove.mpr ⟨he, Ne.symm hne⟩
      exact Bool.eq_false_iff.mp hk' (LruCache.holds_iff.mpr (List.mem_map_of_mem hmem))
  | _ => exact absurd (hk.symm.trans hk') nofun

/-- A run that starts with a key and ends without it loses it on the way. -/
theorem lost_run {key : ι → κ} {tr : List (Taken (State ι κ υ ε) (Action ι υ ε))}
    {s s' : State ι κ υ ε} {k : κ} (h : Run (step key) s tr s') (hk : s.impl.holds k = true)
    (hk' : s'.impl.holds k = false) : ∃ t ∈ tr, Evicts key k t ∨ Drops key k t := by
  induction h with
  | nil => exact absurd (hk.symm.trans hk') nofun
  | @snoc tr s₁ s₂ a hrun hs ih =>
      by_cases hmid : s₁.impl.holds k = true
      · exact ⟨_, List.mem_append_right _ (List.mem_singleton_self _), lost_step hs hmid hk'⟩
      · obtain ⟨t, ht, hlost⟩ := ih (by simpa using hmid)
        exact ⟨t, List.mem_append_left _ ht, hlost⟩

/-- From a lookup that misses to the next one of the same key, the key is lost. -/
theorem lost_between {key : ι → κ} {maxEntries : Nat}
    {a b c : List (Taken (State ι κ υ ε) (Action ι υ ε))}
    {t₁ t₂ : Taken (State ι κ υ ε) (Action ι υ ε)} {s : State ι κ υ ε} {i j : ι}
    (h : Run (step key) (start maxEntries) (a ++ t₁ :: (b ++ t₂ :: c)) s)
    (h₁ : Misses i t₁) (h₂ : Misses j t₂) (hkey : key i = key j) :
    ∃ t ∈ t₁ :: b, Evicts key (key i) t ∨ Drops key (key i) t := by
  obtain ⟨-, hs₁, hrest⟩ := h.cut rfl
  obtain ⟨hb, hs₂, -⟩ := hrest.cut rfl
  obtain ⟨pre₁, label₁, post₁⟩ := t₁
  obtain ⟨pre₂, label₂, post₂⟩ := t₂
  obtain ⟨rfl, -⟩ := h₁
  obtain ⟨rfl, hx⟩ := h₂
  have hmissing : pre₂.impl.holds (key i) = false := by
    have hstep : Step key pre₂ (.lookup j) post₂ := step_cases hs₂
    cases hstep with
    | lookup hi => exact hkey ▸ misses_lookup hx
  cases hput : post₁.impl.holds (key i) with
  | true =>
      obtain ⟨t, ht, hlost⟩ := lost_run hb hput hmissing
      exact ⟨t, List.mem_cons_of_mem _ ht, hlost⟩
  | false =>
      -- The lookup evicts the key it puts: the cache has no room for any.
      have hroom : pre₁.impl.data.maxSize = 0 := by
        by_contra hne
        exact absurd (holds_lookup hs₁ (Nat.pos_of_ne_zero hne)) (Bool.eq_false_iff.mp hput)
      exact ⟨_, List.mem_cons_self .., Or.inl ⟨i, rfl, Or.inr ⟨rfl, hroom⟩, hput⟩⟩

/-! ## What the calls of a run get -/

structure Serves (key : ι → κ) (tr : List (Taken (State ι κ υ ε) (Action ι υ ε)))
    (s : State ι κ υ ε) : Prop where
  /-- What a call returns was generated for its key. -/
  returned : ∀ i v, s.phase i = .returned v → ∃ j, key j = key i ∧ Generated tr j v
  /-- Without a generator that throws no call throws. -/
  calm : NoneThrew tr → ∀ i t, s.phase i ≠ .threw t
  /-- Between two lookups that miss, the key was lost. -/
  lost : ∀ a t₁ b t₂ c i j, tr = a ++ t₁ :: (b ++ t₂ :: c) → Misses i t₁ → Misses j t₂ →
    key i = key j → ∃ t ∈ t₁ :: b, Evicts key (key i) t ∨ Drops key (key i) t

/-- Any number of calls, in any order of their steps, with a cache of any size. -/
theorem getOrPut_serves {key : ι → κ} {maxEntries : Nat}
    {tr : List (Taken (State ι κ υ ε) (Action ι υ ε))} {s : State ι κ υ ε}
    (h : Run (step key) (start maxEntries) tr s) : Serves key tr s where
  returned i v hi := by
    have hk := (sound_run h).knows i
    rwa [hi] at hk
  calm hnone i t hi := by
    have hc := (quiet_run h hnone).calm i
    rwa [hi] at hc
  lost a t₁ b t₂ c i j htr h₁ h₂ hkey := by
    subst htr
    exact lost_between h h₁ h₂ hkey

/-- The calls 0 and 1 share a key and the cache has room for one: the call 2
evicts the placeholder on which the call 1 waits. -/
def outlived : List (Action Nat Nat Unit) :=
  [.lookup 0, .lookup 1, .lookup 2, .generate 0 (.value 7), .fulfil 0, .wait 1]

theorem getOrPut_serves_outlived : ∃ tr s,
    Run (step (· / 2)) (start 1 : State Nat Nat Nat Unit) tr s ∧
      s.phase 1 = .returned 7 ∧ s.impl.holds 0 = false ∧ Serves (· / 2) tr s :=
  have h : Run (step (· / 2)) (start 1) _ _ := run_of_exec outlived rfl
  ⟨_, _, h, rfl, rfl, getOrPut_serves h⟩

end ConcurrentCache
end ZimTools
