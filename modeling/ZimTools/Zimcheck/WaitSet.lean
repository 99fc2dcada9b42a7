import ZimTools.Zimcheck.TaskStream

/-!
# The wait set of the task stream

Both ends of the queue wait on one condition variable and notify it with
`notify_one`.  The comment on `cv` argues that this works because the two ends
cannot be blocked at the same time.  `WaitSet` is the invariant behind that
argument.  It holds whatever the interleaving and whatever waits return by
themselves, so also where a worker goes on too early.

A thread in the wait set has its condition to wait, and a full queue is not
empty.  So at most one thread waits, and `notify_one` has no choice.
-/

namespace ZimTools

open Transition

namespace TaskStream

variable {α : Type}

/-- Whether the condition of a thread to wait holds. -/
def isBlocked (s : State α) : Party → Bool
  | .producer => inIsBlocked s
  | .worker => outIsBlocked s

/-- The queue is bounded, and a thread waits only while it has to. -/
structure WaitSet (s : State α) : Prop where
  bounded : s.taskQueue.length ≤ maxSize
  exclusive : ¬ (s.waits .producer = true ∧ s.waits .worker = true)
  full : s.waits .producer = true → s.taskQueue.length = maxSize
  empty : s.waits .worker = true → s.taskQueue = [] ∧ s.expectingMoreTasks = true

theorem WaitSet.isBlocked {s : State α} (h : WaitSet s) {p : Party} (hp : s.waits p = true) :
    isBlocked s p = true := by
  cases p with
  | producer => exact decide_eq_true (Nat.le_of_eq (h.full hp).symm)
  | worker =>
      obtain ⟨hqueue, hflag⟩ := h.empty hp
      rw [TaskStream.isBlocked, outIsBlocked, hqueue, hflag]
      rfl

/-! ## Notifications -/

@[simp] theorem waits_wake_self (p : Party) (s : State α) : (wake p s).waits p = false := by
  cases p <;> rfl

@[simp] theorem waits_wake_other (p : Party) (s : State α) :
    (wake p s).waits p.other = s.waits p.other := by
  cases p <;> rfl

theorem eq_or_other (p q : Party) : q = p ∨ q = p.other := by
  cases p <;> cases q <;> simp [Party.other]

@[simp] theorem taskQueue_notifyOne (p : Party) (s : State α) :
    (notifyOne p s).taskQueue = s.taskQueue := by
  unfold notifyOne
  split
  · cases p <;> rfl
  · split
    · cases p <;> rfl
    · rfl

/-- A notification wakes the only thread that waits. -/
theorem waits_notifyOne {s : State α} (p : Party)
    (h : ¬ (s.waits p = true ∧ s.waits p.other = true)) (q : Party) :
    (notifyOne p s).waits q = false := by
  unfold notifyOne
  split
  · next hp =>
      rcases eq_or_other p q with rfl | rfl
      · exact waits_wake_self q s
      · rw [waits_wake_other]
        exact Bool.eq_false_iff.mpr fun ho => h ⟨hp, ho⟩
  · next hp =>
      split
      · next ho =>
          rcases eq_or_other p q with rfl | rfl
          · have hother : q.other.other = q := by cases q <;> rfl
            have hq := waits_wake_other q.other s
            rw [hother] at hq
            rw [hq]
            exact Bool.eq_false_iff.mpr hp
          · exact waits_wake_self p.other s
      · next ho =>
          rcases eq_or_other p q with rfl | rfl
          · exact Bool.eq_false_iff.mpr hp
          · exact Bool.eq_false_iff.mpr ho

/-- Nobody waits. -/
theorem waitSet_of_none {s : State α} (hbound : s.taskQueue.length ≤ maxSize)
    (hnone : ∀ p, s.waits p = false) : WaitSet s where
  bounded := hbound
  exclusive := fun h => by simp [hnone] at h
  full := fun h => by simp [hnone] at h
  empty := fun h => by simp [hnone] at h

/-- Whatever a thread did before it notified, it leaves nobody waiting. -/
theorem waitSet_notifyOne {s : State α} (p : Party) (hbound : s.taskQueue.length ≤ maxSize)
    {q : Party} (hq : s.waits q = false) : WaitSet (notifyOne p s) := by
  refine waitSet_of_none ?_ (waits_notifyOne p fun h => ?_)
  · rw [taskQueue_notifyOne]
    exact hbound
  · rcases eq_or_other p q with rfl | rfl
    · exact Bool.false_ne_true (hq.symm.trans h.1)
    · exact Bool.false_ne_true (hq.symm.trans h.2)

/-- A step that leaves the shared data alone and sends nobody to wait. -/
theorem WaitSet.mono {s s' : State α} (h : WaitSet s) (hqueue : s'.taskQueue = s.taskQueue)
    (hflag : s'.expectingMoreTasks = s.expectingMoreTasks)
    (hwaits : ∀ p, s'.waits p = true → s.waits p = true) : WaitSet s' where
  bounded := hqueue ▸ h.bounded
  exclusive := fun hboth => h.exclusive ⟨hwaits _ hboth.1, hwaits _ hboth.2⟩
  full := fun hp => hqueue ▸ h.full (hwaits _ hp)
  empty := fun hw => hqueue ▸ hflag ▸ h.empty (hwaits _ hw)

/-- An empty queue is not full. -/
theorem WaitSet.not_producer {s : State α} (h : WaitSet s) (hempty : s.taskQueue = []) :
    ¬ s.waits .producer = true := by
  intro hp
  have hfull := h.full hp
  rw [hempty, List.length_nil, maxSize] at hfull
  omega

theorem WaitSet.not_worker {s : State α} (h : WaitSet s) (hfull : s.taskQueue.length = maxSize) :
    ¬ s.waits .worker = true := by
  intro hw
  rw [(h.empty hw).1, List.length_nil, maxSize] at hfull
  omega

/-! ## The sections -/

theorem waitSet_start (entries : List α) : WaitSet (start entries) :=
  waitSet_of_none (Nat.zero_le _) fun p => by cases p <;> rfl

theorem waitSet_addTask {s : State α} (p : Party) (entry : α) (todo : List α) (h : WaitSet s) :
    WaitSet (addTask p s entry todo) := by
  unfold addTask
  split
  · next hblocked =>
      have hfull : s.taskQueue.length = maxSize :=
        Nat.le_antisymm h.bounded (of_decide_eq_true hblocked)
      have hworker := h.not_worker hfull
      exact ⟨h.bounded, fun hboth => hworker hboth.2, fun _ => hfull, fun hw => absurd hw hworker⟩
  · next hblocked =>
      have hlt : s.taskQueue.length < maxSize := by
        rw [inIsBlocked, decide_eq_true_iff] at hblocked
        exact Nat.lt_of_not_le hblocked
      refine waitSet_notifyOne p (q := .producer) ?_ rfl
      rw [List.length_append]
      exact hlt

theorem waitSet_noMoreTasks {s : State α} (p : Party) (h : WaitSet s) : WaitSet (noMoreTasks p s) :=
  waitSet_notifyOne p (q := .producer) h.bounded rfl

theorem waitSet_takeTask {s : State α} (p : Party) (h : WaitSet s) : WaitSet (takeTask p s) := by
  unfold takeTask
  split
  · refine h.mono rfl rfl fun p hp => ?_
    cases p with
    | producer => exact hp
    | worker => exact absurd hp Bool.false_ne_true
  · next task queue hqueue =>
      refine waitSet_notifyOne p (q := .worker) ?_ rfl
      have hbound := h.bounded
      rw [hqueue] at hbound
      exact Nat.le_of_succ_le hbound

theorem waitSet_getNextTask {s : State α} (p : Party) (h : WaitSet s) :
    WaitSet (getNextTask p s) := by
  unfold getNextTask
  split
  · next hblocked =>
      obtain ⟨hflag, hempty⟩ : s.expectingMoreTasks = true ∧ s.taskQueue = [] := by
        simpa [outIsBlocked] using hblocked
      have hproducer := h.not_producer hempty
      exact ⟨h.bounded, fun hboth => hproducer hboth.1, fun hp => absurd hp hproducer,
        fun _ => ⟨hempty, hflag⟩⟩
  · exact waitSet_takeTask p h

theorem waitSet_wake {s : State α} (p : Party) (h : WaitSet s) : WaitSet (wake p s) := by
  have hqueue : (wake p s).taskQueue = s.taskQueue := by cases p <;> rfl
  have hflag : (wake p s).expectingMoreTasks = s.expectingMoreTasks := by cases p <;> rfl
  refine h.mono hqueue hflag fun q hq => ?_
  rcases eq_or_other p q with rfl | rfl
  · rw [waits_wake_self] at hq
    exact absurd hq Bool.false_ne_true
  · rwa [waits_wake_other] at hq

theorem waitSet_step {s s' : State α} {a : Action} (hs : step s a = some s') (h : WaitSet s) :
    WaitSet s' := by
  cases step_cases hs with
  | addTask hp ht => exact waitSet_addTask _ _ _ h
  | noMoreTasks hp ht => exact waitSet_noMoreTasks _ h
  | join hp hw =>
      refine h.mono rfl rfl fun p hp => ?_
      cases p with
      | producer => exact absurd hp Bool.false_ne_true
      | worker => exact hp
  | getNextTask hw => exact waitSet_getNextTask _ h
  | takeTask hw => exact waitSet_takeTask _ h
  | check hw =>
      refine h.mono rfl rfl fun p hp => ?_
      cases p with
      | producer => exact hp
      | worker => exact absurd hp Bool.false_ne_true
  | wake hp => exact waitSet_wake _ h

/-! ## Who is woken -/

/-- The threads a step wakes by a notification are those that can go on behind
it. -/
def WakesRight (t : Taken (State α) Action) : Prop :=
  ∀ p, t.pre.waits p = true → t.label ≠ .spurious p →
    (t.post.waits p = false ↔ isBlocked t.post p = false)

theorem not_waits_producer {s : State α} (h : s.producer = .adding ∨ s.producer = .woken) :
    s.waits .producer = false := by
  rcases h with h | h <;> simp [State.waits, h]

theorem not_blocked_notifyOne {s : State α} (p q : Party) (h : isBlocked s q = false) :
    isBlocked (notifyOne p s) q = false := by
  cases q with
  | producer => simpa only [isBlocked, inIsBlocked, taskQueue_notifyOne] using h
  | worker => simpa only [isBlocked, outIsBlocked_notifyOne] using h

/-- What the worker takes from the queue makes room in it. -/
theorem takeTask_producer {s : State α} (p : Party) (h : WaitSet s) :
    (takeTask p s).waits .producer = s.waits .producer ∨
      isBlocked (takeTask p s) .producer = false := by
  unfold takeTask
  split
  · exact Or.inl rfl
  · next task queue hqueue =>
      refine Or.inr (not_blocked_notifyOne p _ (decide_eq_false ?_))
      have hbound := h.bounded
      rw [hqueue, List.length_cons] at hbound
      exact Nat.not_le_of_lt hbound

theorem getNextTask_producer {s : State α} (p : Party) (h : WaitSet s) :
    (getNextTask p s).waits .producer = s.waits .producer ∨
      isBlocked (getNextTask p s) .producer = false := by
  unfold getNextTask
  split
  · exact Or.inl rfl
  · exact takeTask_producer p h

theorem addTask_worker {s : State α} (p : Party) (entry : α) (todo : List α) :
    (addTask p s entry todo).waits .worker = s.waits .worker ∨
      isBlocked (addTask p s entry todo) .worker = false := by
  unfold addTask
  split
  · exact Or.inl rfl
  · refine Or.inr (not_blocked_notifyOne p _ ?_)
    simp [isBlocked, outIsBlocked]

/-- A step that is not a spurious wake-up takes nobody out of the wait set who
would have to wait on. -/
theorem waits_or_free {s s' : State α} {a : Action} (hs : step s a = some s') (h : WaitSet s)
    {p : Party} (hp : s.waits p = true) (hlabel : a ≠ .spurious p) :
    s'.waits p = true ∨ isBlocked s' p = false := by
  cases step_cases hs with
  | addTask hadding ht =>
      cases p with
      | producer => exact absurd ((not_waits_producer hadding).symm.trans hp) Bool.false_ne_true
      | worker => exact (addTask_worker _ _ _).imp_left fun heq => heq.trans hp
  | noMoreTasks hadding ht =>
      cases p with
      | producer => exact absurd ((not_waits_producer hadding).symm.trans hp) Bool.false_ne_true
      | worker => exact Or.inr (not_blocked_notifyOne _ _ rfl)
  | join hjoining hw =>
      cases p with
      | producer => simp [State.waits, hjoining] at hp
      | worker => exact Or.inl hp
  | getNextTask hw =>
      cases p with
      | producer => exact (getNextTask_producer _ h).imp_left fun heq => heq.trans hp
      | worker => simp [State.waits, hw] at hp
  | takeTask hw =>
      cases p with
      | producer => exact (takeTask_producer _ h).imp_left fun heq => heq.trans hp
      | worker => simp [State.waits, hw] at hp
  | check hw =>
      cases p with
      | producer => exact Or.inl hp
      | worker => simp [State.waits, hw] at hp
  | @wake q hq =>
      rcases eq_or_other q p with rfl | rfl
      · exact absurd rfl hlabel
      · rw [waits_wake_other]
        exact Or.inl hp

theorem WaitSet.wakesRight {t : Taken (State α) Action} (hs : step t.pre t.label = some t.post)
    (h : WaitSet t.pre) : WakesRight t := by
  intro p hp hlabel
  constructor
  · intro hleft
    refine (waits_or_free hs h hp hlabel).resolve_left fun hwaits => ?_
    exact Bool.false_ne_true (hleft.symm.trans hwaits)
  · intro hfree
    refine Bool.eq_false_iff.mpr fun hwaits => ?_
    exact Bool.false_ne_true (hfree.symm.trans ((waitSet_step hs h).isBlocked hwaits))

/-! ## Which thread a notification prefers -/

theorem notifyOne_congr {s : State α} {r : Party} (hr : s.waits r = false) (p q : Party) :
    notifyOne p s = notifyOne q s := by
  have hother : notifyOne r s = notifyOne r.other s := by
    have hback : r.other.other = r := by cases r <;> rfl
    simp only [notifyOne, hr, hback, Bool.false_eq_true, if_false]
  have hp : notifyOne p s = notifyOne r s := by
    rcases eq_or_other r p with rfl | rfl
    · rfl
    · exact hother.symm
  rcases eq_or_other r q with rfl | rfl
  · exact hp
  · exact hp.trans hother

theorem takeTask_congr (s : State α) (p q : Party) : takeTask p s = takeTask q s := by
  unfold takeTask
  split
  · rfl
  · exact notifyOne_congr (r := .worker) rfl p q

/-- `notify_one` never has a choice. -/
theorem step_congr (s : State α) (r p q : Party) : step s (.run r p) = step s (.run r q) := by
  cases r with
  | producer =>
      have hadd (entry : α) (todo : List α) : addTask p s entry todo = addTask q s entry todo := by
        unfold addTask
        split
        · rfl
        · exact notifyOne_congr (r := .producer) rfl p q
      have hend : noMoreTasks p s = noMoreTasks q s := notifyOne_congr (r := .producer) rfl p q
      simp only [step, producerStep, hadd, hend]
  | worker =>
      simp only [step, workerStep, getNextTask, takeTask_congr s p q]

/-- Every state of a run keeps the invariant, every notification on the way
wakes the right thread, and none had a choice. -/
theorem wait_set_of_run {entries : List α} {tr : List (Taken (State α) Action)} {s : State α}
    (h : Run step (start entries) tr s) :
    WaitSet s ∧ (∀ t ∈ tr, WaitSet t.pre ∧ WaitSet t.post ∧ WakesRight t) ∧
      ∀ r p q, step s (.run r p) = step s (.run r q) := by
  have hstep : ∀ t : Taken (State α) Action, step t.pre t.label = some t.post → True →
      WaitSet t.pre → WaitSet t.post := fun _ hs _ hi => waitSet_step hs hi
  refine ⟨h.invariant WaitSet (fun _ => True) (waitSet_start entries) hstep fun _ _ => trivial,
    fun t ht => ?_, step_congr s⟩
  obtain ⟨hpre, hpost⟩ :=
    h.invariant_mem WaitSet (fun _ => True) (waitSet_start entries) hstep (fun _ _ => trivial) ht
  obtain ⟨a, b, rfl⟩ := List.append_of_mem ht
  exact ⟨hpre, hpost, hpre.wakesRight (h.cut rfl).2.1⟩

/-- The run of `notified`, in which the worker waits and is woken. -/
theorem wait_set_of_notified :
    ∃ tr s, Run step (start [7]) tr s ∧ (∃ t ∈ tr, t.pre.waits .worker = true) ∧ WaitSet s ∧
      ∀ t ∈ tr, WakesRight t :=
  have h := run_of_exec notified rfl
  have hrun := wait_set_of_run h
  ⟨_, _, h, ⟨_, .tail _ (.head _), rfl⟩, hrun.1, fun t ht => (hrun.2.1 t ht).2.2⟩

end TaskStream
end ZimTools
