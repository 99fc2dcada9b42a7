import ZimTools.Lib.Transition

/-!
# The task stream

`TaskStream` hands the entries of an archive from the thread that iterates over
them to the thread that checks them.  The two share a bounded queue, a flag
that says whether more tasks are to come, one mutex and one condition variable.

A step of the model is a critical section, the part of one between two waits,
a call of `ArticleChecker::check`, or the `join` of `finish`.  A thread inside
`cv.wait` is `blocked`.  `notify_one` makes a blocked thread `woken`, and so
does a spurious wake-up.  A woken thread goes on with the code behind the wait.

`addTask` waits in a `while`, so that the producer tests its condition again.
`getNextTask` waits in an `if`.  The worker of a run therefore does what it is
for exactly when it never goes on behind its wait while its condition to wait
still holds (`no_lost_task_iff`).  Only a spurious wake-up takes it there
(`worker_ready_of_no_spurious`).
-/

namespace ZimTools

open Transition

namespace TaskStream

variable {α : Type}

/-- `TaskStream::MAX_SIZE`. -/
def maxSize : Nat := 1000

/-- The two threads. -/
inductive Party where
  | producer
  | worker
deriving DecidableEq, Repr

/-- Where the producer is: in or before a call of `addTask` or `noMoreTasks`,
inside its wait, behind it, inside `thread.join`, or behind `finish`. -/
inductive Producer where
  | adding
  | blocked
  | woken
  | joining
  | finished
deriving DecidableEq, Repr

/-- Where the worker is: before `getNextTask`, inside its wait, behind it, at a
call of `check`, or behind the loop of `processTasks`. -/
inductive Worker (α : Type) where
  | fetching
  | blocked
  | woken
  | checking (task : α)
  | exited
deriving DecidableEq, Repr

/-- The shared data, the two threads, the entries still to be passed to
`addTask`, and the entries `check` has been called on. -/
structure State (α : Type) where
  expectingMoreTasks : Bool
  taskQueue : List α
  producer : Producer
  worker : Worker α
  todo : List α
  checked : List α
deriving DecidableEq, Repr

/-- The stream behind its constructor. -/
def start (entries : List α) : State α :=
  { expectingMoreTasks := true
    taskQueue := []
    producer := .adding
    worker := .fetching
    todo := entries
    checked := [] }

/-! ## The critical sections -/

def inIsBlocked (s : State α) : Bool := decide (maxSize ≤ s.taskQueue.length)

def outIsBlocked (s : State α) : Bool := s.expectingMoreTasks && s.taskQueue.isEmpty

/-- Whether a thread is in the wait set of `cv`. -/
def State.waits (s : State α) : Party → Bool
  | .producer => match s.producer with
    | .blocked => true
    | _ => false
  | .worker => match s.worker with
    | .blocked => true
    | _ => false

/-- A thread leaves the wait set. -/
def wake (p : Party) (s : State α) : State α :=
  match p with
  | .producer => { s with producer := .woken }
  | .worker => { s with worker := .woken }

def Party.other : Party → Party
  | .producer => .worker
  | .worker => .producer

/-- `cv.notify_one`.  Which of two waiting threads it wakes is not specified:
`p` is the one it prefers. -/
def notifyOne (p : Party) (s : State α) : State α :=
  if s.waits p then wake p s
  else if s.waits p.other then wake p.other s
  else s

/-- `addTask`, from its call or from its wait up to the next wait or its end. -/
def addTask (p : Party) (s : State α) (entry : α) (todo : List α) : State α :=
  if inIsBlocked s then { s with producer := .blocked }
  else notifyOne p { s with
    taskQueue := s.taskQueue ++ [entry], producer := .adding, todo := todo }

def noMoreTasks (p : Party) (s : State α) : State α :=
  notifyOne p { s with expectingMoreTasks := false, producer := .joining }

/-- `getNextTask` behind its wait, and the test of `processTasks`: without a
task the worker leaves its loop. -/
def takeTask (p : Party) (s : State α) : State α :=
  match s.taskQueue with
  | [] => { s with worker := .exited }
  | task :: queue => notifyOne p { s with taskQueue := queue, worker := .checking task }

/-- `getNextTask` up to its wait, or to its end when it does not wait. -/
def getNextTask (p : Party) (s : State α) : State α :=
  if outIsBlocked s then { s with worker := .blocked } else takeTask p s

/-- The producer passes every entry to `addTask` and then calls `finish`. -/
def producerStep (p : Party) (s : State α) : Option (State α) :=
  match s.producer with
  | .adding | .woken => match s.todo with
    | [] => some (noMoreTasks p s)
    | entry :: todo => some (addTask p s entry todo)
  | .joining => match s.worker with
    | .exited => some { s with producer := .finished }
    | _ => none
  | .blocked | .finished => none

def workerStep (p : Party) (s : State α) : Option (State α) :=
  match s.worker with
  | .fetching => some (getNextTask p s)
  | .woken => some (takeTask p s)
  | .checking task => some { s with worker := .fetching, checked := s.checked ++ [task] }
  | .blocked | .exited => none

/-- A thread runs up to its next wait, where a `notify_one` on the way prefers
the thread `first`; or a wait returns without a notification. -/
inductive Action where
  | run (p : Party) (first : Party)
  | spurious (p : Party)
deriving DecidableEq, Repr

def step (s : State α) : Action → Option (State α)
  | .run .producer first => producerStep first s
  | .run .worker first => workerStep first s
  | .spurious p => if s.waits p then some (wake p s) else none

/-- What a step is: the critical section a thread runs, and where it was before. -/
inductive Step (s : State α) : Action → State α → Prop where
  | addTask {p : Party} {entry : α} {todo : List α}
      (hp : s.producer = .adding ∨ s.producer = .woken) (ht : s.todo = entry :: todo) :
      Step s (.run .producer p) (addTask p s entry todo)
  | noMoreTasks {p : Party} (hp : s.producer = .adding ∨ s.producer = .woken) (ht : s.todo = []) :
      Step s (.run .producer p) (noMoreTasks p s)
  | join {p : Party} (hp : s.producer = .joining) (hw : s.worker = .exited) :
      Step s (.run .producer p) { s with producer := .finished }
  | getNextTask {p : Party} (hw : s.worker = .fetching) :
      Step s (.run .worker p) (getNextTask p s)
  | takeTask {p : Party} (hw : s.worker = .woken) : Step s (.run .worker p) (takeTask p s)
  | check {p : Party} {task : α} (hw : s.worker = .checking task) :
      Step s (.run .worker p) { s with worker := .fetching, checked := s.checked ++ [task] }
  | wake {p : Party} (hp : s.waits p = true) : Step s (.spurious p) (wake p s)

theorem step_cases {s s' : State α} {a : Action} (h : step s a = some s') : Step s a s' := by
  match a with
  | .run .producer p =>
      simp only [step, producerStep] at h
      split at h
      · rename_i hp
        split at h <;> obtain rfl := Option.some.inj h
        · exact .noMoreTasks (Or.inl hp) ‹_›
        · exact .addTask (Or.inl hp) ‹_›
      · rename_i hp
        split at h <;> obtain rfl := Option.some.inj h
        · exact .noMoreTasks (Or.inr hp) ‹_›
        · exact .addTask (Or.inr hp) ‹_›
      · split at h
        · obtain rfl := Option.some.inj h
          exact .join ‹_› ‹_›
        · exact nomatch h
      · exact nomatch h
      · exact nomatch h
  | .run .worker p =>
      simp only [step, workerStep] at h
      split at h
      · obtain rfl := Option.some.inj h
        exact .getNextTask ‹_›
      · obtain rfl := Option.some.inj h
        exact .takeTask ‹_›
      · obtain rfl := Option.some.inj h
        exact .check ‹_›
      · exact nomatch h
      · exact nomatch h
  | .spurious p =>
      simp only [step] at h
      split at h
      · obtain rfl := Option.some.inj h
        exact .wake ‹_›
      · exact nomatch h

/-! ## Invariants

A wake-up moves a thread from the wait set to behind its wait.  Nothing the
invariants read changes by it: `held`, `ending`, `done` and the shared data. -/

/-- The task the worker has taken and not yet checked. -/
def Worker.held : Worker α → List α
  | .checking task => [task]
  | _ => []

def Worker.done : Worker α → Bool
  | .exited => true
  | _ => false

/-- Whether the producer has called `noMoreTasks`. -/
def Producer.ending : Producer → Bool
  | .joining | .finished => true
  | _ => false

def Producer.done : Producer → Bool
  | .finished => true
  | _ => false

/-- What holds at every moment of a run whose worker never goes on too early. -/
structure Sound (entries : List α) (s : State α) : Prop where
  conserved : entries = s.checked ++ s.worker.held ++ s.taskQueue ++ s.todo
  flag : s.expectingMoreTasks = !s.producer.ending
  ended : s.producer.ending = true → s.todo = []
  exited : s.worker.done = true → s.expectingMoreTasks = false ∧ s.taskQueue = []
  joined : s.producer.done = true → s.worker.done = true

theorem sound_start (entries : List α) : Sound entries (start entries) where
  conserved := by simp [start, Worker.held]
  flag := rfl
  ended := nofun
  exited := nofun
  joined := nofun

theorem sound_wake {entries : List α} {s : State α} {p : Party} (hp : s.waits p = true)
    (h : Sound entries s) : Sound entries (wake p s) := by
  obtain ⟨conserved, flag, ended, exited, joined⟩ := h
  cases p with
  | producer =>
      have hb : s.producer = .blocked := by
        cases hs : s.producer <;> simp [State.waits, hs] at hp ⊢
      rw [hb] at flag
      exact ⟨conserved, flag, nofun, exited, nofun⟩
  | worker =>
      have hb : s.worker = .blocked := by
        cases hs : s.worker <;> simp [State.waits, hs] at hp ⊢
      rw [hb] at conserved joined
      exact ⟨conserved, flag, ended, nofun, joined⟩

theorem sound_notifyOne {entries : List α} {s : State α} (p : Party)
    (h : Sound entries s) : Sound entries (notifyOne p s) := by
  unfold notifyOne
  split
  · exact sound_wake ‹_› h
  · split
    · exact sound_wake ‹_› h
    · exact h

theorem sound_addTask {entries todo : List α} {s : State α} {entry : α} (p : Party)
    (hp : s.producer = .adding ∨ s.producer = .woken) (ht : s.todo = entry :: todo)
    (h : Sound entries s) : Sound entries (addTask p s entry todo) := by
  have hflag : s.expectingMoreTasks = true := by
    rcases hp with hp | hp <;> simpa [hp, Producer.ending] using h.flag
  have hdone : s.worker.done = true → False := fun hd => by
    simpa [hflag] using (h.exited hd).1
  unfold addTask
  split
  · exact ⟨h.conserved, hflag, nofun, h.exited, nofun⟩
  · refine sound_notifyOne p ⟨?_, hflag, nofun, fun hd => (hdone hd).elim, nofun⟩
    rw [h.conserved, ht]
    simp

theorem sound_noMoreTasks {entries : List α} {s : State α} (p : Party) (ht : s.todo = [])
    (h : Sound entries s) : Sound entries (noMoreTasks p s) := by
  refine sound_notifyOne p ⟨h.conserved, rfl, fun _ => ht, fun hd => ?_, nofun⟩
  exact ⟨rfl, (h.exited hd).2⟩

/-- Behind its wait the worker may leave only when no task is to come. -/
theorem sound_takeTask {entries : List α} {s : State α} (p : Party)
    (hheld : s.worker.held = []) (hdone : s.worker.done = false)
    (hready : outIsBlocked s = false) (h : Sound entries s) : Sound entries (takeTask p s) := by
  have hconserved := h.conserved
  have hjoined : s.producer.done = true → False := fun hd => by
    simpa [hdone] using h.joined hd
  rw [hheld, List.append_nil] at hconserved
  unfold takeTask
  split
  · rename_i hq
    have hflag : s.expectingMoreTasks = false := by simpa [outIsBlocked, hq] using hready
    exact ⟨by simpa [Worker.held] using hconserved, h.flag, h.ended, fun _ => ⟨hflag, hq⟩,
      fun _ => rfl⟩
  · rename_i task queue hq
    refine sound_notifyOne p ⟨?_, h.flag, h.ended, nofun, fun hd => (hjoined hd).elim⟩
    simpa [Worker.held, hq] using hconserved

theorem sound_getNextTask {entries : List α} {s : State α} (p : Party)
    (hw : s.worker = .fetching) (h : Sound entries s) : Sound entries (getNextTask p s) := by
  have hconserved := h.conserved
  have hjoined := h.joined
  rw [hw] at hconserved hjoined
  unfold getNextTask
  split
  · exact ⟨hconserved, h.flag, h.ended, nofun, hjoined⟩
  · rename_i hready
    exact sound_takeTask p (by simp [hw, Worker.held]) (by simp [hw, Worker.done])
      (by simpa using hready) h

/-- The worker goes on behind its wait while its condition to wait still holds. -/
def Overtakes (t : Taken (State α) Action) : Prop :=
  t.pre.worker = .woken ∧ (∃ p, t.label = .run .worker p) ∧ outIsBlocked t.pre = true

theorem sound_step {entries : List α} {t : Taken (State α) Action}
    (hs : step t.pre t.label = some t.post) (hready : ¬ Overtakes t)
    (h : Sound entries t.pre) : Sound entries t.post := by
  obtain ⟨s, a, s'⟩ := t
  have hstep : Step s a s' := step_cases hs
  cases hstep with
  | addTask hp ht => exact sound_addTask _ hp ht h
  | noMoreTasks _ ht => exact sound_noMoreTasks _ ht h
  | join hp hw =>
      have hflag := h.flag
      have hended := h.ended
      rw [hp] at hflag hended
      exact ⟨h.conserved, hflag, hended, h.exited, fun _ => by simp [hw, Worker.done]⟩
  | getNextTask hw => exact sound_getNextTask _ hw h
  | @takeTask p hw =>
      refine sound_takeTask _ (by simp [hw, Worker.held]) (by simp [hw, Worker.done]) ?_ h
      simpa using fun hb => hready ⟨hw, ⟨p, rfl⟩, hb⟩
  | check hw =>
      have hconserved := h.conserved
      have hjoined := h.joined
      rw [hw] at hconserved hjoined
      exact ⟨by simpa [Worker.held] using hconserved, h.flag, h.ended, nofun, hjoined⟩
  | wake hp => exact sound_wake hp h

/-! ## What a run delivers -/

/-- The worker has not left its loop too early, and behind `finish` every entry
has been checked once, in its order. -/
def Delivers (entries : List α) (s : State α) : Prop :=
  (s.worker = .exited → s.expectingMoreTasks = false) ∧
  (s.producer = .finished → s.checked = entries ∧ s.taskQueue = [])

theorem Sound.delivers {entries : List α} {s : State α} (h : Sound entries s) :
    Delivers entries s := by
  refine ⟨fun hw => (h.exited (by simp [hw, Worker.done])).1, fun hp => ?_⟩
  have hdone : s.worker.done = true := h.joined (by simp [hp, Producer.done])
  have hheld : s.worker.held = [] := by
    cases hw : s.worker <;> simp [hw, Worker.done, Worker.held] at hdone ⊢
  have hqueue : s.taskQueue = [] := (h.exited hdone).2
  have htodo : s.todo = [] := h.ended (by simp [hp, Producer.ending])
  exact ⟨by simpa [hheld, hqueue, htodo] using h.conserved.symm, hqueue⟩

/-- A worker that goes on too early finds no task and leaves. -/
theorem not_delivers_of_overtakes {entries : List α} {t : Taken (State α) Action}
    (hs : step t.pre t.label = some t.post) (ho : Overtakes t) : ¬ Delivers entries t.post := by
  obtain ⟨s, a, s'⟩ := t
  obtain ⟨hw, ⟨p, rfl⟩, hb⟩ := ho
  simp only [outIsBlocked, Bool.and_eq_true, List.isEmpty_iff] at hw hb
  simp only [step, workerStep, hw, takeTask, hb.2, Option.some.injEq] at hs
  subst hs
  intro h
  simpa [hb.1] using h.1 rfl

/-- A run delivers in all its states exactly when its worker never goes on
behind its wait while its condition to wait still holds. -/
theorem no_lost_task_iff {entries : List α} {tr : List (Taken (State α) Action)} {s : State α}
    (h : Run step (start entries) tr s) :
    (∀ t ∈ tr, ¬ Overtakes t) ↔ ∀ t ∈ tr, Delivers entries t.post := by
  constructor
  · intro hready t ht
    exact (h.invariant_mem (Sound entries) (fun t => ¬ Overtakes t) (sound_start entries)
      (fun _ hs ho hi => sound_step hs ho hi) hready ht).2.delivers
  · intro hd t ht ho
    obtain ⟨a, b, rfl⟩ := List.append_of_mem ht
    exact not_delivers_of_overtakes (h.cut rfl).2.1 ho (hd t ht)

/-- The worker waits, is notified of the only entry and checks it. -/
def notified : List Action :=
  [.run .worker .worker, .run .producer .worker, .run .worker .producer, .run .worker .producer,
    .run .producer .worker, .run .worker .producer, .run .producer .worker]

theorem no_lost_task_notified :
    ∃ tr s, Run step (start [7]) tr s ∧ s.checked = [7] ∧ s.producer = .finished ∧
      ((∀ t ∈ tr, ¬ Overtakes t) ↔ ∀ t ∈ tr, Delivers [7] t.post) :=
  have h := run_of_exec notified rfl
  ⟨_, _, h, rfl, rfl, no_lost_task_iff h⟩

/-- The worker waits, its wait returns by itself, and it leaves before the only
entry is added. -/
def deserted : List Action :=
  [.run .worker .worker, .spurious .worker, .run .worker .producer, .run .producer .worker,
    .run .producer .worker, .run .producer .worker]

theorem spurious_wakeup_loses_task :
    ¬ ∀ (entries : List Nat) (tr : List (Taken (State Nat) Action)) (s : State Nat),
      Run step (start entries) tr s → ∀ t ∈ tr, Delivers entries t.post := by
  intro h
  have hrun : ∃ tr s, exec step (start [7]) deserted = some (tr, s) ∧
      ∃ t ∈ tr, t.post.producer = .finished ∧ t.post.checked = [] := by
    refine ⟨_, _, rfl, _, List.getLast_mem (List.cons_ne_nil _ _), rfl, rfl⟩
  obtain ⟨tr, s, he, t, ht, hp, hc⟩ := hrun
  have hd : t.post.checked = [7] := ((h _ tr s (run_of_exec _ he) t ht).2 hp).1
  rw [hc] at hd
  exact nomatch hd

/-! ## Notified wake-ups -/

/-- A worker behind its wait has something to do there. -/
def Ready (s : State α) : Prop := s.worker = .woken → outIsBlocked s = false

theorem outIsBlocked_wake (p : Party) (s : State α) :
    outIsBlocked (wake p s) = outIsBlocked s := by
  cases p <;> rfl

theorem outIsBlocked_notifyOne (p : Party) (s : State α) :
    outIsBlocked (notifyOne p s) = outIsBlocked s := by
  unfold notifyOne
  split
  · exact outIsBlocked_wake _ s
  · split
    · exact outIsBlocked_wake _ s
    · rfl

/-- A notification leaves a worker that does not wait where it is. -/
theorem notifyOne_worker {s : State α} (p : Party) (hw : s.waits .worker = false) :
    (notifyOne p s).worker = s.worker := by
  cases p with
  | producer =>
      unfold notifyOne
      split
      · rfl
      · simp [Party.other, hw]
  | worker =>
      rw [notifyOne, if_neg (by simp [hw])]
      split <;> rfl

theorem ready_start (entries : List α) : Ready (start entries) := by
  intro hw
  simp [start] at hw

theorem ready_takeTask (p : Party) (s : State α) : Ready (takeTask p s) := by
  unfold takeTask
  split
  · exact nofun
  · intro hw
    rw [notifyOne_worker p rfl] at hw
    exact nomatch hw

theorem ready_step {t : Taken (State α) Action} (hs : step t.pre t.label = some t.post)
    (hlabel : t.label ≠ .spurious .worker) (h : Ready t.pre) : Ready t.post := by
  obtain ⟨s, a, s'⟩ := t
  have hstep : Step s a s' := step_cases hs
  cases hstep with
  | addTask hp ht =>
      unfold addTask
      split
      · exact h
      · intro _
        rw [outIsBlocked_notifyOne]
        simp [outIsBlocked]
  | noMoreTasks hp ht =>
      intro _
      rw [noMoreTasks, outIsBlocked_notifyOne]
      rfl
  | join hp hw => exact h
  | @getNextTask p hw =>
      unfold getNextTask
      split
      · exact nofun
      · exact ready_takeTask p s
  | @takeTask p hw => exact ready_takeTask p s
  | check hw => exact nofun
  | @wake p hp =>
      cases p with
      | producer => exact h
      | worker => exact absurd rfl hlabel

/-- As long as no wait of the worker returns by itself, every entry is checked. -/
theorem worker_ready_of_no_spurious {entries : List α} {tr : List (Taken (State α) Action)}
    {s : State α} (h : Run step (start entries) tr s)
    (hlabel : ∀ t ∈ tr, t.label ≠ .spurious .worker) : ∀ t ∈ tr, ¬ Overtakes t := by
  rintro t ht ⟨hw, -, hb⟩
  have hready : Ready t.pre :=
    (h.invariant_mem Ready (fun t => t.label ≠ .spurious .worker) (ready_start entries)
      (fun _ hs hl hi => ready_step hs hl hi) hlabel ht).1
  rw [hready hw] at hb
  exact nomatch hb

end TaskStream
end ZimTools
