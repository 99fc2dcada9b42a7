import ZimTools.Lib.Progress
import ZimTools.Zimcheck.WaitSet

/-!
# The task stream comes to its end

`finish` returns only when the worker has left its loop, and `addTask` only when
there is room in the queue.  Neither waits for ever: as long as the worker never
goes on too early, one of the two threads can go on until `finish` has returned
(`Sound.moves`), and each entry costs a bounded number of steps (`measured`).  So
every run ends, and it ends with every entry checked (`finish_returns`).

A worker that goes on too early has left.  The producer then fills the queue and
waits for room that nobody makes: zimcheck hangs exactly when more entries are
left than the queue holds (`hangs_iff`).
-/

namespace ZimTools

open Transition

namespace TaskStream

variable {α : Type}

/-! ## The measure -/

/-- A wait that returns by itself. -/
def Action.isSpurious : Action → Bool
  | .spurious _ => true
  | .run .. => false

/-- What a thread still does beside handing over entries. -/
def Producer.weight : Producer → Nat
  | .adding | .woken => 3
  | .blocked => 2
  | .joining => 1
  | .finished => 0

def Worker.weight : Worker α → Nat
  | .checking _ => 2
  | .fetching | .woken => 1
  | .blocked | .exited => 0

/-- The steps that a state allows, at most. -/
def measure (s : State α) : Nat :=
  5 * s.todo.length + 3 * s.taskQueue.length + s.producer.weight + s.worker.weight

theorem measure_start (entries : List α) : measure (start entries) = 5 * entries.length + 4 := by
  simp [measure, start, Producer.weight, Worker.weight]

theorem measure_wake {p : Party} {s : State α} (hp : s.waits p = true) :
    measure (wake p s) = measure s + 1 := by
  cases p with
  | producer =>
      have hb : s.producer = .blocked := by
        cases hs : s.producer <;> simp [State.waits, hs] at hp ⊢
      simp only [measure, wake, hb, Producer.weight]
      omega
  | worker =>
      have hb : s.worker = .blocked := by
        cases hs : s.worker <;> simp [State.waits, hs] at hp ⊢
      simp only [measure, wake, hb, Worker.weight]

theorem measure_notifyOne (p : Party) (s : State α) : measure (notifyOne p s) ≤ measure s + 1 := by
  unfold notifyOne
  split
  · exact Nat.le_of_eq (measure_wake ‹_›)
  · split
    · exact Nat.le_of_eq (measure_wake ‹_›)
    · exact Nat.le_succ _

/-- Handing an entry over pays for the wake-up. -/
theorem measure_addTask {p : Party} {s : State α} {entry : α} {todo : List α}
    (hp : s.producer = .adding ∨ s.producer = .woken) (ht : s.todo = entry :: todo) :
    measure (addTask p s entry todo) < measure s := by
  have hweight : s.producer.weight = 3 := by rcases hp with hp | hp <;> rw [hp] <;> rfl
  unfold addTask
  split
  · show 5 * s.todo.length + 3 * s.taskQueue.length + 2 + s.worker.weight < measure s
    rw [measure, hweight]
    omega
  · refine Nat.lt_of_le_of_lt (measure_notifyOne ..) ?_
    show 5 * todo.length + 3 * (s.taskQueue ++ [entry]).length + 3 + s.worker.weight + 1 < measure s
    rw [measure, hweight, ht, List.length_append, List.length_singleton,
      List.length_cons]
    omega

theorem measure_noMoreTasks {p : Party} {s : State α}
    (hp : s.producer = .adding ∨ s.producer = .woken) :
    measure (noMoreTasks p s) < measure s := by
  have hweight : s.producer.weight = 3 := by rcases hp with hp | hp <;> rw [hp] <;> rfl
  refine Nat.lt_of_le_of_lt (measure_notifyOne ..) ?_
  show 5 * s.todo.length + 3 * s.taskQueue.length + 1 + s.worker.weight + 1 < measure s
  rw [measure, hweight]
  omega

theorem measure_takeTask {p : Party} {s : State α} (hw : s.worker.weight = 1) :
    measure (takeTask p s) < measure s := by
  unfold takeTask
  split
  · show 5 * s.todo.length + 3 * s.taskQueue.length + s.producer.weight + 0 < measure s
    rw [measure, hw]
    omega
  · next task queue hqueue =>
      refine Nat.lt_of_le_of_lt (measure_notifyOne ..) ?_
      show 5 * s.todo.length + 3 * queue.length + s.producer.weight + 2 + 1 < measure s
      rw [measure, hw, hqueue, List.length_cons]
      omega

theorem measure_getNextTask {p : Party} {s : State α} (hw : s.worker = .fetching) :
    measure (getNextTask p s) < measure s := by
  unfold getNextTask
  split
  · simp only [measure, hw, Worker.weight]
    omega
  · exact measure_takeTask (by rw [hw]; rfl)

/-- Every section of a thread lowers the measure, and a wait that returns by
itself raises it by one. -/
theorem measured :
    Measured (step (α := α)) (fun a => !a.isSpurious) Action.isSpurious measure := by
  intro s s' a hs
  cases step_cases hs with
  | addTask hp ht => exact measure_addTask hp ht
  | noMoreTasks hp _ => exact measure_noMoreTasks hp
  | join hp hw =>
      show 5 * s.todo.length + 3 * s.taskQueue.length + 0 + s.worker.weight + 1 ≤ measure s
      rw [measure, hp]
      exact Nat.le_of_eq (Nat.add_right_comm ..)
  | getNextTask hw => exact measure_getNextTask hw
  | takeTask hw => exact measure_takeTask (by rw [hw]; rfl)
  | check hw =>
      show 5 * s.todo.length + 3 * s.taskQueue.length + s.producer.weight + 1 + 1 ≤ measure s
      rw [measure, hw]
      exact Nat.le_refl _
  | wake hp => exact Nat.le_of_eq (measure_wake hp)

/-! ## Somebody can go on -/

/-- No thread can go on, and only a wait may return. -/
def Stuck (s : State α) : Prop := ∀ p first, step s (.run p first) = none

theorem stuck_of_finished {s : State α} (hp : s.producer = .finished) (hw : s.worker = .exited) :
    Stuck s := by
  intro p first
  cases p with
  | producer => rw [step, producerStep, hp]
  | worker => rw [step, workerStep, hw]

/-- A worker that has not left and does not wait can go on. -/
theorem exists_workerStep {s : State α} (hexited : s.worker ≠ .exited)
    (hwaits : ¬ s.waits .worker = true) : ∃ s', step s (.run .worker .worker) = some s' := by
  cases hw : s.worker with
  | blocked => exact absurd (by rw [State.waits, hw]) hwaits
  | exited => exact absurd hw hexited
  | fetching => exact ⟨_, by rw [step, workerStep, hw]⟩
  | woken => exact ⟨_, by rw [step, workerStep, hw]⟩
  | checking task => exact ⟨_, by rw [step, workerStep, hw]⟩

/-- A producer at a call can go on. -/
theorem exists_producerStep {s : State α} (hp : s.producer = .adding ∨ s.producer = .woken) :
    ∃ s', step s (.run .producer .worker) = some s' := by
  cases ht : s.todo with
  | nil => rcases hp with hp | hp <;> exact ⟨_, by rw [step, producerStep, hp, ht]⟩
  | cons entry todo => rcases hp with hp | hp <;> exact ⟨_, by rw [step, producerStep, hp, ht]⟩

theorem wait_set {entries : List α} {tr : List (Taken (State α) Action)} {s : State α}
    (h : Run step (start entries) tr s) : WaitSet s :=
  h.invariant WaitSet (fun _ => True) (waitSet_start entries)
    (fun _ hs _ hi => waitSet_step hs hi) fun _ _ => trivial

/-- Unless `finish` has returned, a thread can go on. -/
theorem Sound.moves {entries : List α} {s : State α} (h : Sound entries s) (hset : WaitSet s)
    (hp : s.producer ≠ .finished) : ∃ p s', step s (.run p .worker) = some s' := by
  cases hproducer : s.producer with
  | adding => exact ⟨.producer, exists_producerStep (.inl hproducer)⟩
  | woken => exact ⟨.producer, exists_producerStep (.inr hproducer)⟩
  | blocked =>
      -- The queue is full, so that the worker does not wait, and it has not left.
      have hflag : s.expectingMoreTasks = true := by
        simpa [hproducer, Producer.ending] using h.flag
      have hfull := hset.full (by rw [State.waits, hproducer])
      refine ⟨.worker, exists_workerStep (fun hexited => ?_) (hset.not_worker hfull)⟩
      have hdone := (h.exited (by rw [hexited]; rfl)).1
      exact Bool.false_ne_true (hdone.symm.trans hflag)
  | joining =>
      have hflag : s.expectingMoreTasks = false := by
        simpa [hproducer, Producer.ending] using h.flag
      by_cases hexited : s.worker = .exited
      · exact ⟨.producer, _, by rw [step, producerStep, hproducer, hexited]⟩
      · refine ⟨.worker, exists_workerStep hexited fun hwaits => ?_⟩
        exact Bool.false_ne_true (hflag.symm.trans (hset.empty hwaits).2)
  | finished => exact absurd hproducer hp

/-- As long as the worker never goes on too early, a run has at most five steps
for each entry, four more, and one more for each wait that returns by itself.  It
cannot stop before `finish` has returned, and then every entry is checked. -/
theorem finish_returns {entries : List α} {tr : List (Taken (State α) Action)} {s : State α}
    (h : Run step (start entries) tr s) (hready : ∀ t ∈ tr, ¬ Overtakes t) :
    steps (fun a => !a.isSpurious) tr ≤ 5 * entries.length + 4 + steps Action.isSpurious tr ∧
      (Stuck s → s.producer = .finished ∧ s.checked = entries ∧ s.taskQueue = []) := by
  have hsound : Sound entries s := h.invariant (Sound entries) (fun t => ¬ Overtakes t)
    (sound_start entries) (fun _ hs ho hi => sound_step hs ho hi) hready
  constructor
  · have hlength := h.length_le measured
    rw [measure_start] at hlength
    omega
  · intro hstuck
    have hfinished : s.producer = .finished := by
      by_contra hp
      obtain ⟨p, s', hs⟩ := hsound.moves (wait_set h) hp
      rw [hstuck p .worker] at hs
      cases hs
    exact ⟨hfinished, hsound.delivers.2 hfinished⟩

/-- The run of `notified`, behind which nobody can go on. -/
theorem finish_returns_notified :
    ∃ tr s, Run step (start [7]) tr s ∧ Stuck s ∧
      steps (fun a => !a.isSpurious) tr ≤ 9 + steps Action.isSpurious tr ∧ s.checked = [7] := by
  have hrun : ∃ tr s, exec step (start [7]) notified = some (tr, s) ∧
      (∀ t ∈ tr, t.label ≠ .spurious .worker) ∧ s.producer = .finished ∧ s.worker = .exited :=
    ⟨_, _, rfl, by decide, rfl, rfl⟩
  obtain ⟨tr, s, hexec, hlabel, hp, hw⟩ := hrun
  have h := run_of_exec notified hexec
  have hstuck := stuck_of_finished hp hw
  obtain ⟨hlength, hends⟩ := finish_returns h (worker_ready_of_no_spurious h hlabel)
  exact ⟨tr, s, h, hstuck, hlength, (hends hstuck).2.1⟩

/-! ## A worker that has left too early -/

/-- The worker has left, and `rest` is what the producer still had to pass on. -/
structure Deserted (rest checked : List α) (s : State α) : Prop where
  exited : s.worker = .exited
  checked : s.checked = checked
  rest : s.taskQueue ++ s.todo = rest
  waiting : s.producer = .blocked → s.todo ≠ []
  ended : s.producer.ending = true → s.todo = []

theorem waits_worker_of_exited {s : State α} (hw : s.worker = .exited) :
    s.waits .worker = false := by
  rw [State.waits, hw]

/-- Where nobody waits a notification does nothing. -/
theorem notifyOne_of_none {s : State α} (p : Party) (hproducer : s.waits .producer = false)
    (hworker : s.waits .worker = false) : notifyOne p s = s := by
  cases p <;> simp [notifyOne, Party.other, hproducer, hworker]

/-- A worker that has left does not come back. -/
theorem exited_step {s s' : State α} {a : Action} (hs : step s a = some s')
    (hw : s.worker = .exited) : s'.worker = .exited := by
  have hwaits := waits_worker_of_exited hw
  cases step_cases hs with
  | addTask hp ht =>
      unfold addTask
      split
      · exact hw
      · rw [notifyOne_of_none]
        · exact hw
        · rfl
        · exact hwaits
  | noMoreTasks hp ht =>
      rw [noMoreTasks, notifyOne_of_none]
      · exact hw
      · rfl
      · exact hwaits
  | join hp _ => exact hw
  | getNextTask hfetching => cases hw.symm.trans hfetching
  | takeTask hwoken => cases hw.symm.trans hwoken
  | check hchecking => cases hw.symm.trans hchecking
  | @wake p hp =>
      cases p with
      | producer => exact hw
      | worker => exact absurd (hwaits.symm.trans hp) Bool.false_ne_true

theorem deserted_step {rest checked : List α} {s s' : State α} {a : Action}
    (hs : step s a = some s') (h : Deserted rest checked s) : Deserted rest checked s' := by
  have hexited := exited_step hs h.exited
  have hwaits := waits_worker_of_exited h.exited
  cases step_cases hs with
  | @addTask p entry todo hp ht =>
      unfold addTask at hexited ⊢
      split
      · refine ⟨h.exited, h.checked, h.rest, fun _ => ?_, fun hending => ?_⟩
        · exact ht ▸ List.cons_ne_nil entry todo
        · cases hending
      · rw [notifyOne_of_none]
        · refine ⟨h.exited, h.checked, ?_, fun hblocked => ?_, fun hending => ?_⟩
          · rw [List.append_assoc, ← h.rest, ht]
            rfl
          · cases hblocked
          · cases hending
        · rfl
        · exact hwaits
  | noMoreTasks hp ht =>
      rw [noMoreTasks, notifyOne_of_none]
      · refine ⟨h.exited, h.checked, h.rest, fun hblocked => ?_, fun _ => ht⟩
        cases hblocked
      · rfl
      · exact hwaits
  | join hp _ =>
      refine ⟨h.exited, h.checked, h.rest, fun hblocked => ?_, fun _ => h.ended ?_⟩
      · cases hblocked
      · rw [hp]
        rfl
  | getNextTask hfetching => cases h.exited.symm.trans hfetching
  | takeTask hwoken => cases h.exited.symm.trans hwoken
  | check hchecking => cases h.exited.symm.trans hchecking
  | @wake p hp =>
      cases p with
      | producer =>
          refine ⟨h.exited, h.checked, h.rest, fun hblocked => ?_, fun hending => ?_⟩
          · cases hblocked
          · cases hending
      | worker => exact absurd (hwaits.symm.trans hp) Bool.false_ne_true

/-- Before the worker goes on too early it has not done so. -/
theorem not_overtakes_of_before {entries : List α} {a b : List (Taken (State α) Action)}
    {t : Taken (State α) Action} {s : State α} (h : Run step (start entries) (a ++ t :: b) s)
    (ho : Overtakes t) : ∀ u ∈ a, ¬ Overtakes u := by
  intro u hu hou
  obtain ⟨hbefore, -, -⟩ := h.cut rfl
  obtain ⟨a₁, a₂, rfl⟩ := List.append_of_mem hu
  obtain ⟨-, hs, hlater⟩ := hbefore.cut rfl
  have hleft : u.post.worker = .exited := by
    obtain ⟨hw, ⟨p, hlabel⟩, hb⟩ := hou
    obtain ⟨-, hqueue⟩ : u.pre.expectingMoreTasks = true ∧ u.pre.taskQueue = [] := by
      simpa [outIsBlocked] using hb
    rw [hlabel, step, workerStep, hw] at hs
    rw [← Option.some.inj hs, takeTask, hqueue]
  have hstays : t.pre.worker = .exited := hlater.invariant (fun s => s.worker = .exited)
    (fun _ => True) hleft (fun _ hs _ hw => exited_step hs hw) fun _ _ => trivial
  cases ho.1.symm.trans hstays

theorem deserted_of_overtakes {entries : List α} {t : Taken (State α) Action}
    (hs : step t.pre t.label = some t.post) (ho : Overtakes t) (hset : WaitSet t.pre)
    (hsound : Sound entries t.pre) : Deserted t.post.todo t.post.checked t.post := by
  obtain ⟨s, a, s'⟩ := t
  obtain ⟨hw, ⟨p, rfl⟩, hb⟩ := ho
  obtain ⟨hflag, hqueue⟩ : s.expectingMoreTasks = true ∧ s.taskQueue = [] := by
    simpa [outIsBlocked] using hb
  dsimp only at hw hs hset hsound
  rw [step, workerStep, hw] at hs
  have hpost : s' = { s with worker := .exited } := by
    rw [← Option.some.inj hs, takeTask, hqueue]
  subst hpost
  refine ⟨rfl, rfl, ?_, fun hblocked => ?_, fun hending => ?_⟩
  · show s.taskQueue ++ s.todo = s.todo
    rw [hqueue, List.nil_append]
  · have hfull : s.producer = .blocked := hblocked
    exact absurd (by rw [State.waits, hfull]) (hset.not_producer hqueue)
  · have hending' : s.producer.ending = true := hending
    rw [hsound.flag, hending'] at hflag
    cases hflag

/-- Once the worker has gone on too early nothing more is checked, and where no
thread can go on, `finish` has not returned exactly when the queue was too small
for the entries that were left. -/
theorem hangs_iff {entries : List α} {a b : List (Taken (State α) Action)}
    {t : Taken (State α) Action} {s : State α} (h : Run step (start entries) (a ++ t :: b) s)
    (ho : Overtakes t) :
    s.checked = t.post.checked ∧
      (Stuck s → (s.producer ≠ .finished ↔ maxSize < t.post.todo.length)) := by
  obtain ⟨hbefore, hs, hafter⟩ := h.cut rfl
  have hsound : Sound entries t.pre := hbefore.invariant (Sound entries) (fun t => ¬ Overtakes t)
    (sound_start entries) (fun _ hs ho hi => sound_step hs ho hi) (not_overtakes_of_before h ho)
  have hdeserted : Deserted t.post.todo t.post.checked s :=
    hafter.invariant (Deserted _ _) (fun _ => True)
      (deserted_of_overtakes hs ho (wait_set hbefore) hsound)
      (fun _ hs _ hi => deserted_step hs hi) fun _ _ => trivial
  have hset : WaitSet s := wait_set h
  refine ⟨hdeserted.checked, fun hstuck => ?_⟩
  have hlength := congrArg List.length hdeserted.rest
  rw [List.length_append] at hlength
  cases hp : s.producer with
  | adding =>
      obtain ⟨s', hs'⟩ := exists_producerStep (.inl hp)
      cases (hstuck .producer .worker).symm.trans hs'
  | woken =>
      obtain ⟨s', hs'⟩ := exists_producerStep (.inr hp)
      cases (hstuck .producer .worker).symm.trans hs'
  | joining =>
      have hs' := hstuck .producer .worker
      rw [step, producerStep, hp, hdeserted.exited] at hs'
      cases hs'
  | blocked =>
      have hfull := hset.full (by rw [State.waits, hp])
      have hleft := List.length_pos_iff.mpr (hdeserted.waiting hp)
      exact ⟨fun _ => by omega, fun _ hfinished => by cases hfinished⟩
  | finished =>
      have hbound := hset.bounded
      have hnone := hdeserted.ended (by rw [hp]; rfl)
      rw [hnone, List.length_nil] at hlength
      exact ⟨fun hne => absurd rfl hne, fun hlt => by omega⟩

/-- In the run of `deserted` the queue has room for the entry that is left. -/
theorem hangs_iff_deserted :
    ∃ a t b s, Run step (start [7]) (a ++ t :: b) s ∧ Stuck s ∧ s.checked = [] ∧
      (s.producer ≠ .finished ↔ maxSize < t.post.todo.length) := by
  have hrun : ∃ a t b s, exec step (start [7]) deserted = some (a ++ t :: b, s) ∧
      (t.pre.worker = .woken ∧ t.label = .run .worker .producer ∧ outIsBlocked t.pre = true) ∧
      t.post.checked = [] ∧ s.producer = .finished ∧ s.worker = .exited :=
    ⟨[_, _], _, _, _, rfl, ⟨rfl, rfl, rfl⟩, rfl, rfl, rfl⟩
  obtain ⟨a, t, b, s, hexec, ⟨hw, hlabel, hb⟩, hchecked, hp, hexited⟩ := hrun
  have h := run_of_exec deserted hexec
  have hstuck := stuck_of_finished hp hexited
  obtain ⟨hnone, hends⟩ := hangs_iff h ⟨hw, ⟨_, hlabel⟩, hb⟩
  exact ⟨a, t, b, s, h, hstuck, hnone.trans hchecked, hends hstuck⟩

end TaskStream
end ZimTools
