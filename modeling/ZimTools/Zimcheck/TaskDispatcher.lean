import Mathlib.Algebra.Ring.Int.Defs
import Mathlib.Data.List.Rotate
import ZimTools.Zimcheck.ArticleChecker

/-!
# The task dispatcher

`TaskDispatcher` hands the entries of an archive to as many task streams as there
are threads.  The stream in use is the first one of a list.  At a change of the
cluster that stream goes to the end of the list.

The number of threads is the `long` of the option `--threads`, stored in an
`int` and passed as an `unsigned`.  Where the low 32 bits of it are zero the list
is empty, and it has no first stream (`dispatches_iff`).
-/

namespace ZimTools
namespace Zimcheck

/-- `getClusterIndexOfZimEntry`. -/
def getClusterIndexOfZimEntry : Entry → UInt32
  | .redirect .. => 0
  | .item i => i.clusterIndex

/-- The argument `n` of `TaskDispatcher` for an option `--threads`. -/
def threadCount (threads : Int64) : UInt32 := threads.toInt32.toUInt32

/-- A stream of the list: its number, and the entries passed to its `addTask`. -/
structure Stream where
  index : Nat
  tasks : List Entry
deriving DecidableEq, Repr

structure TaskDispatcher where
  taskStreams : List Stream
  currentCluster : UInt32
deriving DecidableEq, Repr

namespace TaskDispatcher

/-- `while (n--) taskStreams.emplace_back(ac)`.  Starting the thread of a stream
may throw. -/
def emplaceStreams (startsThread : Nat → Bool) : Nat → List Stream → Option (List Stream)
  | 0, taskStreams => some taskStreams
  | n + 1, taskStreams =>
      if startsThread taskStreams.length then
        emplaceStreams startsThread n (taskStreams ++ [⟨taskStreams.length, []⟩])
      else none

/-- The constructor, which is `none` where it throws. -/
def create (startsThread : Nat → Bool) (n : UInt32) : Option TaskDispatcher :=
  (emplaceStreams startsThread n.toNat []).map fun taskStreams => ⟨taskStreams, -1⟩

/-- The first stream of the list goes to its end.  On an empty list this is
undefined. -/
def splice : List Stream → Option (List Stream)
  | [] => none
  | s :: taskStreams => some (taskStreams ++ [s])

/-- `addTask` of the first stream. -/
def addToFirst (entry : Entry) : List Stream → Option (List Stream)
  | [] => none
  | s :: taskStreams => some ({ s with tasks := s.tasks ++ [entry] } :: taskStreams)

/-- `addTask`, which is `none` where it is undefined. -/
def addTask (td : TaskDispatcher) (entry : Entry) : Option TaskDispatcher := do
  let entryCluster := getClusterIndexOfZimEntry entry
  let taskStreams ←
    if td.currentCluster ≠ entryCluster then splice td.taskStreams else some td.taskStreams
  let taskStreams ← addToFirst entry taskStreams
  some ⟨taskStreams, entryCluster⟩

/-- The loop of `test_articles`, and the number of the stream of each entry. -/
def addTasks (td : TaskDispatcher) : List Entry → Option (TaskDispatcher × List Nat)
  | [] => some (td, [])
  | entry :: entries => do
      let td ← td.addTask entry
      let first ← td.taskStreams.head?
      let (td, streams) ← td.addTasks entries
      some (td, first.index :: streams)

/-- `count` streams with the entries in turn: a new cluster goes to the stream
behind that of the last one. -/
structure Dispatches (count : Nat) (entries : List Entry) (td : TaskDispatcher)
    (streams : List Nat) : Prop where
  each : streams.length = entries.length
  indices : (td.taskStreams.map Stream.index).Perm (List.range count)
  tasks : ∀ s ∈ td.taskStreams,
    s.tasks = ((entries.zip streams).filter fun p => p.2 = s.index).map Prod.fst
  rotation : ((entries.map getClusterIndexOfZimEntry).zip streams).IsChain fun a b =>
    b.2 = if b.1 = a.1 then a.2 else (a.2 + 1) % count

/-! ## A dispatcher in rotation -/

/-- The dispatcher of `count` streams behind `k` changes of the cluster. -/
def rotated (count k : Nat) (tasks : Nat → List Entry) (currentCluster : UInt32) :
    TaskDispatcher :=
  ⟨((List.range count).rotate k).map fun i => ⟨i, tasks i⟩, currentCluster⟩

theorem rotate_range_eq_cons {count : Nat} (hcount : 0 < count) (k : Nat) :
    ∃ rest, (List.range count).rotate k = k % count :: rest ∧ k % count ∉ rest := by
  have hlt : k % count < (List.range count).length := by
    rw [List.length_range]
    exact Nat.mod_lt k hcount
  have hhead := List.head?_rotate hlt
  rw [List.length_range] at hlt
  have hmod := List.rotate_mod (List.range count) k
  rw [List.length_range] at hmod
  rw [hmod, List.getElem?_range hlt] at hhead
  obtain ⟨rest, hrest⟩ := List.head?_eq_some_iff.mp hhead
  refine ⟨rest, hrest, fun hmem => ?_⟩
  have hnodup : ((List.range count).rotate k).Nodup := List.nodup_rotate.mpr List.nodup_range
  rw [hrest, List.nodup_cons] at hnodup
  exact hnodup.1 hmem

theorem splice_rotated {count : Nat} (hcount : 0 < count) (k : Nat) (tasks : Nat → List Entry)
    (c : UInt32) :
    splice (rotated count k tasks c).taskStreams = some (rotated count (k + 1) tasks c).taskStreams := by
  obtain ⟨rest, hrest, -⟩ := rotate_range_eq_cons hcount k
  have hnext : (List.range count).rotate (k + 1) = rest ++ [k % count] := by
    rw [← List.rotate_rotate, hrest, List.rotate_cons_succ, List.rotate_zero]
  simp only [rotated, hrest, hnext, List.map_cons, splice, List.map_append, List.map_nil]

theorem addToFirst_rotated {count : Nat} (hcount : 0 < count) (k : Nat) (tasks : Nat → List Entry)
    (c : UInt32) (entry : Entry) :
    addToFirst entry (rotated count k tasks c).taskStreams =
      some (rotated count k
        (Function.update tasks (k % count) (tasks (k % count) ++ [entry])) c).taskStreams := by
  obtain ⟨rest, hrest, hnew⟩ := rotate_range_eq_cons hcount k
  have hkeep : ∀ i ∈ rest,
      Function.update tasks (k % count) (tasks (k % count) ++ [entry]) i = tasks i := by
    intro i hi
    refine Function.update_of_ne ?_ _ _
    rintro rfl
    exact hnew hi
  simp only [rotated, hrest, List.map_cons, addToFirst, Function.update_self]
  refine congrArg (fun l => some (_ :: l)) (List.map_congr_left fun i hi => ?_)
  rw [hkeep i hi]

/-- The number of changes of the cluster behind an entry. -/
def turns (k : Nat) (c : UInt32) (entry : Entry) : Nat :=
  if getClusterIndexOfZimEntry entry = c then k else k + 1

theorem addTask_rotated {count : Nat} (hcount : 0 < count) (k : Nat) (tasks : Nat → List Entry)
    (c : UInt32) (entry : Entry) :
    (rotated count k tasks c).addTask entry =
      some (rotated count (turns k c entry)
        (Function.update tasks (turns k c entry % count)
          (tasks (turns k c entry % count) ++ [entry])) (getClusterIndexOfZimEntry entry)) := by
  have hadd := addToFirst_rotated hcount (turns k c entry) tasks c entry
  by_cases hc : getClusterIndexOfZimEntry entry = c
  · rw [turns, if_pos hc] at hadd ⊢
    have hsame : (rotated count k tasks c).currentCluster = getClusterIndexOfZimEntry entry := hc.symm
    rw [addTask, if_neg (not_not_intro hsame)]
    simp only [Option.bind_eq_bind, Option.bind_some, hadd]
    rfl
  · rw [turns, if_neg hc] at hadd ⊢
    have hnew : (rotated count k tasks c).currentCluster ≠ getClusterIndexOfZimEntry entry :=
      fun h => hc h.symm
    rw [addTask, if_pos hnew, splice_rotated hcount k tasks c]
    simp only [Option.bind_eq_bind, Option.bind_some, hadd]
    rfl

/-- The number of the first stream. -/
theorem head?_rotated {count : Nat} (hcount : 0 < count) (k : Nat) (tasks : Nat → List Entry)
    (c : UInt32) :
    ∃ s, (rotated count k tasks c).taskStreams.head? = some s ∧ s.index = k % count := by
  obtain ⟨rest, hrest, -⟩ := rotate_range_eq_cons hcount k
  exact ⟨⟨k % count, tasks (k % count)⟩, by rw [rotated, hrest]; rfl, rfl⟩

/-- A loop over entries, from a dispatcher that has handed the last one, of the
cluster `c`, to the stream `k % count`. -/
theorem addTasks_rotated {count : Nat} (hcount : 0 < count) :
    ∀ (entries : List Entry) (k : Nat) (tasks : Nat → List Entry) (c : UInt32),
      ∃ k' tasks' c' streams,
        (rotated count k tasks c).addTasks entries = some (rotated count k' tasks' c', streams) ∧
        streams.length = entries.length ∧
        (∀ i, tasks' i = tasks i ++ ((entries.zip streams).filter fun p => p.2 = i).map Prod.fst) ∧
        ((c, k % count) :: (entries.map getClusterIndexOfZimEntry).zip streams).IsChain
          fun a b => b.2 = if b.1 = a.1 then a.2 else (a.2 + 1) % count
  | [], k, tasks, c => ⟨k, tasks, c, [], rfl, rfl, fun i => (List.append_nil _).symm, .singleton _⟩
  | entry :: entries, k, tasks, c => by
      obtain ⟨first, hfirst, hindex⟩ := head?_rotated hcount (turns k c entry)
        (Function.update tasks (turns k c entry % count)
          (tasks (turns k c entry % count) ++ [entry])) (getClusterIndexOfZimEntry entry)
      obtain ⟨k', tasks', c', streams, hrun, hlength, htasks, hchain⟩ :=
        addTasks_rotated hcount entries (turns k c entry)
          (Function.update tasks (turns k c entry % count)
            (tasks (turns k c entry % count) ++ [entry])) (getClusterIndexOfZimEntry entry)
      refine ⟨k', tasks', c', (turns k c entry % count) :: streams, ?_, ?_, fun i => ?_, ?_⟩
      · rw [addTasks, addTask_rotated hcount]
        simp only [Option.bind_eq_bind, Option.bind_some, hfirst, hrun, hindex]
      · rw [List.length_cons, List.length_cons, hlength]
      · rw [htasks i, List.zip_cons_cons]
        by_cases hi : turns k c entry % count = i
        · subst hi
          rw [Function.update_self, List.filter_cons_of_pos (by simp), List.map_cons,
            List.append_assoc]
          rfl
        · rw [Function.update_of_ne (fun h => hi h.symm), List.filter_cons_of_neg (by simpa using hi)]
      · rw [List.map_cons, List.zip_cons_cons, List.isChain_cons_cons]
        refine ⟨?_, hchain⟩
        simp only [turns]
        split_ifs
        · rfl
        · exact (Nat.mod_add_mod k count 1).symm

/-- The streams are numbered in their order. -/
theorem emplaceStreams_eq {startsThread : Nat → Bool} :
    ∀ {n m : Nat} {taskStreams : List Stream},
      emplaceStreams startsThread n ((List.range m).map fun i => ⟨i, []⟩) = some taskStreams →
        taskStreams = (List.range (m + n)).map fun i => ⟨i, []⟩
  | 0, m, taskStreams, h => (Option.some.inj h).symm
  | n + 1, m, taskStreams, h => by
      rw [emplaceStreams] at h
      split at h
      · have hnext : ((List.range m).map fun i => (⟨i, []⟩ : Stream)) ++
            [⟨((List.range m).map fun i => (⟨i, []⟩ : Stream)).length, []⟩] =
              (List.range (m + 1)).map fun i => ⟨i, []⟩ := by
          rw [List.range_succ, List.map_append, List.length_map, List.length_range]
          rfl
        rw [hnext] at h
        rw [emplaceStreams_eq h, Nat.add_assoc, Nat.add_comm 1 n]
      · cases h

theorem create_eq {startsThread : Nat → Bool} {n : UInt32} {td : TaskDispatcher}
    (h : create startsThread n = some td) : td = rotated n.toNat 0 (fun _ => []) (-1) := by
  obtain ⟨taskStreams, hstreams, rfl⟩ := Option.map_eq_some_iff.mp h
  rw [emplaceStreams_eq (m := 0) hstreams, Nat.zero_add, rotated, List.rotate_zero]

/-- With a stream every loop over entries gets through. -/
theorem dispatches_of_pos {count : Nat} (hcount : 0 < count) (entries : List Entry) (c : UInt32) :
    ∃ td streams, (rotated count 0 (fun _ => []) c).addTasks entries = some (td, streams) ∧
      Dispatches count entries td streams := by
  obtain ⟨k, tasks, c', streams, hrun, hlength, htasks, hchain⟩ :=
    addTasks_rotated hcount entries 0 (fun _ => []) c
  refine ⟨_, streams, hrun, hlength, ?_, fun s hs => ?_, hchain.of_cons⟩
  · have hindices : (rotated count k tasks c').taskStreams.map Stream.index =
        (List.range count).rotate k := by
      rw [rotated, List.map_map]
      exact List.map_id _
    rw [hindices]
    exact List.rotate_perm _ k
  · obtain ⟨i, -, rfl⟩ := List.mem_map.mp hs
    exact (htasks i).trans (List.nil_append _)

/-- Without one the first entry does not. -/
theorem addTasks_of_nil (c : UInt32) (entry : Entry) (entries : List Entry) :
    (⟨[], c⟩ : TaskDispatcher).addTasks (entry :: entries) = none := by
  rw [addTasks, addTask]
  split_ifs <;> rfl

/-! ## The option -/

theorem toNat_threadCount (threads : Int64) :
    ((threadCount threads).toNat : Int) = threads.toInt % 2 ^ 32 := by
  have hbits : (threadCount threads).toNat = threads.toBitVec.toNat % 2 ^ 32 := by
    change (threads.toBitVec.signExtend 32).toNat = _
    rw [BitVec.signExtend_eq_setWidth_of_le _ (by decide), BitVec.toNat_setWidth]
  have hint : threads.toInt = threads.toBitVec.toInt := rfl
  rw [hbits, hint, BitVec.toInt_eq_toNat_cond]
  split_ifs <;> omega

/-- For every number of threads and every list of entries, the entries get their
streams in turn exactly when there is a stream or no entry. -/
theorem dispatches_iff (startsThread : Nat → Bool) (threads : Int64) (entries : List Entry) :
    (∀ td, create startsThread (threadCount threads) = some td →
      ∃ td' streams, td.addTasks entries = some (td', streams) ∧
        Dispatches (threadCount threads).toNat entries td' streams) ↔
      threads.toInt % 2 ^ 32 ≠ 0 ∨ entries = [] := by
  rw [← toNat_threadCount, Int.natCast_ne_zero]
  constructor
  · intro hall
    by_contra hnone
    rw [not_or, not_not] at hnone
    obtain ⟨hzero, hentries⟩ := hnone
    have hcreate : create startsThread (threadCount threads) = some ⟨[], -1⟩ := by
      rw [create, hzero]
      rfl
    obtain ⟨td, streams, hrun, -⟩ := hall _ hcreate
    obtain ⟨entry, rest, rfl⟩ := List.exists_cons_of_ne_nil hentries
    rw [addTasks_of_nil] at hrun
    cases hrun
  · rintro hcond td htd
    obtain rfl := create_eq htd
    by_cases hcount : (threadCount threads).toNat = 0
    · obtain rfl := hcond.resolve_left (not_not_intro hcount)
      rw [hcount]
      exact ⟨_, [], rfl, rfl, .refl _, fun s hs => absurd hs List.not_mem_nil, .nil⟩
    · exact dispatches_of_pos (Nat.pos_of_ne_zero hcount) entries (-1)

/-- With `--threads=0` there is no stream for the first entry. -/
theorem threads_zero_undefined :
    ¬ ∀ (startsThread : Nat → Bool) (threads : Int64) (entries : List Entry) (td : TaskDispatcher),
      create startsThread (threadCount threads) = some td →
        ∃ td' streams, td.addTasks entries = some (td', streams) ∧
          Dispatches (threadCount threads).toNat entries td' streams := by
  intro h
  obtain ⟨td, streams, hrun, -⟩ :=
    h (fun _ => true) 0 [.redirect 0 (str "A/a") 1] ⟨[], -1⟩ rfl
  rw [addTasks_of_nil] at hrun
  cases hrun

end TaskDispatcher
end Zimcheck
end ZimTools
