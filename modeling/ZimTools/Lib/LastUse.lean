import Mathlib.Data.List.Dedup
import Mathlib.Data.Set.Card

/-!
# Maps with times of use

A `TimedMap` has for each of its keys a value and the time of the last use.
Times tell which key went unused for longest: `shrink` takes it away from a map
of more keys than a capacity.

A list of entries in the order of their times `Represents` such a map.  Its
first entry is the one used last, so that a use moves an entry to the front and
the one to take away is at the end.
-/

universe u v

/-- A map with the time of the last use of each key, and the time now. -/
structure TimedMap (κ : Type u) (ν : Type v) where
  now : Nat
  entries : κ → Option (ν × Nat)

namespace TimedMap

variable {κ : Type u} {ν : Type v}

def empty : TimedMap κ ν := ⟨0, fun _ => none⟩

def keys (m : TimedMap κ ν) : Set κ := {key | (m.entries key).isSome}

/-- Whether a key was used before a time. -/
def UsedBefore (m : TimedMap κ ν) (time : Nat) : Prop :=
  ∃ key value earlier, m.entries key = some (value, earlier) ∧ earlier < time

/-- An entry stays when another one was used before it, so that the oldest goes. -/
noncomputable def evictOldest (m : TimedMap κ ν) : TimedMap κ ν :=
  open Classical in
  { m with entries := fun key => (m.entries key).filter fun e => m.UsedBefore e.2 }

open Classical in
theorem entries_evictOldest (m : TimedMap κ ν) (key : κ) :
    m.evictOldest.entries key = (m.entries key).filter fun e => m.UsedBefore e.2 := rfl

/-- Only a map of more keys than the capacity loses one. -/
noncomputable def shrink (capacity : Nat) (m : TimedMap κ ν) : TimedMap κ ν :=
  if capacity < m.keys.ncard then m.evictOldest else m

variable [DecidableEq κ]

/-- The key has the value, and is used now. -/
def use (m : TimedMap κ ν) (key : κ) (value : ν) : TimedMap κ ν :=
  ⟨m.now + 1, Function.update m.entries key (some (value, m.now))⟩

def forget (m : TimedMap κ ν) (key : κ) : TimedMap κ ν :=
  { m with entries := Function.update m.entries key none }

theorem entries_use (m : TimedMap κ ν) (key : κ) (value : ν) (other : κ) :
    (m.use key value).entries other =
      if other = key then some (value, m.now) else m.entries other :=
  Function.update_apply ..

theorem entries_forget (m : TimedMap κ ν) (key other : κ) :
    (m.forget key).entries other = if other = key then none else m.entries other :=
  Function.update_apply ..

/-! ## Lists in the order of use -/

theorem lookup_cons_ite (e : κ × ν) (l : List (κ × ν)) (key : κ) :
    (e :: l).lookup key = if key = e.1 then some e.2 else l.lookup key := by
  rw [List.lookup_cons]
  split_ifs with h
  · rw [beq_iff_eq.mpr h]
  · rw [beq_eq_false_iff_ne.mpr h]

theorem lookup_filter_ne (l : List (κ × ν)) (key other : κ) :
    (l.filter (·.1 ≠ key)).lookup other = if other = key then none else l.lookup other := by
  induction l with
  | nil => exact (ite_self none).symm
  | cons e l ih =>
      by_cases he : e.1 = key
      · rw [List.filter_cons_of_neg (by simpa using he), ih, lookup_cons_ite, he]
        split_ifs <;> rfl
      · rw [List.filter_cons_of_pos (by simpa using he), lookup_cons_ite, lookup_cons_ite, ih]
        split_ifs with ho hk
        · exact absurd (ho.symm.trans hk) he
        all_goals rfl

/-- A list has the entries of a map, in the order of their times. -/
structure Represents (l : List (κ × ν × Nat)) (m : TimedMap κ ν) : Prop where
  ordered : l.Pairwise fun later earlier => later.1 ≠ earlier.1 ∧ earlier.2.2 < later.2.2
  past : ∀ e ∈ l, e.2.2 < m.now
  entries : ∀ key, l.lookup key = m.entries key

namespace Represents

variable {l : List (κ × ν × Nat)} {m : TimedMap κ ν}

theorem nil : Represents [] (empty : TimedMap κ ν) :=
  ⟨List.Pairwise.nil, List.forall_mem_nil _, fun _ => rfl⟩

theorem forget (h : Represents l m) (key : κ) :
    Represents (l.filter (·.1 ≠ key)) (m.forget key) := by
  refine ⟨h.ordered.filter _, fun e he => h.past e (List.mem_of_mem_filter he), fun other => ?_⟩
  rw [lookup_filter_ne, entries_forget, h.entries]

theorem use (h : Represents l m) (key : κ) (value : ν) :
    Represents ((key, value, m.now) :: l.filter (·.1 ≠ key)) (m.use key value) := by
  refine ⟨List.pairwise_cons.mpr ⟨fun e he => ?_, h.ordered.filter _⟩, ?_, fun other => ?_⟩
  · obtain ⟨hmem, hne⟩ := List.mem_filter.mp he
    exact ⟨Ne.symm (of_decide_eq_true hne), h.past e hmem⟩
  · refine List.forall_mem_cons.mpr ⟨Nat.lt_succ_self _, fun e he => ?_⟩
    exact Nat.lt_succ_of_lt (h.past e (List.mem_of_mem_filter he))
  · rw [lookup_cons_ite, lookup_filter_ne, entries_use, h.entries]
    split_ifs <;> rfl

/-- A new key is used in front of all others. -/
theorem use_new (h : Represents l m) {key : κ} (hkey : m.entries key = none) (value : ν) :
    Represents ((key, value, m.now) :: l) (m.use key value) := by
  have hfilter : l.filter (·.1 ≠ key) = l := by
    refine List.filter_eq_self.mpr fun e he => decide_eq_true fun heq => ?_
    rw [← h.entries, List.lookup_eq_none_iff] at hkey
    have hne := hkey e he
    rw [heq, bne_self_eq_false] at hne
    exact Bool.false_ne_true hne
  rw [← hfilter]
  exact h.use key value

theorem mem_iff (h : Represents l m) {key : κ} {e : ν × Nat} :
    (key, e) ∈ l ↔ m.entries key = some e := by
  rw [← h.entries]
  constructor
  · intro hmem
    obtain ⟨a, b, rfl⟩ := List.append_of_mem hmem
    have hbefore : a.lookup key = none := by
      refine List.lookup_eq_none_iff.mpr fun x hx => bne_iff_ne.mpr fun heq => ?_
      have hpair := (List.pairwise_append.mp h.ordered).2.2 x hx _ (List.mem_cons_self ..)
      exact hpair.1 heq.symm
    rw [List.lookup_append, hbefore, List.lookup_cons_self]
    rfl
  · intro hlookup
    obtain ⟨a, b, rfl, -⟩ := List.lookup_eq_some_iff.mp hlookup
    exact List.mem_append_right a (List.mem_cons_self ..)

theorem ncard_keys (h : Represents l m) : m.keys.ncard = l.length := by
  have hnodup : (l.map Prod.fst).Nodup := List.pairwise_map.mpr (h.ordered.imp And.left)
  have hkeys : m.keys = ((l.map Prod.fst).toFinset : Set κ) := by
    ext key
    rw [List.coe_toFinset, Set.mem_ofPred_eq, List.mem_map]
    constructor
    · intro hkey
      obtain ⟨e, he⟩ := Option.isSome_iff_exists.mp hkey
      exact ⟨(key, e), h.mem_iff.mpr he, rfl⟩
    · rintro ⟨e, he, rfl⟩
      exact Option.isSome_iff_exists.mpr ⟨e.2, h.mem_iff.mp he⟩
  rw [hkeys, Set.ncard_coe_finset, List.toFinset_card_of_nodup hnodup, List.length_map]

/-- The oldest entry is the last one. -/
theorem evictOldest {last : κ × ν × Nat} (h : Represents (l ++ [last]) m) :
    Represents l m.evictOldest := by
  obtain ⟨hordered, -, hlast⟩ := List.pairwise_append.mp h.ordered
  have hpast : ∀ e ∈ l, e.2.2 < m.now := fun e he => h.past e (List.mem_append_left _ he)
  have holder : ∀ e ∈ l, m.UsedBefore e.2.2 := fun e he =>
    ⟨last.1, last.2.1, last.2.2, h.mem_iff.mp (List.mem_append_right _ (List.mem_singleton_self _)),
      (hlast e he last (List.mem_singleton_self _)).2⟩
  have holdest : ¬ m.UsedBefore last.2.2 := by
    rintro ⟨key, value, earlier, he, hlt⟩
    obtain hmem | hmem := List.mem_append.mp (h.mem_iff.mpr he)
    · exact Nat.lt_asymm hlt (hlast _ hmem last (List.mem_singleton_self _)).2
    · rw [← List.mem_singleton.mp hmem] at hlt
      exact Nat.lt_irrefl _ hlt
  refine ⟨hordered, hpast, fun key => ?_⟩
  rw [entries_evictOldest, ← h.entries, List.lookup_append]
  cases hkey : l.lookup key with
  | some e =>
      obtain ⟨a, b, hl, -⟩ := List.lookup_eq_some_iff.mp hkey
      have hmem : (key, e) ∈ l := hl ▸ List.mem_append_right a (List.mem_cons_self ..)
      rw [Option.some_or]
      exact (Option.filter_some_pos (by simpa using holder _ hmem)).symm
  | none =>
      rw [Option.none_or, lookup_cons_ite]
      split_ifs
      · exact (Option.filter_some_neg (by simpa using holdest)).symm
      · rfl

/-- What exceeds the capacity is at the end. -/
theorem shrink (h : Represents l m) {capacity : Nat} (hsize : l.length ≤ capacity + 1) :
    Represents (l.take capacity) (m.shrink capacity) := by
  rw [TimedMap.shrink, h.ncard_keys]
  split_ifs with hlarge
  · obtain rfl | ⟨front, last, rfl⟩ := List.eq_nil_or_concat' l
    · exact absurd hlarge (Nat.not_lt_zero _)
    · rw [List.length_append, List.length_singleton] at hsize hlarge
      have hfront : front.length = capacity :=
        Nat.le_antisymm (Nat.le_of_succ_le_succ hsize) (Nat.le_of_lt_succ hlarge)
      rw [← hfront, List.take_left]
      exact h.evictOldest
  · rw [List.take_of_length_le (Nat.not_lt.mp hlarge)]
    exact h

end Represents
end TimedMap
