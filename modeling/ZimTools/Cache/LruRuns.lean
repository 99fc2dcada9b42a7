import ZimTools.Cache.LruCache
import ZimTools.Lib.LastUse

/-!
# Runs of the cache of recently used values

The reference cache of this file is a map with the time of the last use of each
key.  It has no order of its own: an insertion of a new key into a full cache
takes away the key that was used before all others.

Whatever calls are made from the constructor on, the cache answers as the
reference cache does, and its list and its map keep in step (`run_reference`).
-/

namespace ZimTools

universe u v

variable {κ : Type u} {ν : Type v}

/-! ## Calls -/

/-- A call of a member function. -/
inductive LruCall (κ : Type u) (ν : Type v) where
  | put (key : κ) (value : ν)
  | get (key : κ)
  | getOrPut (key : κ) (value : ν)
  | drop (key : κ)
deriving Repr

/-- What a call returns. -/
inductive LruAnswer (ν : Type v) where
  | done
  | access (result : AccessResult ν)
  | dropped (found : Bool)
deriving DecidableEq, Repr

variable [DecidableEq κ]

namespace LruCacheData

def call (c : LruCacheData κ ν) : LruCall κ ν → Option (LruCacheData κ ν × LruAnswer ν)
  | .put key value => (c.put key value).map fun c' => (c', .done)
  | .get key => (c.get key).map (Prod.map id .access)
  | .getOrPut key value => (c.getOrPut key value).map (Prod.map id .access)
  | .drop key => (c.drop key).map (Prod.map id .dropped)

def run (c : LruCacheData κ ν) :
    List (LruCall κ ν) → Option (LruCacheData κ ν × List (LruAnswer ν))
  | [] => some (c, [])
  | k :: calls => do
      let (c, answer) ← c.call k
      let (c, answers) ← c.run calls
      some (c, answer :: answers)

end LruCacheData

namespace Recency

def call (capacity : Nat) (l : List (κ × ν)) : LruCall κ ν → List (κ × ν) × LruAnswer ν
  | .put key value => (put capacity key value l, .done)
  | .get key => Prod.map id .access (get key l)
  | .getOrPut key value => Prod.map id .access (getOrPut capacity key value l)
  | .drop key => Prod.map id .dropped (drop key l)

end Recency

/-! ## The reference cache -/

namespace LruReference

/-- A key that is present is used; a new one is used first and then shrinks the cache. -/
noncomputable def call (capacity : Nat) (m : TimedMap κ ν) :
    LruCall κ ν → TimedMap κ ν × LruAnswer ν
  | .put key value =>
      match m.entries key with
      | some _ => (m.use key value, .done)
      | none => ((m.use key value).shrink capacity, .done)
  | .get key =>
      match m.entries key with
      | some e => (m.use key e.1, .access (.hit e.1))
      | none => (m, .access .missed)
  | .getOrPut key value =>
      match m.entries key with
      | some e => (m.use key e.1, .access (.hit e.1))
      | none => ((m.use key value).shrink capacity, .access (.put value))
  | .drop key => (m.forget key, .dropped (m.entries key).isSome)

noncomputable def run (capacity : Nat) (m : TimedMap κ ν) :
    List (LruCall κ ν) → TimedMap κ ν × List (LruAnswer ν)
  | [] => (m, [])
  | k :: calls =>
      let (m, answer) := call capacity m k
      let (m, answers) := run capacity m calls
      (m, answer :: answers)

end LruReference

/-! ## The list without its times -/

namespace Recency

def untimed (l : List (κ × ν × Nat)) : List (κ × ν) := l.map fun e => (e.1, e.2.1)

theorem lookup_untimed (l : List (κ × ν × Nat)) (key : κ) :
    (untimed l).lookup key = (l.lookup key).map Prod.fst := by
  induction l with
  | nil => rfl
  | cons e l ih =>
      have hcons : untimed (e :: l) = (e.1, e.2.1) :: untimed l := rfl
      rw [hcons, TimedMap.lookup_cons_ite, TimedMap.lookup_cons_ite, ih]
      split_ifs <;> rfl

theorem remove_untimed (key : κ) (l : List (κ × ν × Nat)) :
    remove key (untimed l) = untimed (l.filter (·.1 ≠ key)) :=
  List.filter_map

omit [DecidableEq κ] in
theorem insert_untimed (capacity : Nat) (key : κ) (value : ν) (l : List (κ × ν × Nat))
    (time : Nat) :
    insert capacity key value (untimed l) =
      untimed (((key, value, time) :: l).take capacity) := by
  rw [insert, untimed, untimed, List.map_take, List.map_cons]

section

variable {l : List (κ × ν × Nat)} {m : TimedMap κ ν} {capacity : Nat}

/-- A key that is used goes to the front. -/
theorem use_untimed (h : m.Represents l) (key : κ) (value : ν) :
    ∃ l', (m.use key value).Represents l' ∧
      untimed l' = (key, value) :: remove key (untimed l) := by
  refine ⟨_, h.use key value, ?_⟩
  rw [remove_untimed]
  rfl

/-- A new key comes to the front, and the last one goes when there is no room. -/
theorem shrink_untimed (h : m.Represents l) (hsize : l.length ≤ capacity) {key : κ}
    (hkey : m.entries key = none) (value : ν) :
    ∃ l', ((m.use key value).shrink capacity).Represents l' ∧
      untimed l' = insert capacity key value (untimed l) :=
  ⟨_, (h.use_new hkey value).shrink (Nat.succ_le_succ hsize),
    (insert_untimed capacity key value l m.now).symm⟩

/-- A call of the list is one of the map with times that it represents. -/
theorem call_untimed (h : m.Represents l) (hsize : l.length ≤ capacity) (k : LruCall κ ν) :
    ∃ l', (LruReference.call capacity m k).1.Represents l' ∧
      call capacity (untimed l) k = (untimed l', (LruReference.call capacity m k).2) := by
  cases k with
  | put key value =>
      simp only [call, put, LruReference.call, lookup_untimed, h.entries]
      cases hkey : m.entries key with
      | some e =>
          obtain ⟨l', hl', heq⟩ := use_untimed h key value
          exact ⟨l', hl', Prod.ext heq.symm rfl⟩
      | none =>
          obtain ⟨l', hl', heq⟩ := shrink_untimed h hsize hkey value
          exact ⟨l', hl', Prod.ext heq.symm rfl⟩
  | get key =>
      simp only [call, get, LruReference.call, lookup_untimed, h.entries]
      cases hkey : m.entries key with
      | some e =>
          obtain ⟨l', hl', heq⟩ := use_untimed h key e.1
          exact ⟨l', hl', Prod.ext heq.symm rfl⟩
      | none => exact ⟨l, h, rfl⟩
  | getOrPut key value =>
      simp only [call, getOrPut, LruReference.call, lookup_untimed, h.entries]
      cases hkey : m.entries key with
      | some e =>
          obtain ⟨l', hl', heq⟩ := use_untimed h key e.1
          exact ⟨l', hl', Prod.ext heq.symm rfl⟩
      | none =>
          obtain ⟨l', hl', heq⟩ := shrink_untimed h hsize hkey value
          exact ⟨l', hl', Prod.ext heq.symm rfl⟩
  | drop key =>
      refine ⟨_, h.forget key, ?_⟩
      rw [call, drop, remove_untimed, lookup_untimed, h.entries, Option.isSome_map]
      rfl

end
end Recency

/-! ## Runs -/

namespace LruCacheData

theorem call_spec {c : LruCacheData κ ν} (h : c.Consistent) (k : LruCall κ ν) :
    ∃ b, c.call k = some b ∧ c.Matches (Recency.call c.maxSize c.contents k) b := by
  cases k with
  | put key value =>
      obtain ⟨c', hc, hbecomes⟩ := put_spec h key value
      exact ⟨(c', .done), congrArg (Option.map _) hc, hbecomes, rfl⟩
  | get key =>
      obtain ⟨b, hb, hbecomes, hanswer⟩ := get_spec h key
      exact ⟨_, congrArg (Option.map _) hb, hbecomes, congrArg _ hanswer⟩
  | getOrPut key value =>
      obtain ⟨b, hb, hbecomes, hanswer⟩ := getOrPut_spec h key value
      exact ⟨_, congrArg (Option.map _) hb, hbecomes, congrArg _ hanswer⟩
  | drop key =>
      obtain ⟨b, hb, hbecomes, hanswer⟩ := drop_spec h key
      exact ⟨_, congrArg (Option.map _) hb, hbecomes, congrArg _ hanswer⟩

/-- The containers keep in step with each other and with the reference cache. -/
structure Follows (capacity : Nat) (c : LruCacheData κ ν) (m : TimedMap κ ν) : Prop where
  consistent : c.Consistent
  maxSize : c.maxSize = capacity
  represented : ∃ l, m.Represents l ∧ c.contents = Recency.untimed l

variable {capacity : Nat} {c : LruCacheData κ ν} {m : TimedMap κ ν}

theorem Follows.create : Follows capacity (LruCache.create capacity).data (.empty : TimedMap κ ν) :=
  ⟨(LruCache.create capacity).consistent, rfl, [], TimedMap.Represents.nil, rfl⟩

theorem Follows.call (h : Follows capacity c m) (k : LruCall κ ν) :
    ∃ c', c.call k = some (c', (LruReference.call capacity m k).2) ∧
      Follows capacity c' (LruReference.call capacity m k).1 := by
  obtain ⟨hconsistent, rfl, l, hl, hcontents⟩ := h
  have hsize : l.length ≤ c.maxSize := by
    have hlength := congrArg List.length hcontents
    rw [contents, Recency.untimed, List.length_map, List.length_map] at hlength
    exact hlength ▸ hconsistent.bounded
  obtain ⟨l', hl', hcall⟩ := Recency.call_untimed hl hsize k
  obtain ⟨⟨c', answer⟩, hb, hbecomes, hanswer⟩ := call_spec hconsistent k
  rw [hcontents, hcall] at hbecomes hanswer
  refine ⟨c', ?_, hbecomes.consistent, hbecomes.maxSize, l', hl', hbecomes.contents⟩
  rw [hb, ← hanswer]

theorem Follows.run (h : Follows capacity c m) (calls : List (LruCall κ ν)) :
    ∃ c', c.run calls = some (c', (LruReference.run capacity m calls).2) ∧
      Follows capacity c' (LruReference.run capacity m calls).1 := by
  induction calls generalizing c m with
  | nil => exact ⟨c, rfl, h⟩
  | cons k calls ih =>
      obtain ⟨c₁, hcall, h₁⟩ := h.call k
      obtain ⟨c₂, hrun, h₂⟩ := ih h₁
      refine ⟨c₂, ?_, h₂⟩
      rw [LruCacheData.run, hcall, Option.bind_eq_bind, Option.bind_some]
      dsimp only
      rw [hrun]
      rfl

/-- The keys of the list and the map are the same, and no key is twice. -/
theorem Consistent.keys_perm (h : c.Consistent) :
    (c.cacheItemsList.map Node.key).Nodup ∧
      c.cacheItemsMap.keys.Perm (c.cacheItemsList.map Node.key) := by
  have hkeys : (c.cacheItemsList.map index).map Sigma.fst = c.cacheItemsList.map Node.key :=
    List.map_map
  exact ⟨keys_nodup_of_indexed h.indexed, hkeys ▸ h.indexed.map Sigma.fst⟩

theorem Consistent.size_le (h : c.Consistent) : c.cacheItemsMap.entries.length ≤ c.maxSize := by
  rw [h.indexed.length_eq, List.length_map]
  exact h.bounded

theorem Follows.lookup_contents (h : Follows capacity c m) (key : κ) :
    c.contents.lookup key = (m.entries key).map Prod.fst := by
  obtain ⟨l, hl, hcontents⟩ := h.represented
  rw [hcontents, Recency.lookup_untimed, hl.entries]

end LruCacheData

/-- Whatever calls are made, the cache has the answers and the values of the
reference cache, and its iterators lead from each key to its node. -/
theorem LruCacheData.run_reference (capacity : Nat) (calls : List (LruCall κ ν)) :
    let reference := LruReference.run capacity TimedMap.empty calls
    ∃ c, (LruCache.create capacity).data.run calls = some (c, reference.2) ∧
      (c.cacheItemsList.map Node.key).Nodup ∧
      c.cacheItemsMap.keys.Perm (c.cacheItemsList.map Node.key) ∧
      (∀ key it, c.cacheItemsMap.lookup key = some it →
        ∃ node ∈ c.cacheItemsList, c.deref it = some node ∧ node.key = key) ∧
      c.cacheItemsMap.entries.length ≤ capacity ∧
      ∀ key, c.contents.lookup key = (reference.1.entries key).map Prod.fst := by
  intro reference
  have hcreate : Follows capacity (LruCache.create capacity).data (.empty : TimedMap κ ν) :=
    Follows.create
  obtain ⟨c, hrun, h⟩ := hcreate.run calls
  obtain ⟨hnodup, hperm⟩ := h.consistent.keys_perm
  refine ⟨c, hrun, hnodup, hperm, fun key it hit => ?_, ?_, h.lookup_contents⟩
  · obtain ⟨a, node, b, hlist, hkey, -, hderef, -⟩ := h.consistent.located hit
    exact ⟨node, hlist ▸ List.mem_append_right a (List.mem_cons_self ..), hderef, hkey⟩
  · exact h.maxSize ▸ h.consistent.size_le

end ZimTools
