import Mathlib.Data.List.AList

/-!
# The cache of recently used values

`lru_cache` keeps its entries in a linked list, the most recently used one
first, and the position of each key in a map of list iterators.  An iterator is
modelled by the number its node was created under: `splice` moves a node and
keeps it, so that iterators stay valid.  An operation that follows an iterator
to no node has no result.

`LruCache` carries the consistency of the two containers (`Consistent`), which
every operation keeps.  What the operations do is said over the bare list of
keys and values: each is the operation of the same name of the reference cache.
-/

namespace ZimTools

universe u v

variable {κ : Type u} {ν : Type v} [DecidableEq κ]

/-! ## The containers -/

/-- A node of the list, with the number that identifies it. -/
structure Node (κ : Type u) (ν : Type v) where
  id : Nat
  key : κ
  value : ν

def Node.entry (node : Node κ ν) : κ × ν := (node.key, node.value)

/-- The data members, and the number of the next node. -/
structure LruCacheData (κ : Type u) (ν : Type v) [DecidableEq κ] where
  cacheItemsList : List (Node κ ν)
  cacheItemsMap : AList fun _ : κ => Nat
  maxSize : Nat
  nextNode : Nat

/-- `AccessResult`: its status, and its value unless the status is `MISS`. -/
inductive AccessResult (ν : Type v) where
  | hit (val : ν)
  | put (val : ν)
  | missed
deriving DecidableEq, Repr

namespace AccessResult

def isHit : AccessResult ν → Bool
  | .hit _ => true
  | _ => false

def miss (r : AccessResult ν) : Bool := !r.isHit

/-- `value()`, which throws on the status `MISS`. -/
def value : AccessResult ν → Option ν
  | .hit val => some val
  | .put val => some val
  | .missed => none

end AccessResult

namespace LruCacheData

/-- The node an iterator points to. -/
def deref (c : LruCacheData κ ν) (it : Nat) : Option (Node κ ν) :=
  c.cacheItemsList.find? (·.id == it)

/-- `_cache_items_list.splice(begin, _cache_items_list, it)`. -/
def splice (c : LruCacheData κ ν) (it : Nat) : Option (LruCacheData κ ν) := do
  let node ← c.deref it
  some { c with cacheItemsList := node :: c.cacheItemsList.eraseP (·.id == it) }

/-- Assigns to the value behind an iterator. -/
def assign (c : LruCacheData κ ν) (it : Nat) (value : ν) : Option (LruCacheData κ ν) := do
  let _ ← c.deref it
  some { c with cacheItemsList := c.cacheItemsList.map fun node =>
    if node.id == it then { node with value := value } else node }

def pushFront (c : LruCacheData κ ν) (key : κ) (value : ν) : LruCacheData κ ν :=
  { c with
    cacheItemsList := ⟨c.nextNode, key, value⟩ :: c.cacheItemsList
    cacheItemsMap := c.cacheItemsMap.insert key c.nextNode
    nextNode := c.nextNode + 1 }

/-- The end of `putMissing`: the last node is dropped from a cache too large. -/
def evict (c : LruCacheData κ ν) : Option (LruCacheData κ ν) :=
  if c.cacheItemsMap.entries.length > c.maxSize then do
    let back ← c.cacheItemsList.getLast?
    some { c with
      cacheItemsList := c.cacheItemsList.dropLast
      cacheItemsMap := c.cacheItemsMap.erase back.key }
  else some c

def putMissing (c : LruCacheData κ ν) (key : κ) (value : ν) : Option (LruCacheData κ ν) :=
  (c.pushFront key value).evict

def getOrPut (c : LruCacheData κ ν) (key : κ) (value : ν) :
    Option (LruCacheData κ ν × AccessResult ν) :=
  match c.cacheItemsMap.lookup key with
  | some it => do
      let c ← c.splice it
      let node ← c.deref it
      some (c, .hit node.value)
  | none => do
      let c ← c.putMissing key value
      some (c, .put value)

def put (c : LruCacheData κ ν) (key : κ) (value : ν) : Option (LruCacheData κ ν) :=
  match c.cacheItemsMap.lookup key with
  | some it => do
      let c ← c.splice it
      c.assign it value
  | none => c.putMissing key value

def get (c : LruCacheData κ ν) (key : κ) : Option (LruCacheData κ ν × AccessResult ν) :=
  match c.cacheItemsMap.lookup key with
  | some it => do
      let c ← c.splice it
      let node ← c.deref it
      some (c, .hit node.value)
  | none => some (c, .missed)

def drop (c : LruCacheData κ ν) (key : κ) : Option (LruCacheData κ ν × Bool) :=
  match c.cacheItemsMap.lookup key with
  | some it => do
      let _ ← c.deref it
      some ({ c with
        cacheItemsList := c.cacheItemsList.eraseP (·.id == it)
        cacheItemsMap := c.cacheItemsMap.erase key }, true)
  | none => some (c, false)

/-! ## Consistency -/

/-- The map entry of a node. -/
def index (node : Node κ ν) : Σ _ : κ, Nat := ⟨node.key, node.id⟩

/-- The map holds one iterator for each node, under its key. -/
structure Consistent (c : LruCacheData κ ν) : Prop where
  indexed : c.cacheItemsMap.entries.Perm (c.cacheItemsList.map index)
  distinct : (c.cacheItemsList.map Node.id).Nodup
  fresh : ∀ node ∈ c.cacheItemsList, node.id < c.nextNode
  bounded : c.cacheItemsList.length ≤ c.maxSize

omit [DecidableEq κ] in
theorem keys_nodup_of_indexed {l : List (Node κ ν)} {m : AList fun _ : κ => Nat}
    (h : m.entries.Perm (l.map index)) : (l.map Node.key).Nodup := by
  have hkeys : (l.map index).keys.Nodup := (List.perm_nodupKeys h).mp m.nodupKeys
  simpa [List.keys, Function.comp_def, index] using hkeys

theorem lookup_none_iff {c : LruCacheData κ ν} (h : c.Consistent) (key : κ) :
    c.cacheItemsMap.lookup key = none ↔ key ∉ c.cacheItemsList.map Node.key := by
  rw [AList.lookup_eq_none, AList.mem_keys, AList.keys, List.keys, (h.indexed.map _).mem_iff,
    List.map_map]
  rfl

/-- The node a map iterator points to is the only one with its key and number. -/
theorem Consistent.split {c : LruCacheData κ ν} (h : c.Consistent) {key : κ} {it : Nat}
    (hit : c.cacheItemsMap.lookup key = some it) :
    ∃ a node b, c.cacheItemsList = a ++ node :: b ∧ node.key = key ∧ node.id = it ∧
      ∀ other ∈ a ++ b, other.key ≠ key ∧ other.id ≠ it := by
  have hmem : (⟨key, it⟩ : Σ _ : κ, Nat) ∈ c.cacheItemsList.map index :=
    h.indexed.mem_iff.mp (AList.mem_lookup_iff.mp hit)
  obtain ⟨node, hnode, heq⟩ := List.mem_map.mp hmem
  obtain ⟨rfl, rfl⟩ : node.key = key ∧ node.id = it := by simpa [index] using heq
  obtain ⟨a, b, hlist⟩ := List.append_of_mem hnode
  have hkeys := keys_nodup_of_indexed h.indexed
  have hids := h.distinct
  rw [hlist, List.map_append, List.map_cons, List.nodup_middle, List.nodup_cons,
    ← List.map_append] at hkeys hids
  refine ⟨a, node, b, hlist, rfl, rfl, fun other ho => ⟨fun hk => ?_, fun hi => ?_⟩⟩
  · exact hkeys.1 (hk ▸ List.mem_map_of_mem ho)
  · exact hids.1 (hi ▸ List.mem_map_of_mem ho)

/-! ## The reference cache

It is the list of the keys with their values, the most recently used first. -/

/-- The keys and values in the order of the list. -/
def contents (c : LruCacheData κ ν) : List (κ × ν) :=
  c.cacheItemsList.map Node.entry

end LruCacheData

namespace Recency

def remove (key : κ) (l : List (κ × ν)) : List (κ × ν) := l.filter (·.1 ≠ key)

/-- A new key goes to the front, and what exceeds the capacity goes. -/
def insert (capacity : Nat) (key : κ) (value : ν) (l : List (κ × ν)) : List (κ × ν) :=
  ((key, value) :: l).take capacity

def getOrPut (capacity : Nat) (key : κ) (value : ν) (l : List (κ × ν)) :
    List (κ × ν) × AccessResult ν :=
  match l.lookup key with
  | some val => ((key, val) :: remove key l, .hit val)
  | none => (insert capacity key value l, .put value)

def put (capacity : Nat) (key : κ) (value : ν) (l : List (κ × ν)) : List (κ × ν) :=
  match l.lookup key with
  | some _ => (key, value) :: remove key l
  | none => insert capacity key value l

def get (key : κ) (l : List (κ × ν)) : List (κ × ν) × AccessResult ν :=
  match l.lookup key with
  | some val => ((key, val) :: remove key l, .hit val)
  | none => (l, .missed)

def drop (key : κ) (l : List (κ × ν)) : List (κ × ν) × Bool :=
  (remove key l, (l.lookup key).isSome)

/-- An entry that is the only one of its key is found, and removed alone. -/
theorem lookup_middle {a b : List (κ × ν)} (key : κ) (val : ν)
    (h : ∀ e ∈ a ++ b, e.1 ≠ key) :
    (a ++ (key, val) :: b).lookup key = some val ∧
      remove key (a ++ (key, val) :: b) = a ++ b := by
  have ha : ∀ e ∈ a, e.1 ≠ key := fun e he => h e (List.mem_append_left _ he)
  have hb : ∀ e ∈ b, e.1 ≠ key := fun e he => h e (List.mem_append_right _ he)
  constructor
  · rw [List.lookup_append, List.lookup_eq_none_iff.mpr, List.lookup_cons_self]
    · rfl
    · exact fun e he => by simpa using (ha e he).symm
  · rw [remove, List.filter_append, List.filter_cons_of_neg (by simp),
      List.filter_eq_self.mpr fun e he => by simpa using ha e he,
      List.filter_eq_self.mpr fun e he => by simpa using hb e he]

theorem lookup_eq_none {l : List (κ × ν)} {key : κ} :
    l.lookup key = none ↔ key ∉ l.map Prod.fst := by
  rw [List.lookup_eq_none_iff]
  constructor
  · intro h hk
    obtain ⟨e, he, rfl⟩ := List.mem_map.mp hk
    simpa using h e he
  · intro h e he
    simp only [bne_iff_ne, ne_eq]
    rintro rfl
    exact h (List.mem_map_of_mem he)

theorem mem_of_lookup {l : List (κ × ν)} {key : κ} {val : ν} (h : l.lookup key = some val) :
    (key, val) ∈ l := by
  obtain ⟨a, b, rfl, -⟩ := List.lookup_eq_some_iff.mp h
  exact List.mem_append_right a (List.mem_cons_self ..)

/-- What a lookup finds is in the list; what it puts was missing. -/
theorem getOrPut_answer (capacity : Nat) (key : κ) (value : ν) (l : List (κ × ν)) :
    (∃ val, (key, val) ∈ l ∧ (getOrPut capacity key value l).2 = .hit val) ∨
      (key ∉ l.map Prod.fst ∧ (getOrPut capacity key value l).2 = .put value) := by
  unfold getOrPut
  cases hl : l.lookup key with
  | some val => exact Or.inl ⟨val, mem_of_lookup hl, rfl⟩
  | none => exact Or.inr ⟨lookup_eq_none.mp hl, rfl⟩

/-- With room for an entry the key that was looked up is in front. -/
theorem head?_getOrPut {capacity : Nat} (hcapacity : 0 < capacity) (key : κ) (value : ν)
    (l : List (κ × ν)) :
    ((getOrPut capacity key value l).1.head?).map Prod.fst = some key := by
  obtain ⟨room, rfl⟩ := Nat.exists_eq_succ_of_ne_zero (Nat.ne_of_gt hcapacity)
  unfold getOrPut
  cases l.lookup key <;> rfl

theorem mem_of_mem_getOrPut {capacity : Nat} {key : κ} {value : ν} {l : List (κ × ν)}
    {e : κ × ν} (he : e ∈ (getOrPut capacity key value l).1) : e ∈ l ∨ e = (key, value) := by
  unfold getOrPut at he
  cases hl : l.lookup key with
  | some val =>
      rw [hl] at he
      rcases List.mem_cons.mp he with rfl | he
      · exact Or.inl (mem_of_lookup hl)
      · exact Or.inl (List.mem_of_mem_filter he)
  | none =>
      rw [hl] at he
      rcases List.mem_cons.mp (List.mem_of_mem_take he) with rfl | he
      · exact Or.inr rfl
      · exact Or.inl he

theorem mem_remove {key : κ} {l : List (κ × ν)} {e : κ × ν} :
    e ∈ remove key l ↔ e ∈ l ∧ e.1 ≠ key := by
  simp [remove]

end Recency

/-! ## The operations keep the containers consistent -/

namespace LruCacheData

/-- `c'` is consistent, of the same capacity, and has the contents `l`. -/
structure Becomes (c c' : LruCacheData κ ν) (l : List (κ × ν)) : Prop where
  consistent : c'.Consistent
  maxSize : c'.maxSize = c.maxSize
  contents : c'.contents = l

/-- The data and the answer `b` of an operation are those of the reference cache. -/
structure Matches {ρ : Type*} (c : LruCacheData κ ν) (reference : List (κ × ν) × ρ)
    (b : LruCacheData κ ν × ρ) : Prop where
  becomes : c.Becomes b.1 reference.1
  answer : b.2 = reference.2

omit [DecidableEq κ] in
theorem find?_eraseP_split {a b : List (Node κ ν)} {node : Node κ ν}
    (h : ∀ other ∈ a ++ b, other.id ≠ node.id) :
    (a ++ node :: b).find? (·.id == node.id) = some node ∧
      (a ++ node :: b).eraseP (·.id == node.id) = a ++ b := by
  have ha : ∀ other ∈ a, ¬ (other.id == node.id) = true := fun other ho => by
    simpa using h other (List.mem_append_left _ ho)
  constructor
  · rw [List.find?_append, List.find?_eq_none.mpr ha, List.find?_cons_of_pos (by simp)]
    rfl
  · rw [List.eraseP_append_right _ ha, List.eraseP_cons_of_pos (by simp)]

/-- Where an iterator of the map points to, in the list and in the contents. -/
theorem Consistent.located {c : LruCacheData κ ν} (h : c.Consistent) {key : κ} {it : Nat}
    (hit : c.cacheItemsMap.lookup key = some it) :
    ∃ a node b, c.cacheItemsList = a ++ node :: b ∧ node.key = key ∧ node.id = it ∧
      c.deref it = some node ∧ c.cacheItemsList.eraseP (·.id == it) = a ++ b ∧
      c.contents.lookup key = some node.value ∧
      Recency.remove key c.contents = (a ++ b).map Node.entry := by
  obtain ⟨a, node, b, hlist, rfl, rfl, hother⟩ := h.split hit
  obtain ⟨hfind, herase⟩ := find?_eraseP_split fun other ho => (hother other ho).2
  have hcontents : c.contents = a.map Node.entry ++ (node.key, node.value) :: b.map Node.entry := by
    simp [contents, hlist, Node.entry]
  obtain ⟨hlookup, hremove⟩ := Recency.lookup_middle node.key node.value
    (a := a.map Node.entry) (b := b.map Node.entry) fun e he => by
      rw [← List.map_append] at he
      obtain ⟨other, ho, rfl⟩ := List.mem_map.mp he
      exact (hother other ho).1
  refine ⟨a, node, b, hlist, rfl, rfl, ?_, ?_, ?_, ?_⟩
  · rw [deref, hlist, hfind]
  · rw [hlist, herase]
  · rw [hcontents, hlookup]
  · rw [hcontents, hremove, List.map_append]

/-- What is found is the reference cache's value, and moves to the front. -/
theorem splice_spec {c : LruCacheData κ ν} (h : c.Consistent) {key : κ} {it : Nat}
    (hit : c.cacheItemsMap.lookup key = some it) :
    ∃ c' node rest, c.splice it = some c' ∧ c'.cacheItemsList = node :: rest ∧
      node.key = key ∧ node.id = it ∧ c.contents.lookup key = some node.value ∧
      rest.map Node.entry = Recency.remove key c.contents ∧
      c.Becomes c' ((key, node.value) :: Recency.remove key c.contents) := by
  obtain ⟨a, node, b, hlist, rfl, rfl, hderef, herase, hlookup, hremove⟩ := h.located hit
  have hperm : (node :: (a ++ b)).Perm c.cacheItemsList := by
    rw [hlist]
    exact List.perm_middle.symm
  refine ⟨{ c with cacheItemsList := node :: (a ++ b) }, node, a ++ b, ?_, rfl, rfl, rfl,
    hlookup, hremove.symm, ?_, rfl, ?_⟩
  · rw [splice, hderef, herase]
    rfl
  · exact ⟨h.indexed.trans (hperm.map _).symm, (hperm.map _).nodup_iff.mpr h.distinct,
      fun n hn => h.fresh n (hperm.mem_iff.mp hn), hperm.length_eq ▸ h.bounded⟩
  · rw [hremove]
    rfl

omit [DecidableEq κ] in
theorem map_index_kerase_concat {l : List (Node κ ν)} {node : Node κ ν} [DecidableEq κ]
    (h : ((l ++ [node]).map Node.key).Nodup) :
    ((l ++ [node]).map index).kerase node.key = l.map index := by
  have hkey : node.key ∉ (l.map index).keys := by
    rw [List.map_append, List.nodup_append] at h
    simpa [List.keys, index] using fun x hx hk => h.2.2 x.key (List.mem_map_of_mem hx) _
      (List.mem_singleton_self _) hk
  rw [List.map_append, List.kerase_append_right hkey]
  simp [index]

/-- Nothing but the last node goes, and that only from a cache one node too large. -/
theorem evict_spec {c : LruCacheData κ ν}
    (hindexed : c.cacheItemsMap.entries.Perm (c.cacheItemsList.map index))
    (hdistinct : (c.cacheItemsList.map Node.id).Nodup)
    (hfresh : ∀ node ∈ c.cacheItemsList, node.id < c.nextNode)
    (hsize : c.cacheItemsList.length ≤ c.maxSize + 1) :
    ∃ c', c.evict = some c' ∧ c.Becomes c' (c.contents.take c.maxSize) := by
  have hlength : c.cacheItemsMap.entries.length = c.cacheItemsList.length := by
    simpa using hindexed.length_eq
  unfold evict
  split
  · rename_i hlarge
    rw [hlength] at hlarge
    rcases List.eq_nil_or_concat' c.cacheItemsList with hnil | ⟨l, back, hlist⟩
    · simp [hnil] at hlarge
    have hl : l.length = c.maxSize := by
      simp only [hlist, List.length_append, List.length_singleton] at hlarge hsize
      omega
    have hkeys := keys_nodup_of_indexed hindexed
    rw [hlist] at hkeys hindexed hdistinct hfresh
    rw [hlist, List.getLast?_concat, List.dropLast_concat]
    refine ⟨_, rfl, ⟨?_, ?_, ?_, hl ▸ Nat.le_refl _⟩, rfl, ?_⟩
    · rw [← map_index_kerase_concat hkeys]
      exact hindexed.kerase c.cacheItemsMap.nodupKeys
    · rw [List.map_append] at hdistinct
      exact hdistinct.of_append_left
    · exact fun node hn => hfresh node (List.mem_append_left _ hn)
    · simp [contents, hlist, ← hl]
  · rename_i hsmall
    rw [hlength, gt_iff_lt, Nat.not_lt] at hsmall
    refine ⟨c, rfl, ⟨hindexed, hdistinct, hfresh, hsmall⟩, rfl, ?_⟩
    rw [List.take_of_length_le (by simpa [contents] using hsmall)]

theorem putMissing_spec {c : LruCacheData κ ν} (h : c.Consistent) {key : κ}
    (hkey : c.cacheItemsMap.lookup key = none) (value : ν) :
    ∃ c', c.putMissing key value = some c' ∧
      c.Becomes c' (Recency.insert c.maxSize key value c.contents) := by
  have hnew : c.nextNode ∉ c.cacheItemsList.map Node.id := by
    intro hmem
    obtain ⟨node, hn, hid⟩ := List.mem_map.mp hmem
    exact absurd (h.fresh node hn) (by omega)
  obtain ⟨c', he, hc⟩ := evict_spec (c := c.pushFront key value) (by
      simp only [pushFront, AList.entries_insert_of_notMem (AList.lookup_eq_none.mp hkey)]
      exact h.indexed.cons _)
    (List.nodup_cons.mpr ⟨hnew, h.distinct⟩)
    (fun node hn => by
      rcases List.mem_cons.mp hn with rfl | hn
      · exact Nat.lt_succ_self _
      · exact Nat.lt_succ_of_lt (h.fresh node hn))
    (Nat.succ_le_succ h.bounded)
  exact ⟨c', he, hc.consistent, hc.maxSize, hc.contents⟩

theorem contents_lookup_none {c : LruCacheData κ ν} (h : c.Consistent) {key : κ}
    (hkey : c.cacheItemsMap.lookup key = none) : c.contents.lookup key = none := by
  rw [Recency.lookup_eq_none, contents, List.map_map]
  exact (lookup_none_iff h _).mp hkey

theorem getOrPut_spec {c : LruCacheData κ ν} (h : c.Consistent) (key : κ) (value : ν) :
    ∃ b, c.getOrPut key value = some b ∧ c.Matches (Recency.getOrPut c.maxSize key value c.contents) b := by
  unfold getOrPut Recency.getOrPut
  cases hit : c.cacheItemsMap.lookup key with
  | some it =>
      obtain ⟨c', node, rest, hs, hlist, -, rfl, hlookup, -, hc⟩ := splice_spec h hit
      rw [hlookup]
      exact ⟨(c', .hit node.value), by simp [hs, deref, hlist], hc, rfl⟩
  | none =>
      obtain ⟨c', hp, hc⟩ := putMissing_spec h hit value
      rw [contents_lookup_none h hit]
      exact ⟨(c', .put value), by simp [hp], hc, rfl⟩

theorem get_spec {c : LruCacheData κ ν} (h : c.Consistent) (key : κ) :
    ∃ b, c.get key = some b ∧ c.Matches (Recency.get key c.contents) b := by
  unfold get Recency.get
  cases hit : c.cacheItemsMap.lookup key with
  | some it =>
      obtain ⟨c', node, rest, hs, hlist, -, rfl, hlookup, -, hc⟩ := splice_spec h hit
      rw [hlookup]
      exact ⟨(c', .hit node.value), by simp [hs, deref, hlist], hc, rfl⟩
  | none =>
      rw [contents_lookup_none h hit]
      exact ⟨(c, .missed), rfl, ⟨h, rfl, rfl⟩, rfl⟩

/-- Assigning behind the iterator of the first node changes its value alone. -/
theorem assign_spec {c : LruCacheData κ ν} (h : c.Consistent) {node : Node κ ν}
    {rest : List (Node κ ν)} (hlist : c.cacheItemsList = node :: rest) (value : ν) :
    ∃ c', c.assign node.id value = some c' ∧
      c.Becomes c' ((node.key, value) :: rest.map Node.entry) := by
  obtain ⟨indexed, distinct, fresh, bounded⟩ := h
  rw [hlist] at indexed distinct fresh bounded
  have hid : ∀ other ∈ rest, other.id ≠ node.id := fun other ho he =>
    (List.nodup_cons.mp distinct).1 (he ▸ List.mem_map_of_mem ho)
  have hmap : c.cacheItemsList.map (fun n => if n.id == node.id then { n with value := value } else n)
      = { node with value := value } :: rest := by
    rw [hlist, List.map_cons, if_pos (by simp)]
    exact congrArg _ ((List.map_congr_left fun n hn => if_neg (by simpa using hid n hn)).trans
      (List.map_id' _))
  refine ⟨{ c with cacheItemsList := { node with value := value } :: rest }, ?_,
    ⟨indexed, distinct, fun n hn => ?_, bounded⟩, rfl, rfl⟩
  · rw [assign, hmap]
    simp [deref, hlist]
  · rcases List.mem_cons.mp hn with rfl | hn
    · exact fresh node (List.mem_cons_self ..)
    · exact fresh n (List.mem_cons_of_mem _ hn)

theorem put_spec {c : LruCacheData κ ν} (h : c.Consistent) (key : κ) (value : ν) :
    ∃ c', c.put key value = some c' ∧
      c.Becomes c' (Recency.put c.maxSize key value c.contents) := by
  unfold put Recency.put
  cases hit : c.cacheItemsMap.lookup key with
  | some it =>
      obtain ⟨c', node, rest, hs, hlist, rfl, rfl, hlookup, hrest, hc⟩ := splice_spec h hit
      obtain ⟨c'', ha, hc'⟩ := assign_spec hc.consistent hlist value
      rw [hlookup]
      refine ⟨c'', by simp [hs, ha], hc'.consistent, hc'.maxSize.trans hc.maxSize, ?_⟩
      rw [hc'.contents, hrest]
  | none =>
      obtain ⟨c', hp, hc⟩ := putMissing_spec h hit value
      rw [contents_lookup_none h hit]
      exact ⟨c', hp, hc⟩

theorem drop_spec {c : LruCacheData κ ν} (h : c.Consistent) (key : κ) :
    ∃ b, c.drop key = some b ∧ c.Matches (Recency.drop key c.contents) b := by
  unfold drop Recency.drop
  cases hit : c.cacheItemsMap.lookup key with
  | some it =>
      obtain ⟨a, node, b, hlist, rfl, rfl, hderef, herase, hlookup, hremove⟩ := h.located hit
      have hperm : (node :: (a ++ b)).Perm c.cacheItemsList := by
        rw [hlist]
        exact List.perm_middle.symm
      have hsub : (a ++ b).Sublist c.cacheItemsList := by
        rw [hlist]
        exact (List.sublist_cons_self node b).append_left a
      refine ⟨({ c with
          cacheItemsList := a ++ b
          cacheItemsMap := c.cacheItemsMap.erase node.key }, true),
        by simp [hderef, herase], ⟨⟨?_, ?_, ?_, ?_⟩, rfl, hremove.symm⟩, by simp [hlookup]⟩
      · have hindex := (h.indexed.trans (hperm.map index).symm).kerase
          c.cacheItemsMap.nodupKeys (a := node.key)
        simp only [List.map_cons, index, List.kerase_cons_eq] at hindex
        exact hindex
      · exact h.distinct.sublist (hsub.map _)
      · exact fun n hn => h.fresh n (hsub.mem hn)
      · exact Nat.le_trans hsub.length_le h.bounded
  | none =>
      have hlookup := contents_lookup_none h hit
      refine ⟨(c, false), rfl, ⟨h, rfl, ?_⟩, by simp [hlookup]⟩
      rw [Recency.remove, List.filter_eq_self.mpr]
      intro e he
      rw [Recency.lookup_eq_none] at hlookup
      simpa using fun hk : e.1 = key => hlookup (hk ▸ List.mem_map_of_mem he)

theorem exists_iff {c : LruCacheData κ ν} (h : c.Consistent) {key : κ} :
    (c.cacheItemsMap.lookup key).isSome = true ↔ key ∈ c.contents.map Prod.fst := by
  have hnone := lookup_none_iff h key
  have hkeys : c.contents.map Prod.fst = c.cacheItemsList.map Node.key := by
    simp [contents, Node.entry]
  rw [hkeys, ← not_iff_not, ← hnone, Option.not_isSome_iff_eq_none]

end LruCacheData

/-! ## The cache -/

/-- An `lru_cache`: its containers agree. -/
structure LruCache (κ : Type u) (ν : Type v) [DecidableEq κ] where
  data : LruCacheData κ ν
  consistent : data.Consistent

namespace LruCache

/-- The constructor. -/
def create (maxSize : Nat) : LruCache κ ν where
  data := ⟨[], ∅, maxSize, 0⟩
  consistent := ⟨.refl _, .nil, nofun, Nat.zero_le _⟩

/-- The keys and values, the most recently used first. -/
def contents (c : LruCache κ ν) : List (κ × ν) := c.data.contents

/-- What a specification says of a result that exists holds of the result. -/
theorem get_of_spec {β : Type*} {P : β → Prop} {x : Option β} (h : ∃ b, x = some b ∧ P b) :
    ∃ hx : x.isSome = true, P (x.get hx) := by
  obtain ⟨b, rfl, hb⟩ := h
  exact ⟨rfl, hb⟩

def getOrPut (c : LruCache κ ν) (key : κ) (value : ν) : LruCache κ ν × AccessResult ν :=
  let h := get_of_spec (LruCacheData.getOrPut_spec c.consistent key value)
  (⟨((c.data.getOrPut key value).get h.1).1, h.2.becomes.consistent⟩,
    ((c.data.getOrPut key value).get h.1).2)

def put (c : LruCache κ ν) (key : κ) (value : ν) : LruCache κ ν :=
  let h := get_of_spec (LruCacheData.put_spec c.consistent key value)
  ⟨(c.data.put key value).get h.1, h.2.consistent⟩

def get (c : LruCache κ ν) (key : κ) : LruCache κ ν × AccessResult ν :=
  let h := get_of_spec (LruCacheData.get_spec c.consistent key)
  (⟨((c.data.get key).get h.1).1, h.2.becomes.consistent⟩, ((c.data.get key).get h.1).2)

def drop (c : LruCache κ ν) (key : κ) : LruCache κ ν × Bool :=
  let h := get_of_spec (LruCacheData.drop_spec c.consistent key)
  (⟨((c.data.drop key).get h.1).1, h.2.becomes.consistent⟩, ((c.data.drop key).get h.1).2)

/-- `exists`. -/
def holds (c : LruCache κ ν) (key : κ) : Bool := (c.data.cacheItemsMap.lookup key).isSome

def size (c : LruCache κ ν) : Nat := c.data.cacheItemsMap.entries.length

/-! ### The operations are those of the reference cache -/

@[simp] theorem contents_create (maxSize : Nat) : (create maxSize : LruCache κ ν).contents = [] :=
  rfl

theorem getOrPut_contents (c : LruCache κ ν) (key : κ) (value : ν) :
    ((c.getOrPut key value).1.contents, (c.getOrPut key value).2) =
      Recency.getOrPut c.data.maxSize key value c.contents :=
  have h := get_of_spec (LruCacheData.getOrPut_spec c.consistent key value)
  Prod.ext h.2.becomes.contents h.2.answer

theorem put_contents (c : LruCache κ ν) (key : κ) (value : ν) :
    (c.put key value).contents = Recency.put c.data.maxSize key value c.contents :=
  (get_of_spec (LruCacheData.put_spec c.consistent key value)).2.contents

theorem get_contents (c : LruCache κ ν) (key : κ) :
    ((c.get key).1.contents, (c.get key).2) = Recency.get key c.contents :=
  have h := get_of_spec (LruCacheData.get_spec c.consistent key)
  Prod.ext h.2.becomes.contents h.2.answer

theorem drop_contents (c : LruCache κ ν) (key : κ) :
    ((c.drop key).1.contents, (c.drop key).2) = Recency.drop key c.contents :=
  have h := get_of_spec (LruCacheData.drop_spec c.consistent key)
  Prod.ext h.2.becomes.contents h.2.answer

theorem holds_iff {c : LruCache κ ν} {key : κ} :
    c.holds key = true ↔ key ∈ c.contents.map Prod.fst :=
  LruCacheData.exists_iff c.consistent

/-- Unless the cache has no room at all, a lookup leaves its key in it. -/
theorem holds_getOrPut {c : LruCache κ ν} (hroom : 0 < c.data.maxSize) (key : κ) (value : ν) :
    (c.getOrPut key value).1.holds key = true := by
  have hcontents : (c.getOrPut key value).1.contents =
      (Recency.getOrPut c.data.maxSize key value c.contents).1 :=
    congrArg Prod.fst (c.getOrPut_contents key value)
  obtain ⟨e, he, hkey⟩ :=
    Option.map_eq_some_iff.mp (Recency.head?_getOrPut hroom key value c.contents)
  rw [holds_iff, hcontents]
  exact List.mem_map.mpr ⟨e, List.mem_of_head? he, hkey⟩

end LruCache
end ZimTools
