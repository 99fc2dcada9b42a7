import ZimTools.Lib.Loop
import ZimTools.Lib.Orbit
import Mathlib.Data.List.Basic

/-!
# Redirect loops

`RedirectionTable` of `checks.cpp` holds the target of every redirect and a
memo of what is known about every entry.  A query classifies an entry by a
two-speed search and writes the answer to every entry on its way.

An access outside a table is `none`, and so is a search that does not end
within its bound.  The theorems show that neither happens.

`Classified` is the invariant: whatever the memo says about an entry is true of
the additions the table was built from, and it says nothing about redirects
only.
-/

namespace ZimTools

/-- `zim::entry_index_type`. -/
abbrev EntryIndex := UInt32

/-- `RedirectionTable::LoopStatus`. -/
inductive LoopStatus where
  | unknown
  | loop
  | nonloop
deriving DecidableEq, Repr

/-- `RedirectionTable`. -/
structure RedirectionTable where
  redirTable : List EntryIndex
  loopStatus : List LoopStatus
deriving DecidableEq, Repr

namespace RedirectionTable

/-- The constructor: both tables are empty, with room reserved. -/
def empty : RedirectionTable := ⟨[], []⟩

/-- `addRedirectionEntry`. -/
def addRedirectionEntry (t : RedirectionTable) (targetEntryIndex : EntryIndex) : RedirectionTable :=
  ⟨t.redirTable ++ [targetEntryIndex], t.loopStatus ++ [.unknown]⟩

/-- `addItem`.  The size is converted to an entry index. -/
def addItem (t : RedirectionTable) : RedirectionTable :=
  ⟨t.redirTable ++ [UInt32.ofNat t.redirTable.length], t.loopStatus ++ [.nonloop]⟩

/-- `size`. -/
def size (t : RedirectionTable) : Nat := t.redirTable.length

/-- `redirTable[i]`. -/
def target? (t : RedirectionTable) (i : EntryIndex) : Option EntryIndex := t.redirTable[i.toNat]?

/-- `loopStatus[i]`. -/
def status? (t : RedirectionTable) (i : EntryIndex) : Option LoopStatus := t.loopStatus[i.toNat]?

/-- `loopStatus[i] = s`. -/
def setStatus (t : RedirectionTable) (i : EntryIndex) (s : LoopStatus) : RedirectionTable :=
  { t with loopStatus := t.loopStatus.set i.toNat s }

/-- The variables of `detectLoopStatus`. -/
structure Runners where
  i1 : EntryIndex
  i2 : EntryIndex
  moveI1 : Bool
deriving DecidableEq, Repr

/-- One round of `detectLoopStatus`.  The test for the meeting stands between
the moves of the two runners. -/
def detectPass (t : RedirectionTable) : Runners → Runners ⊕ Option LoopStatus
  | ⟨i1, i2, moveI1⟩ =>
      match t.status? i2 with
      | none => .inr none
      | some .unknown =>
          match t.target? i2 with
          | none => .inr none
          | some i2 =>
              if i2 = i1 then .inr (some .loop)
              else if moveI1 then
                match t.target? i1 with
                | none => .inr none
                | some i1 => .inl ⟨i1, i2, !moveI1⟩
              else .inl ⟨i1, i2, !moveI1⟩
      | some s => .inr (some s)

/-- `detectLoopStatus`. -/
def detectLoopStatus (t : RedirectionTable) (fuel : Nat) (i : EntryIndex) : Option LoopStatus :=
  (Loop.run t.detectPass fuel ⟨i, i, false⟩).join

/-- One round of the loop of `resolveLoopStatus`. -/
def resolvePass (s : LoopStatus) :
    RedirectionTable × EntryIndex → (RedirectionTable × EntryIndex) ⊕ Option RedirectionTable
  | (t, i) =>
      match t.status? i with
      | none => .inr none
      | some .unknown =>
          match t.target? i with
          | none => .inr none
          | some j => .inl (t.setStatus i s, j)
      | some _ => .inr (some t)

/-- `resolveLoopStatus`. -/
def resolveLoopStatus (t : RedirectionTable) (fuel : Nat) (i : EntryIndex) :
    Option RedirectionTable := do
  let s ← t.detectLoopStatus fuel i
  (Loop.run (resolvePass s) fuel (t, i)).join

/-- `isInRedirectionLoop`, with the table it leaves. -/
def isInRedirectionLoop (t : RedirectionTable) (fuel : Nat) (i : EntryIndex) :
    Option (Bool × RedirectionTable) := do
  let t ← if (← t.status? i) = .unknown then t.resolveLoopStatus fuel i else some t
  let s ← t.status? i
  pure (s == .loop, t)

/-- A sequence of queries. -/
def queries (fuel : Nat) : RedirectionTable → List EntryIndex → Option (List Bool × RedirectionTable)
  | t, [] => some ([], t)
  | t, q :: qs => do
      let (b, t) ← t.isInRedirectionLoop fuel q
      let (bs, t) ← queries fuel t qs
      pure (b :: bs, t)

end RedirectionTable

open RedirectionTable

/-! ## What the table is built from -/

/-- An addition to the table. -/
inductive Addition where
  | redirect (target : EntryIndex)
  | item
deriving DecidableEq, Repr

/-- The call an addition stands for. -/
def RedirectionTable.add (t : RedirectionTable) : Addition → RedirectionTable
  | .redirect target => t.addRedirectionEntry target
  | .item => t.addItem

/-- The table after a sequence of additions. -/
def RedirectionTable.build (adds : List Addition) : RedirectionTable :=
  adds.foldl RedirectionTable.add .empty

/-- The entry at an index is an item. -/
def IsItem (adds : List Addition) (i : EntryIndex) : Prop := adds[i.toNat]? = some .item

/-- The entry at an index is a redirect. -/
def IsRedirect (adds : List Addition) (i : EntryIndex) : Prop :=
  ∃ target, adds[i.toNat]? = some (.redirect target)

/-- Where following the redirects leads from an entry.  An item leads nowhere
else. -/
def follow (adds : List Addition) (i : EntryIndex) : EntryIndex :=
  match adds[i.toNat]? with
  | some (.redirect target) => target
  | _ => i

/-- Following the redirects from an entry reaches an item. -/
def ReachesItem (adds : List Addition) (i : EntryIndex) : Prop :=
  Orbit.Reaches (follow adds) (IsItem adds) i

/-- An entry lies on a cycle of redirects, or leads into one. -/
def LeadsIntoCycle (adds : List Addition) (i : EntryIndex) : Prop :=
  ∃ k p, 0 < p ∧ (follow adds)^[k + p] i = (follow adds)^[k] i ∧
    ∀ j < p, IsRedirect adds ((follow adds)^[k + j] i)

/-- Every redirect target is an entry of the finished table. -/
def TargetsInRange (adds : List Addition) : Prop :=
  ∀ target, Addition.redirect target ∈ adds → target.toNat < adds.length

section Additions

variable {adds : List Addition} {i : EntryIndex}

theorem follow_of_redirect {target : EntryIndex} (h : adds[i.toNat]? = some (.redirect target)) :
    follow adds i = target := by
  simp [follow, h]

theorem follow_of_item (h : IsItem adds i) : follow adds i = i := by
  rw [IsItem] at h
  simp [follow, h]

theorem not_item_of_redirect (h : IsRedirect adds i) : ¬ IsItem adds i := by
  obtain ⟨target, h⟩ := h
  simp [IsItem, h]

theorem item_or_redirect (hi : i.toNat < adds.length) : IsItem adds i ∨ IsRedirect adds i := by
  cases h : adds[i.toNat] with
  | redirect target => exact Or.inr ⟨target, by simp [List.getElem?_eq_getElem hi, h]⟩
  | item => exact Or.inl (by simp [IsItem, List.getElem?_eq_getElem hi, h])

theorem follow_in_range (hrange : TargetsInRange adds) (hi : i.toNat < adds.length) :
    (follow adds i).toNat < adds.length := by
  rcases item_or_redirect hi with h | ⟨target, h⟩
  · rw [follow_of_item h]; exact hi
  · rw [follow_of_redirect h]; exact hrange target (List.mem_of_getElem? h)

theorem iterate_in_range (hrange : TargetsInRange adds) (hi : i.toNat < adds.length) :
    ∀ k, ((follow adds)^[k] i).toNat < adds.length
  | 0 => hi
  | k + 1 => by
      rw [Function.iterate_succ_apply']
      exact follow_in_range hrange (iterate_in_range hrange hi k)

theorem toNat_injective : Function.Injective UInt32.toNat := fun _ _ h => UInt32.toNat_inj.mp h

/-- The two ways to say that an entry is in a redirection loop. -/
theorem not_reachesItem_iff (hrange : TargetsInRange adds) (hi : i.toNat < adds.length) :
    ¬ ReachesItem adds i ↔ LeadsIntoCycle adds i := by
  rw [ReachesItem, Orbit.not_reaches_iff toNat_injective (iterate_in_range hrange hi)
    fun _ => follow_of_item]
  constructor
  · rintro ⟨k, p, hp, heq, hcycle⟩
    refine ⟨k, p, hp, heq, fun j hj => ?_⟩
    exact (item_or_redirect (iterate_in_range hrange hi (k + j))).resolve_left (hcycle j hj)
  · rintro ⟨k, p, hp, heq, hcycle⟩
    exact ⟨k, p, hp, heq, fun j hj => not_item_of_redirect (hcycle j hj)⟩

end Additions

/-! ## The invariant of the memo -/

/-- What a status says of an entry. -/
def Verdict (adds : List Addition) (i : EntryIndex) : LoopStatus → Prop
  | .unknown => IsRedirect adds i
  | .loop => ¬ ReachesItem adds i
  | .nonloop => ReachesItem adds i

/-- The table of a list of additions, with a true memo. -/
structure Classified (adds : List Addition) (t : RedirectionTable) : Prop where
  statuses : t.loopStatus.length = adds.length
  target : ∀ {i target : EntryIndex}, adds[i.toNat]? = some (.redirect target) →
    t.target? i = some target
  verdict : ∀ {i : EntryIndex} {s : LoopStatus}, t.status? i = some s → Verdict adds i s

/-- The status an addition starts with. -/
def Addition.status : Addition → LoopStatus
  | .redirect _ => .unknown
  | .item => .nonloop

theorem build_snoc (adds : List Addition) (a : Addition) :
    build (adds ++ [a]) = (build adds).add a := by
  simp [build, List.foldl_append]

theorem build_loopStatus (adds : List Addition) :
    (build adds).loopStatus = adds.map Addition.status := by
  induction adds using List.reverseRecOn with
  | nil => rfl
  | append_singleton adds a ih =>
      rw [build_snoc, List.map_append, ← ih]
      cases a <;> rfl

theorem build_size (adds : List Addition) : (build adds).redirTable.length = adds.length := by
  induction adds using List.reverseRecOn with
  | nil => rfl
  | append_singleton adds a ih =>
      rw [build_snoc]
      cases a <;> simp [add, addRedirectionEntry, addItem, ih]

theorem build_redirTable {adds : List Addition} {k : Nat} {target : EntryIndex}
    (h : adds[k]? = some (.redirect target)) : (build adds).redirTable[k]? = some target := by
  induction adds using List.reverseRecOn with
  | nil => simp at h
  | append_singleton adds a ih =>
      have hsize := build_size adds
      rw [build_snoc]
      by_cases hk : k < adds.length
      · rw [List.getElem?_append_left hk] at h
        cases a <;>
          simpa [add, addRedirectionEntry, addItem, List.getElem?_append, hsize, hk] using ih h
      · rw [List.getElem?_append_right (by omega)] at h
        obtain ⟨rfl, rfl⟩ : k = adds.length ∧ a = .redirect target := by
          cases hd : k - adds.length with
          | zero => exact ⟨by omega, by simpa [hd] using h⟩
          | succ d => simp [hd] at h
        simp [add, addRedirectionEntry, ← hsize]

/-- A table just built claims nothing of its redirects. -/
theorem classified_build (adds : List Addition) : Classified adds (build adds) where
  statuses := by simp [build_loopStatus]
  target h := build_redirTable h
  verdict {i s} h := by
    rw [status?, build_loopStatus, List.getElem?_map] at h
    cases ha : adds[i.toNat]? with
    | none => simp [ha] at h
    | some a =>
        obtain rfl : a.status = s := by simpa [ha] using h
        cases a with
        | redirect target => exact ⟨target, ha⟩
        | item => exact Orbit.Reaches.of_stop ha

namespace Classified

variable {adds : List Addition} {t : RedirectionTable} {i : EntryIndex}

theorem status_of_lt (h : Classified adds t) (hi : i.toNat < adds.length) :
    ∃ s, t.status? i = some s := by
  have hlt : i.toNat < t.loopStatus.length := by rw [h.statuses]; exact hi
  exact ⟨t.loopStatus[i.toNat], List.getElem?_eq_getElem hlt⟩

/-- From an unclassified entry the table leads where the redirects do. -/
theorem target_of_unknown (h : Classified adds t) (hs : t.status? i = some .unknown) :
    t.target? i = some (follow adds i) := by
  obtain ⟨target, ha⟩ := h.verdict hs
  rw [h.target ha, follow_of_redirect ha]

theorem not_item_of_unknown (h : Classified adds t) (hs : t.status? i = some .unknown) :
    ¬ IsItem adds i :=
  not_item_of_redirect (h.verdict hs)

/-- The verdict of a known status carries over along equal reachability. -/
theorem verdict_congr {j : EntryIndex} {s : LoopStatus} (hne : s ≠ .unknown)
    (hreach : ReachesItem adds j ↔ ReachesItem adds i) (hv : Verdict adds i s) :
    Verdict adds j s := by
  cases s with
  | unknown => exact absurd rfl hne
  | loop => exact fun hj => hv (hreach.mp hj)
  | nonloop => exact hreach.mpr hv

/-! ## The two-speed search -/

/-- The runners before round `n` of a search from `i`. -/
def runnersAt (adds : List Addition) (i : EntryIndex) (n : Nat) : Runners :=
  ⟨(follow adds)^[n / 2] i, (follow adds)^[n] i, n % 2 == 1⟩

/-- The fast runner has met a classified entry. -/
theorem detectPass_known {n : Nat} {s : LoopStatus}
    (hs : t.status? ((follow adds)^[n] i) = some s) (hne : s ≠ .unknown) :
    t.detectPass (runnersAt adds i n) = .inr (some s) := by
  cases s with
  | unknown => exact absurd rfl hne
  | loop => simp [detectPass, runnersAt, hs]
  | nonloop => simp [detectPass, runnersAt, hs]

/-- A round behind which everything is unclassified. -/
theorem detectPass_unknown (h : Classified adds t) {n : Nat}
    (hfree : ∀ k ≤ n, t.status? ((follow adds)^[k] i) = some .unknown) :
    t.detectPass (runnersAt adds i n) =
      if (follow adds)^[n + 1] i = (follow adds)^[n / 2] i then .inr (some .loop)
      else .inl (runnersAt adds i (n + 1)) := by
  have hfast := h.target_of_unknown (hfree n le_rfl)
  have hslow := h.target_of_unknown (hfree (n / 2) (Nat.div_le_self n 2))
  have hsucc : ∀ k, follow adds ((follow adds)^[k] i) = (follow adds)^[k + 1] i :=
    fun k => (Function.iterate_succ_apply' _ k i).symm
  rw [hsucc] at hfast hslow
  unfold runnersAt
  simp only [detectPass, hfree n le_rfl, hfast]
  by_cases hmeet : (follow adds)^[n + 1] i = (follow adds)^[n / 2] i
  · simp [hmeet]
  · rw [if_neg hmeet, if_neg hmeet]
    rcases Nat.mod_two_eq_zero_or_one n with hpar | hpar
    · have hnext : (n + 1) / 2 = n / 2 := by omega
      have hflip : (n + 1) % 2 = 1 := by omega
      simp [hpar, hnext, hflip]
    · have hnext : (n + 1) / 2 = n / 2 + 1 := by omega
      have hflip : (n + 1) % 2 = 0 := by omega
      simp [hpar, hnext, hflip, hslow]

theorem free_succ {n : Nat} (hfree : ∀ k < n, t.status? ((follow adds)^[k] i) = some .unknown)
    (hs : t.status? ((follow adds)^[n] i) = some .unknown) :
    ∀ k ≤ n, t.status? ((follow adds)^[k] i) = some .unknown := by
  intro k hk
  rcases Nat.lt_or_eq_of_le hk with hlt | rfl
  · exact hfree k hlt
  · exact hs

/-- Runners that meet behind unclassified entries are in a cycle. -/
theorem verdict_of_meet (h : Classified adds t) {n : Nat}
    (hfree : ∀ k ≤ n, t.status? ((follow adds)^[k] i) = some .unknown)
    (hmeet : (follow adds)^[n + 1] i = (follow adds)^[n / 2] i) : Verdict adds i .loop :=
  Orbit.not_reaches_of_repeat (Nat.lt_succ_of_le (Nat.div_le_self n 2)) hmeet fun k hk =>
    h.not_item_of_unknown (hfree k (by omega))

/-- A classified entry behind unclassified ones decides for all of them. -/
theorem verdict_of_known (h : Classified adds t) {n : Nat} {s : LoopStatus}
    (hfree : ∀ k < n, t.status? ((follow adds)^[k] i) = some .unknown)
    (hs : t.status? ((follow adds)^[n] i) = some s) (hne : s ≠ .unknown) : Verdict adds i s := by
  have hreach : ReachesItem adds ((follow adds)^[n] i) ↔ ReachesItem adds i :=
    Orbit.reaches_iterate_iff fun k hk => h.not_item_of_unknown (hfree k hk)
  exact verdict_congr hne hreach.symm (h.verdict hs)

/-- The answer of a query is a true one. -/
theorem answer (h : Classified adds t) {s : LoopStatus} (hs : t.status? i = some s)
    (hne : s ≠ .unknown) : (s == .loop) = true ↔ ¬ ReachesItem adds i := by
  have hv := h.verdict hs
  cases s with
  | unknown => exact absurd rfl hne
  | loop => exact ⟨fun _ => hv, fun _ => rfl⟩
  | nonloop => exact ⟨fun h => absurd h (by decide), fun h => absurd hv h⟩

/-- The search ends with a true verdict, at the latest in the round in which
the runners meet. -/
theorem run_detectPass (h : Classified adds t) (hrange : TargetsInRange adds)
    (hi : i.toNat < adds.length) {meet : Nat}
    (hmeet : (follow adds)^[meet + 1] i = (follow adds)^[meet / 2] i) :
    ∀ (d n : Nat), n + d = meet →
      (∀ k < n, t.status? ((follow adds)^[k] i) = some .unknown) →
      ∃ s, Loop.run t.detectPass (d + 1) (runnersAt adds i n) = some (some s) ∧
        s ≠ .unknown ∧ Verdict adds i s := by
  intro d
  induction d with
  | zero =>
      intro n hn hfree
      obtain rfl : n = meet := by omega
      obtain ⟨s, hs⟩ := h.status_of_lt (iterate_in_range hrange hi n)
      by_cases hu : s = .unknown
      · -- the last round can only end with the meeting
        subst hu
        have hfree' := free_succ hfree hs
        refine ⟨.loop, Loop.run_succ_inr 0 ?_, by simp, h.verdict_of_meet hfree' hmeet⟩
        rw [h.detectPass_unknown hfree', if_pos hmeet]
      · exact ⟨s, Loop.run_succ_inr 0 (detectPass_known hs hu), hu,
          h.verdict_of_known hfree hs hu⟩
  | succ d ih =>
      intro n hn hfree
      obtain ⟨s, hs⟩ := h.status_of_lt (iterate_in_range hrange hi n)
      by_cases hu : s = .unknown
      · subst hu
        have hfree' := free_succ hfree hs
        by_cases hnow : (follow adds)^[n + 1] i = (follow adds)^[n / 2] i
        · refine ⟨.loop, Loop.run_succ_inr _ ?_, by simp, h.verdict_of_meet hfree' hnow⟩
          rw [h.detectPass_unknown hfree', if_pos hnow]
        · rw [Loop.run_succ_inl _ (by rw [h.detectPass_unknown hfree', if_neg hnow])]
          exact ih (n + 1) (by omega) fun k hk => hfree' k (by omega)
      · exact ⟨s, Loop.run_succ_inr _ (detectPass_known hs hu), hu,
          h.verdict_of_known hfree hs hu⟩

/-- `detectLoopStatus` ends with a true verdict. -/
theorem detectLoopStatus_spec (h : Classified adds t) (hrange : TargetsInRange adds)
    (hi : i.toNat < adds.length) (fuel : Nat) (hfuel : 2 * adds.length ≤ fuel) :
    ∃ s, t.detectLoopStatus fuel i = some s ∧ s ≠ .unknown ∧ Verdict adds i s := by
  obtain ⟨meet, hlt, hmeet⟩ := Orbit.exists_meet toNat_injective (iterate_in_range hrange hi)
  obtain ⟨s, hrun, hne, hv⟩ :=
    h.run_detectPass hrange hi hmeet meet 0 (by omega) (by simp)
  refine ⟨s, ?_, hne, hv⟩
  have hstart : runnersAt adds i 0 = ⟨i, i, false⟩ := rfl
  rw [hstart] at hrun
  rw [detectLoopStatus, Loop.run_mono hrun (by omega)]
  rfl

/-! ## Writing the verdict back -/

theorem status?_setStatus {j : EntryIndex} {s : LoopStatus} :
    (t.setStatus j s).status? i =
      if j = i then (t.status? i).map fun _ => s else t.status? i := by
  simp only [status?, setStatus, List.getElem?_set]
  by_cases hji : j = i
  · subst hji
    by_cases hlt : j.toNat < t.loopStatus.length
    · simp [hlt]
    · simp [hlt]
  · simp [hji, UInt32.toNat_inj]

/-- A true verdict may be written. -/
theorem setStatus (h : Classified adds t) {s : LoopStatus} (hv : Verdict adds i s) :
    Classified adds (t.setStatus i s) where
  statuses := by simpa [RedirectionTable.setStatus] using h.statuses
  target ha := h.target ha
  verdict {j s'} hs := by
    rw [status?_setStatus] at hs
    by_cases hij : i = j
    · subst hij
      rw [if_pos rfl, Option.map_eq_some_iff] at hs
      obtain ⟨-, -, rfl⟩ := hs
      exact hv
    · rw [if_neg hij] at hs
      exact h.verdict hs

/-- Writing a status classifies an unclassified entry. -/
theorem countP_setStatus {s : LoopStatus} (hs : t.status? i = some .unknown) (hne : s ≠ .unknown) :
    (t.setStatus i s).loopStatus.countP (· == .unknown) <
      t.loopStatus.countP (· == .unknown) := by
  obtain ⟨hlt, hget⟩ := List.getElem?_eq_some_iff.mp hs
  have hpos : 0 < t.loopStatus.countP (· == .unknown) :=
    List.countP_pos_iff.mpr ⟨_, List.getElem_mem hlt, by simp [hget]⟩
  have hold : (t.loopStatus[i.toNat] == .unknown) = true := by simp [hget]
  have hnew : (s == .unknown) = false := by simpa using hne
  rw [RedirectionTable.setStatus, List.countP_set hlt, hold, hnew, if_pos rfl,
    if_neg Bool.false_ne_true]
  omega

/-- The loop of `resolveLoopStatus` ends and leaves a true memo in which the
entry is classified. -/
theorem run_resolvePass (h : Classified adds t) (hrange : TargetsInRange adds)
    (hi : i.toNat < adds.length) {s : LoopStatus} (hne : s ≠ .unknown) (hv : Verdict adds i s)
    (fuel : Nat) (hfuel : adds.length < fuel) :
    ∃ t', Loop.run (resolvePass s) fuel (t, i) = some (some t') ∧ Classified adds t' ∧
      t'.status? i ≠ some .unknown := by
  obtain ⟨r, hrun, t', rfl, hpost⟩ := Loop.run_total (resolvePass s)
    (fun st => Classified adds st.1 ∧ st.2.toNat < adds.length ∧
      (ReachesItem adds st.2 ↔ ReachesItem adds i) ∧
      (st.2 = i ∨ st.1.status? i ≠ some .unknown))
    (fun r => ∃ t', r = some t' ∧ Classified adds t' ∧ t'.status? i ≠ some .unknown)
    (fun st => st.1.loopStatus.countP (· == .unknown))
    (by
      rintro ⟨t', j⟩ ⟨t'', j'⟩ ⟨hc, hj, hreach, hseen⟩ hpass
      obtain ⟨s', hs'⟩ := hc.status_of_lt hj
      obtain rfl : s' = .unknown := by
        cases s' <;> simp_all [resolvePass]
      simp only [resolvePass, hs', hc.target_of_unknown hs', Sum.inl.injEq, Prod.mk.injEq] at hpass
      obtain ⟨rfl, rfl⟩ := hpass
      refine ⟨⟨hc.setStatus (verdict_congr hne hreach hv), follow_in_range hrange hj, ?_, ?_⟩,
        countP_setStatus hs' hne⟩
      · exact (Orbit.reaches_next_iff (hc.not_item_of_unknown hs')).trans hreach
      · right
        rw [status?_setStatus]
        by_cases hji : j = i
        · subst hji
          simpa [hs'] using hne
        · rw [if_neg hji]
          exact hseen.resolve_left hji)
    (by
      rintro ⟨t', j⟩ r ⟨hc, hj, -, hseen⟩ hpass
      obtain ⟨s', hs'⟩ := hc.status_of_lt hj
      have hknown : s' ≠ .unknown := by
        rintro rfl
        simp [resolvePass, hs', hc.target_of_unknown hs'] at hpass
      obtain rfl : r = some t' := by
        cases s' <;> simp_all [resolvePass]
      refine ⟨t', rfl, hc, ?_⟩
      rcases hseen with rfl | hseen
      · rw [hs']; simpa using hknown
      · exact hseen)
    fuel (t, i) ⟨h, hi, Iff.rfl, Or.inl rfl⟩
    (Nat.lt_of_le_of_lt (h.statuses ▸ List.countP_le_length) hfuel)
  exact ⟨t', hrun, hpost⟩

/-! ## Queries -/

/-- A query ends, answers whether the entry leads into a cycle, and leaves a
true memo. -/
theorem isInRedirectionLoop_spec (h : Classified adds t) (hrange : TargetsInRange adds)
    (hi : i.toNat < adds.length) {fuel : Nat} (hfuel : 2 * adds.length < fuel) :
    ∃ b t', t.isInRedirectionLoop fuel i = some (b, t') ∧ (b = true ↔ ¬ ReachesItem adds i) ∧
      Classified adds t' := by
  obtain ⟨s, hs⟩ := h.status_of_lt hi
  by_cases hu : s = .unknown
  · subst hu
    obtain ⟨s, hdetect, hne, hv⟩ := h.detectLoopStatus_spec hrange hi fuel (by omega)
    obtain ⟨t', hrun, hc, hknown⟩ := h.run_resolvePass hrange hi hne hv fuel (by omega)
    obtain ⟨s', hs'⟩ := hc.status_of_lt hi
    refine ⟨s' == .loop, t', ?_, hc.answer hs' (fun h => hknown (h ▸ hs')), hc⟩
    simp [isInRedirectionLoop, resolveLoopStatus, hs, hdetect, hrun, hs']
  · refine ⟨s == .loop, t, ?_, h.answer hs hu, h⟩
    simp [isInRedirectionLoop, hs, hu]

/-- A sequence of queries ends, each answering as the first one would. -/
theorem queries_spec (hrange : TargetsInRange adds) {fuel : Nat}
    (hfuel : 2 * adds.length < fuel) :
    ∀ (qs : List EntryIndex) (t : RedirectionTable), Classified adds t →
      (∀ q ∈ qs, q.toNat < adds.length) →
      ∃ bs t', queries fuel t qs = some (bs, t') ∧
        List.Forall₂ (fun q b => (b = true ↔ ¬ ReachesItem adds q) ∧
          (b = true ↔ LeadsIntoCycle adds q)) qs bs
  | [], t, _, _ => ⟨[], t, rfl, .nil⟩
  | q :: qs, t, h, hqs => by
      have hq := hqs q (by simp)
      obtain ⟨b, t', hrun, hb, hc⟩ := h.isInRedirectionLoop_spec hrange hq hfuel
      obtain ⟨bs, t'', hrest, hbs⟩ :=
        queries_spec hrange hfuel qs t' hc fun q' hq' => hqs q' (by simp [hq'])
      exact ⟨b :: bs, t'', by simp [queries, hrun, hrest],
        .cons ⟨hb, hb.trans (not_reachesItem_iff hrange hq)⟩ hbs⟩

end Classified

/-- On every table whose targets are in range, every sequence of queries ends
and every answer is whether the entry leads into a cycle of redirects, whatever
was asked before. -/
theorem queries_answer (adds : List Addition) (hrange : TargetsInRange adds)
    (qs : List EntryIndex) (hqs : ∀ q ∈ qs, q.toNat < adds.length)
    (fuel : Nat) (hfuel : 2 * adds.length < fuel) :
    ∃ bs t', queries fuel (build adds) qs = some (bs, t') ∧
      List.Forall₂ (fun q b => (b = true ↔ ¬ ReachesItem adds q) ∧
        (b = true ↔ LeadsIntoCycle adds q)) qs bs :=
  Classified.queries_spec hrange hfuel qs (build adds) (classified_build adds) hqs

/-- A cycle of two redirects, a redirect into it, one to an item and the item. -/
theorem queries_answer_rho :
    ∃ bs t', queries 11 (build [.redirect 1, .redirect 0, .redirect 1, .redirect 4, .item])
        [2, 3, 0, 2] = some (bs, t') ∧
      List.Forall₂ (fun q b =>
        (b = true ↔ ¬ ReachesItem [.redirect 1, .redirect 0, .redirect 1, .redirect 4, .item] q) ∧
        (b = true ↔ LeadsIntoCycle [.redirect 1, .redirect 0, .redirect 1, .redirect 4, .item] q))
        [2, 3, 0, 2] bs :=
  queries_answer [.redirect 1, .redirect 0, .redirect 1, .redirect 4, .item]
    (by intro target h; simp at h; rcases h with rfl | rfl | rfl | rfl <;> decide)
    [2, 3, 0, 2] (by simp) 11 (by decide)

example : (queries 11 (build [.redirect 1, .redirect 0, .redirect 1, .redirect 4, .item])
    [2, 3, 0, 2]).map Prod.fst = some [true, false, true, true] := by decide

end ZimTools
