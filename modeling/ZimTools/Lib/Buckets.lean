import Mathlib.Data.List.Basic
import Std.Data.TreeMap.Lemmas

/-!
# Buckets

A map of lists collects values under their keys.  A new value goes behind those
that its bucket has already, and a key without values has no bucket.  The bucket
of a key is what a list of pairs has under that key, in the order of the list
(`mem_toList_ofList`).
-/

namespace Buckets

universe u v

variable {κ : Type u} {α : Type v} [Ord κ]

/-- Put a value behind the others of its bucket. -/
def push (t : Std.TreeMap κ (List α)) (key : κ) (a : α) : Std.TreeMap κ (List α) :=
  t.insert key (t[key]?.getD [] ++ [a])

/-- The buckets of a list of keys and values. -/
def ofList (l : List (κ × α)) : Std.TreeMap κ (List α) := l.foldl (fun t e => push t e.1 e.2) ∅

variable [DecidableEq κ]

/-- The values of a key. -/
def values (l : List (κ × α)) (key : κ) : List α := (l.filter (·.1 = key)).map Prod.snd

variable [Std.TransOrd κ] [Std.LawfulEqOrd κ]

theorem getElem?_push {t : Std.TreeMap κ (List α)} {key k : κ} {a : α} :
    (push t key a)[k]? = if key = k then some (t[key]?.getD [] ++ [a]) else t[k]? := by
  simp only [push, Std.TreeMap.getElem?_insert, Std.LawfulEqCmp.compare_eq_iff_eq]

/-- The invariant: every key has its values, and no bucket is empty. -/
def Holds (t : Std.TreeMap κ (List α)) (l : List (κ × α)) : Prop :=
  ∀ key, t[key]? = if values l key = [] then none else some (values l key)

theorem Holds.push {t : Std.TreeMap κ (List α)} {l : List (κ × α)} (h : Holds t l) (e : κ × α) :
    Holds (push t e.1 e.2) (l ++ [e]) := by
  intro key
  rw [getElem?_push]
  split
  · next heq =>
      subst heq
      have hvalues : values (l ++ [e]) e.1 = values l e.1 ++ [e.2] := by simp [values]
      have hgetD : t[e.1]?.getD [] = values l e.1 := by
        rw [h e.1]
        split
        · next hnil => rw [hnil, Option.getD_none]
        · rfl
      rw [hvalues, hgetD, if_neg (List.append_ne_nil_of_right_ne_nil _ (List.cons_ne_nil _ _))]
  · next hne =>
      have hvalues : values (l ++ [e]) key = values l key := by simp [values, hne]
      rw [hvalues, h key]

theorem Holds.foldl {t : Std.TreeMap κ (List α)} {l : List (κ × α)} (h : Holds t l) :
    ∀ es : List (κ × α), Holds (es.foldl (fun t e => Buckets.push t e.1 e.2) t) (l ++ es)
  | [] => by
      rw [List.append_nil]
      exact h
  | e :: es => by
      have hrest := (h.push e).foldl es
      rw [List.append_assoc] at hrest
      exact hrest

theorem holds_ofList (l : List (κ × α)) : Holds (ofList l) l := by
  have hempty : Holds (∅ : Std.TreeMap κ (List α)) [] := by
    intro key
    simp [values]
  exact hempty.foldl l

/-- What is in a map of buckets. -/
theorem Holds.mem_toList {t : Std.TreeMap κ (List α)} {l : List (κ × α)} (h : Holds t l)
    {key : κ} {bucket : List α} :
    (key, bucket) ∈ t.toList ↔ bucket = values l key ∧ bucket ≠ [] := by
  rw [Std.TreeMap.mem_toList_iff_getElem?_eq_some, h key]
  split
  · next hnil =>
      rw [hnil]
      exact ⟨nofun, fun hb => absurd hb.1 hb.2⟩
  · next hne =>
      constructor
      · intro hsome
        obtain rfl := Option.some.inj hsome
        exact ⟨rfl, hne⟩
      · rintro ⟨rfl, -⟩
        rfl

omit [DecidableEq κ] in
/-- No key has two buckets. -/
theorem toList_keys_ne (t : Std.TreeMap κ (List α)) :
    t.toList.Pairwise fun a b => a.1 ≠ b.1 :=
  Std.TreeMap.distinct_keys_toList.imp fun h heq =>
    h (Std.LawfulEqCmp.compare_eq_iff_eq.mpr heq)

/-- What is in a map of buckets under a key. -/
theorem Holds.filter_toList {t : Std.TreeMap κ (List α)} {l : List (κ × α)} (h : Holds t l)
    (key : κ) :
    t.toList.filter (·.1 = key) = if values l key = [] then [] else [(key, values l key)] := by
  have hall : ∀ e ∈ t.toList.filter (·.1 = key), e = (key, values l key) ∧ values l key ≠ [] := by
    rintro ⟨k, bucket⟩ he
    obtain ⟨hmem, hkey⟩ := List.mem_filter.mp he
    obtain rfl : k = key := of_decide_eq_true hkey
    obtain ⟨rfl, hne⟩ := h.mem_toList.mp hmem
    exact ⟨rfl, hne⟩
  split
  · next hnil =>
      refine List.eq_nil_iff_forall_not_mem.mpr fun e he => ?_
      exact (hall e he).2 hnil
  · next hne =>
      have hmem : (key, values l key) ∈ t.toList.filter (·.1 = key) :=
        List.mem_filter.mpr ⟨h.mem_toList.mpr ⟨rfl, hne⟩, decide_eq_true rfl⟩
      have hnodup : (t.toList.filter (·.1 = key)).Pairwise fun a b => a.1 ≠ b.1 :=
        (toList_keys_ne t).filter _
      cases hlist : t.toList.filter (·.1 = key) with
      | nil =>
          rw [hlist] at hmem
          exact absurd hmem List.not_mem_nil
      | cons e es =>
          rw [hlist] at hall hnodup
          have he := (hall e (List.mem_cons_self ..)).1
          cases es with
          | nil => rw [he]
          | cons e' es =>
              have he' := (hall e' (List.mem_cons_of_mem e (List.mem_cons_self ..))).1
              have hdistinct := List.rel_of_pairwise_cons hnodup (List.mem_cons_self ..)
              rw [he, he'] at hdistinct
              exact absurd rfl hdistinct

end Buckets
