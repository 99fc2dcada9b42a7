import Mathlib.Data.List.Nodup
import Mathlib.Logic.Relation

/-!
# Duplicates

Elements of a list that have the same content are duplicates of each other,
except that aliases, which are one thing under two names, do not count.  The
first element of each content represents it, and every other element with that
content is paired with the representative unless it is an alias of it
(`mem_pairs`, `nodup_pairs`).

The list may be put into buckets first, by a key that the content determines
(`mem_bucketPairs`, `nodup_bucketPairs`).  Which element represents a content
depends on the order of the list.  The equivalence that the pairs and the
aliases generate does not (`linked_congr`).
-/

namespace Duplicates

open Relation (EqvGen)

universe u v w

variable {α : Type u} {δ : Type v} [DecidableEq δ]
variable (content : α → δ) (areAliases : α → α → Prop) [DecidableRel areAliases]

/-- The elements with another content. -/
def differing (a : α) (l : List α) : List α := l.filter fun b => content b ≠ content a

/-- The duplicates of the first element, and those of the elements that differ
from it. -/
def pairs : List α → List (α × α)
  | [] => []
  | a :: l =>
      (l.filter fun b => content b = content a ∧ ¬ areAliases a b).map (a, ·) ++
        pairs (differing content a l)
termination_by l => l.length
decreasing_by exact Nat.lt_succ_of_le (List.length_filter_le _ _)

/-- The first element of a content. -/
def IsFirst (l : List α) (a : α) : Prop := l.find? (content · = content a) = some a

/-- `b` is a duplicate in `l` of the first element `a` of its content. -/
structure IsPair (l : List α) (a b : α) : Prop where
  first : IsFirst content l a
  mem : b ∈ l
  ne : b ≠ a
  same : content b = content a
  notAliases : ¬ areAliases a b

variable {content areAliases}

theorem find?_differing {l : List α} {a x : α} (h : content x ≠ content a) :
    (differing content a l).find? (content · = content x) = l.find? (content · = content x) := by
  rw [differing, List.find?_filter]
  refine congrFun (congrArg _ (funext fun b => ?_)) l
  by_cases hb : content b = content x
  · simp [hb, h]
  · simp [hb]

omit [DecidableRel areAliases] in
theorem isPair_cons {l : List α} {a x y : α} (ha : a ∉ l) :
    IsPair content areAliases (a :: l) x y ↔
      x = a ∧ y ∈ l ∧ content y = content a ∧ ¬ areAliases a y ∨
        IsPair content areAliases (differing content a l) x y := by
  by_cases hx : content x = content a
  · have hfirst : IsFirst content (a :: l) x ↔ a = x := by simp [IsFirst, hx]
    constructor
    · intro h
      obtain rfl := hfirst.mp h.first
      exact Or.inl ⟨rfl, (List.mem_cons.mp h.mem).resolve_left h.ne, h.same, h.notAliases⟩
    · rintro (⟨rfl, hy, hsame, halias⟩ | h)
      · exact ⟨hfirst.mpr rfl, List.mem_cons_of_mem x hy, fun heq => ha (heq ▸ hy), hsame, halias⟩
      · have hmem := (List.mem_filter.mp h.mem).2
        rw [h.same, hx] at hmem
        simp at hmem
  · have hne : ¬ content a = content x := fun h => hx h.symm
    have hfirst : IsFirst content (a :: l) x ↔
        IsFirst content (differing content a l) x := by
      rw [IsFirst, IsFirst, find?_differing hx, List.find?_cons_of_neg (by simpa using hne)]
    constructor
    · intro h
      have hy : y ≠ a := fun heq => hne (heq ▸ h.same)
      have hmem := (List.mem_cons.mp h.mem).resolve_left hy
      exact Or.inr ⟨hfirst.mp h.first, List.mem_filter.mpr ⟨hmem, by simpa [h.same] using hx⟩,
        h.ne, h.same, h.notAliases⟩
    · rintro (⟨rfl, -⟩ | h)
      · exact absurd rfl hx
      · exact ⟨hfirst.mpr h.first, List.mem_cons_of_mem a (List.mem_filter.mp h.mem).1, h.ne,
          h.same, h.notAliases⟩

theorem mem_pairs {l : List α} (hl : l.Nodup) {x y : α} :
    (x, y) ∈ pairs content areAliases l ↔ IsPair content areAliases l x y := by
  induction l using pairs.induct content with
  | case1 =>
      rw [pairs]
      exact ⟨nofun, fun h => nomatch h.mem⟩
  | case2 a l ih =>
      rw [List.nodup_cons] at hl
      rw [isPair_cons hl.1, ← ih (hl.2.filter _), pairs, List.mem_append]
      refine or_congr_left ?_
      simp only [List.mem_map, List.mem_filter, decide_eq_true_eq, Prod.mk.injEq]
      constructor
      · rintro ⟨b, ⟨hb, hsame, halias⟩, rfl, rfl⟩
        exact ⟨rfl, hb, hsame, halias⟩
      · rintro ⟨rfl, hy, hsame, halias⟩
        exact ⟨y, ⟨hy, hsame, halias⟩, rfl, rfl⟩

theorem nodup_pairs {l : List α} (hl : l.Nodup) : (pairs content areAliases l).Nodup := by
  induction l using pairs.induct content with
  | case1 =>
      rw [pairs]
      exact List.nodup_nil
  | case2 a l ih =>
      rw [List.nodup_cons] at hl
      rw [pairs]
      refine List.Nodup.append ?_ (ih (hl.2.filter _)) ?_
      · exact (hl.2.filter _).map fun b c h => (Prod.mk.inj h).2
      · rintro ⟨x, y⟩ hfirst hrest
        obtain ⟨b, -, heq⟩ := List.mem_map.mp hfirst
        obtain ⟨rfl, rfl⟩ := Prod.mk.inj heq
        have h := (mem_pairs (hl.2.filter _)).mp hrest
        have hmem := List.mem_of_find?_eq_some h.first
        simp at hmem

/-! ## Buckets -/

section Buckets

variable {κ : Type w} [DecidableEq κ] (key : δ → κ)

/-- The elements whose contents have a key. -/
def bucket (content : α → δ) (l : List α) (k : κ) : List α := l.filter fun a => key (content a) = k

variable (content areAliases) in
/-- The pairs of the buckets of some keys. -/
def bucketPairs (l : List α) (keys : List κ) : List (α × α) :=
  keys.flatMap fun k => pairs content areAliases (bucket key content l k)

variable {key} {l : List α} {keys : List κ}

omit [DecidableRel areAliases] in
theorem isPair_bucket {a b : α} {k : κ} :
    IsPair content areAliases (bucket key content l k) a b ↔
      key (content a) = k ∧ IsPair content areAliases l a b := by
  have hfirst : key (content a) = k →
      (IsFirst content (bucket key content l k) a ↔ IsFirst content l a) := by
    intro hkey
    rw [IsFirst, IsFirst, bucket, List.find?_filter]
    refine iff_of_eq (congrArg (· = some a) (congrFun (congrArg _ (funext fun c => ?_)) l))
    by_cases hc : content c = content a
    · simp [hc, hkey]
    · simp [hc]
  constructor
  · intro h
    have hkey : key (content a) = k := by
      have hmem := List.mem_of_find?_eq_some h.first
      simpa using (List.mem_filter.mp hmem).2
    exact ⟨hkey, (hfirst hkey).mp h.first, (List.mem_filter.mp h.mem).1, h.ne, h.same,
      h.notAliases⟩
  · rintro ⟨hkey, h⟩
    have hmem : b ∈ bucket key content l k :=
      List.mem_filter.mpr ⟨h.mem, decide_eq_true (h.same ▸ hkey)⟩
    exact ⟨(hfirst hkey).mpr h.first, hmem, h.ne, h.same, h.notAliases⟩

/-- No pair is lost to the buckets when the keys are those of all elements. -/
theorem mem_bucketPairs (hl : l.Nodup) (hkeys : ∀ a ∈ l, key (content a) ∈ keys) {a b : α} :
    (a, b) ∈ bucketPairs content areAliases key l keys ↔ IsPair content areAliases l a b := by
  rw [bucketPairs, List.mem_flatMap]
  constructor
  · rintro ⟨k, -, hpair⟩
    exact (isPair_bucket.mp ((mem_pairs (hl.filter _)).mp hpair)).2
  · intro h
    exact ⟨key (content a), hkeys a (List.mem_of_find?_eq_some h.first),
      (mem_pairs (hl.filter _)).mpr (isPair_bucket.mpr ⟨rfl, h⟩)⟩

theorem nodup_bucketPairs (hl : l.Nodup) (hkeys : keys.Nodup) :
    (bucketPairs content areAliases key l keys).Nodup := by
  rw [bucketPairs, List.nodup_flatMap]
  refine ⟨fun k _ => nodup_pairs (hl.filter _), hkeys.imp ?_⟩
  rintro k k' hne ⟨a, b⟩ hpair hpair'
  have hkey := (isPair_bucket.mp ((mem_pairs (hl.filter _)).mp hpair)).1
  have hkey' := (isPair_bucket.mp ((mem_pairs (hl.filter _)).mp hpair')).1
  exact hne (hkey.symm.trans hkey')

end Buckets

/-! ## Representatives -/

omit [DecidableRel areAliases]

variable (content) in
/-- Every content has a first element. -/
theorem exists_isFirst {l : List α} {a : α} (ha : a ∈ l) :
    ∃ r, IsFirst content l r ∧ content r = content a := by
  obtain ⟨r, hr⟩ := Option.isSome_iff_exists.mp
    (List.find?_isSome.mpr ⟨a, ha, decide_eq_true rfl⟩ :
      (l.find? (content · = content a)).isSome = true)
  have hcontent : content r = content a := by simpa using List.find?_some hr
  refine ⟨r, ?_, hcontent⟩
  rw [IsFirst, hcontent]
  exact hr

/-- Whether there are pairs depends on the elements and not on their order. -/
theorem exists_isPair_iff (hequiv : Equivalence areAliases) {l : List α} :
    (∃ a b, IsPair content areAliases l a b) ↔
      ∃ a ∈ l, ∃ b ∈ l, content a = content b ∧ ¬ areAliases a b := by
  constructor
  · rintro ⟨a, b, h⟩
    exact ⟨a, List.mem_of_find?_eq_some h.first, b, h.mem, h.same.symm, h.notAliases⟩
  · rintro ⟨a, ha, b, hb, hsame, halias⟩
    obtain ⟨r, hr, hcontent⟩ := exists_isFirst content ha
    have hpair : ∀ x ∈ l, content x = content a → ¬ areAliases r x →
        IsPair content areAliases l r x := fun x hx hxa hrx =>
      ⟨hr, hx, fun heq => hrx (heq ▸ hequiv.refl x), hxa.trans hcontent.symm, hrx⟩
    by_cases hra : areAliases r a
    · refine ⟨r, b, hpair b hb hsame.symm fun hrb => halias ?_⟩
      exact hequiv.trans (hequiv.symm hra) hrb
    · exact ⟨r, a, hpair a ha rfl hra⟩

/-! ## The equivalence -/

/-- What the pairs of a list and the aliases generate. -/
def Linked (content : α → δ) (areAliases : α → α → Prop) (l : List α) : α → α → Prop :=
  EqvGen fun a b => IsPair content areAliases l a b ∨ areAliases a b

theorem linked_of_same {l : List α} {a b : α} (ha : a ∈ l) (hb : b ∈ l)
    (hsame : content a = content b) : Linked content areAliases l a b := by
  obtain ⟨r, hr, hcontent⟩ := exists_isFirst content ha
  have hlinked : ∀ x ∈ l, content x = content a → Linked content areAliases l r x := by
    intro x hx hxa
    by_cases hxr : x = r
    · subst hxr
      exact .refl x
    · refine .rel r x ?_
      by_cases halias : areAliases r x
      · exact Or.inr halias
      · exact Or.inl ⟨hr, hx, hxr, hxa.trans hcontent.symm, halias⟩
  exact .trans a r b (.symm r a (hlinked a ha rfl)) (hlinked b hb hsame.symm)

/-- The order of the elements does not matter. -/
theorem linked_congr {l l' : List α} (h : ∀ a, a ∈ l ↔ a ∈ l') {a b : α} :
    Linked content areAliases l a b ↔ Linked content areAliases l' a b := by
  have hsub : ∀ {l l' : List α}, (∀ a ∈ l, a ∈ l') → ∀ {a b : α},
      Linked content areAliases l a b → Linked content areAliases l' a b := by
    intro l l' hsub a b hab
    induction hab with
    | rel x y hxy =>
        rcases hxy with hpair | halias
        · have hx := List.mem_of_find?_eq_some hpair.first
          exact linked_of_same (hsub x hx) (hsub y hpair.mem) hpair.same.symm
        · exact .rel x y (Or.inr halias)
    | refl x => exact .refl x
    | symm x y _ ih => exact .symm x y ih
    | trans x y z _ _ ihx ihy => exact .trans x y z ihx ihy
  exact ⟨hsub fun a ha => (h a).mp ha, hsub fun a ha => (h a).mpr ha⟩

end Duplicates
