import Mathlib.Logic.Function.Basic
import ZimTools.Std.Bytes

/-!
# Captures of a regular expression

`std::regex` tries the alternatives of an expression in their order and takes
the first one with which the whole expression matches.  `exec` is the list of
what it tries.  The expressions are those of the program with capture groups,
which repeat classes of characters only.

`Matches` says what a match is, without an order.  The matcher finds one if
there is one (`fullMatch_eq_none_iff`).
-/

namespace ZimTools

open Bytes

inductive Pattern where
  /-- A character of a class. -/
  | one (p : UInt8 → Bool)
  /-- As many characters of a class as there are, `*`. -/
  | many (p : UInt8 → Bool)
  /-- As few characters of a class as suffice, `*?`. -/
  | few (p : UInt8 → Bool)
  | seq (a b : Pattern)
  /-- A pattern that does not match the empty text, or nothing, `?`. -/
  | opt (a : Pattern)
  | group (n : Nat) (a : Pattern)
  /-- What a group has captured. -/
  | backref (n : Nat)

/-- What the groups have captured. -/
abbrev Captures := Nat → Option Bytes

namespace Pattern

/-- One character of a class or more, `+`. -/
def some1 (p : UInt8 → Bool) : Pattern := .seq (.one p) (.many p)

/-- The rests of a text behind its first characters of a class, shortest first. -/
def rests (p : UInt8 → Bool) (s : Bytes) : List Bytes :=
  (List.range ((s.takeWhile p).length + 1)).reverse.map s.drop

/-- What is left behind each match at the start of a text, in the order in which
they are tried. -/
def exec : Pattern → Captures → Bytes → List (Bytes × Captures)
  | .one p, caps, s =>
      match s with
      | [] => []
      | c :: s => if p c then [(s, caps)] else []
  | .many p, caps, s => (rests p s).map (·, caps)
  | .few p, caps, s => (rests p s).reverse.map (·, caps)
  | .seq a b, caps, s => (exec a caps s).flatMap fun r => exec b r.2 r.1
  | .opt a, caps, s => exec a caps s ++ [(s, caps)]
  | .group n a, caps, s =>
      (exec a caps s).map fun r =>
        (r.1, Function.update r.2 n (some (s.take (s.length - r.1.length))))
  | .backref n, caps, s =>
      match caps n with
      | none => []
      | some a => if a.isPrefixOf s then [(s.drop a.length, caps)] else []

attribute [local simp] exec

/-- `std::regex_match`. -/
def fullMatch (a : Pattern) (text : Bytes) : Option Captures :=
  ((exec a (fun _ => none) text).find? fun r => r.1 = []).map Prod.snd

/-- A pattern matches a text, with what was captured before and behind it. -/
inductive Matches : Pattern → Captures → Bytes → Captures → Prop where
  | one {p : UInt8 → Bool} {c : UInt8} {caps : Captures} (h : p c = true) :
      Matches (.one p) caps [c] caps
  | many {p : UInt8 → Bool} {s : Bytes} {caps : Captures} (h : ∀ c ∈ s, p c = true) :
      Matches (.many p) caps s caps
  | few {p : UInt8 → Bool} {s : Bytes} {caps : Captures} (h : ∀ c ∈ s, p c = true) :
      Matches (.few p) caps s caps
  | seq {a b : Pattern} {s t : Bytes} {caps caps' caps'' : Captures} (ha : Matches a caps s caps')
      (hb : Matches b caps' t caps'') : Matches (.seq a b) caps (s ++ t) caps''
  | taken {a : Pattern} {s : Bytes} {caps caps' : Captures} (ha : Matches a caps s caps') :
      Matches (.opt a) caps s caps'
  | skipped {a : Pattern} {caps : Captures} : Matches (.opt a) caps [] caps
  | group {a : Pattern} {n : Nat} {s : Bytes} {caps caps' : Captures}
      (ha : Matches a caps s caps') :
      Matches (.group n a) caps s (Function.update caps' n (some s))
  | backref {n : Nat} {s : Bytes} {caps : Captures} (h : caps n = some s) :
      Matches (.backref n) caps s caps

theorem Matches.many_iff {p : UInt8 → Bool} {caps caps' : Captures} {s : Bytes} :
    Matches (.many p) caps s caps' ↔ caps' = caps ∧ ∀ c ∈ s, p c = true := by
  constructor
  · intro h
    cases h with
    | many hs => exact ⟨rfl, hs⟩
  · rintro ⟨rfl, hs⟩
    exact .many hs

theorem Matches.few_iff {p : UInt8 → Bool} {caps caps' : Captures} {s : Bytes} :
    Matches (.few p) caps s caps' ↔ caps' = caps ∧ ∀ c ∈ s, p c = true := by
  constructor
  · intro h
    cases h with
    | few hs => exact ⟨rfl, hs⟩
  · rintro ⟨rfl, hs⟩
    exact .few hs

theorem Matches.some1_iff {p : UInt8 → Bool} {caps caps' : Captures} {s : Bytes} :
    Matches (some1 p) caps s caps' ↔ caps' = caps ∧ s ≠ [] ∧ ∀ c ∈ s, p c = true := by
  constructor
  · intro h
    cases h with
    | seq hone hmany =>
        cases hone with
        | one hc =>
            obtain ⟨rfl, hs⟩ := Matches.many_iff.mp hmany
            exact ⟨rfl, List.cons_ne_nil _ _, List.forall_mem_cons.mpr ⟨hc, hs⟩⟩
  · rintro ⟨rfl, hne, hs⟩
    obtain ⟨c, t, rfl⟩ := List.exists_cons_of_ne_nil hne
    rw [List.forall_mem_cons] at hs
    exact .seq (.one hs.1) (.many hs.2)

theorem mem_rests {p : UInt8 → Bool} {s t : Bytes} :
    t ∈ rests p s ↔ ∃ a, s = a ++ t ∧ ∀ c ∈ a, p c = true := by
  rw [rests, List.mem_map]
  constructor
  · rintro ⟨k, hk, rfl⟩
    rw [List.mem_reverse, List.mem_range] at hk
    refine ⟨s.take k, (List.take_append_drop k s).symm, fun c hc => ?_⟩
    have hprefix : s.take k <+: s.takeWhile p :=
      List.prefix_of_prefix_length_le (List.take_prefix k s) (List.takeWhile_prefix p)
        (Nat.le_trans (List.length_take_le k s) (Nat.le_of_lt_succ hk))
    exact List.mem_takeWhile_imp ( hprefix.subset hc)
  · rintro ⟨a, rfl, ha⟩
    have hprefix : a <+: (a ++ t).takeWhile p := by
      rw [List.takeWhile_append_of_pos ha]
      exact List.prefix_append ..
    refine ⟨a.length, ?_, List.drop_left⟩
    rw [List.mem_reverse, List.mem_range]
    exact Nat.lt_succ_of_le hprefix.length_le

theorem mem_map_rests {p : UInt8 → Bool} {caps caps' : Captures} {s t : Bytes} :
    (t, caps') ∈ (rests p s).map (·, caps) ↔
      ∃ u, s = u ++ t ∧ caps' = caps ∧ ∀ c ∈ u, p c = true := by
  rw [List.mem_map]
  constructor
  · rintro ⟨_, hrest, h⟩
    obtain ⟨rfl, rfl⟩ := Prod.mk.inj h
    obtain ⟨u, hs, hu⟩ := mem_rests.mp hrest
    exact ⟨u, hs, rfl, hu⟩
  · rintro ⟨u, hs, rfl, hu⟩
    exact ⟨t, mem_rests.mpr ⟨u, hs, hu⟩, rfl⟩

theorem mem_exec_backref {n : Nat} {caps caps' : Captures} {s t : Bytes} :
    (t, caps') ∈ exec (.backref n) caps s ↔
      ∃ u, s = u ++ t ∧ Matches (.backref n) caps u caps' := by
  rw [exec]
  constructor
  · intro h
    cases hn : caps n with
    | none =>
        rw [hn] at h
        exact absurd h List.not_mem_nil
    | some a =>
        simp only [hn] at h
        split_ifs at h with hprefix
        · obtain ⟨rfl, rfl⟩ := Prod.mk.inj (List.mem_singleton.mp h)
          exact ⟨a, (List.prefix_iff_eq_append.mp (List.isPrefixOf_iff_prefix.mp hprefix)).symm,
            .backref hn⟩
        · exact absurd h List.not_mem_nil
  · rintro ⟨u, rfl, hmatch⟩
    cases hmatch with
    | backref hn =>
        simp only [hn]
        rw [if_pos (List.isPrefixOf_iff_prefix.mpr (List.prefix_append u t)), List.drop_left]
        exact List.mem_singleton_self _

/-- The matcher tries the matches of the pattern. -/
theorem mem_exec {a : Pattern} {caps caps' : Captures} {s t : Bytes} :
    (t, caps') ∈ exec a caps s ↔ ∃ u, s = u ++ t ∧ Matches a caps u caps' := by
  induction a generalizing caps caps' s t with
  | one p =>
      constructor
      · intro h
        obtain - | ⟨c, s⟩ := s
        · exact absurd h List.not_mem_nil
        · rw [exec] at h
          split_ifs at h with hc
          · obtain ⟨rfl, rfl⟩ := Prod.mk.inj (List.mem_singleton.mp h)
            exact ⟨[c], rfl, .one hc⟩
          · exact absurd h List.not_mem_nil
      · rintro ⟨u, rfl, hmatch⟩
        cases hmatch with
        | one hc =>
            rw [List.singleton_append, exec, if_pos hc]
            exact List.mem_singleton_self _
  | many p =>
      rw [exec, mem_map_rests]
      simp only [Matches.many_iff]
  | few p =>
      rw [exec, List.map_reverse, List.mem_reverse, mem_map_rests]
      simp only [Matches.few_iff]
  | seq a b iha ihb =>
      rw [exec, List.mem_flatMap]
      constructor
      · rintro ⟨⟨m, mid⟩, ha, hb⟩
        obtain ⟨u, rfl, hu⟩ := iha.mp ha
        obtain ⟨v, rfl, hv⟩ := ihb.mp hb
        exact ⟨u ++ v, (List.append_assoc ..).symm, .seq hu hv⟩
      · rintro ⟨u, rfl, hmatch⟩
        cases hmatch with
        | seq hu hv =>
            exact ⟨(_, _), iha.mpr ⟨_, List.append_assoc .., hu⟩, ihb.mpr ⟨_, rfl, hv⟩⟩
  | opt a ih =>
      rw [exec, List.mem_append, List.mem_singleton, ih]
      constructor
      · rintro (⟨u, rfl, hu⟩ | h)
        · exact ⟨u, rfl, .taken hu⟩
        · obtain ⟨rfl, rfl⟩ := Prod.mk.inj h
          exact ⟨[], rfl, .skipped⟩
      · rintro ⟨u, rfl, hmatch⟩
        cases hmatch with
        | taken hu => exact .inl ⟨u, rfl, hu⟩
        | skipped => exact .inr rfl
  | group n a ih =>
      have hread : ∀ u : Bytes, (u ++ t).take ((u ++ t).length - t.length) = u := fun u => by
        rw [List.length_append, Nat.add_sub_cancel, List.take_left]
      rw [exec, List.mem_map]
      constructor
      · rintro ⟨⟨m, mid⟩, ha, h⟩
        obtain ⟨rfl, rfl⟩ := Prod.mk.inj h
        obtain ⟨u, rfl, hu⟩ := ih.mp ha
        refine ⟨u, rfl, ?_⟩
        rw [hread]
        exact .group hu
      · rintro ⟨u, rfl, hmatch⟩
        cases hmatch with
        | group hu =>
            refine ⟨(t, _), ih.mpr ⟨u, rfl, hu⟩, ?_⟩
            rw [hread]
  | backref n => exact mem_exec_backref

/-- The first of the tries that has used up the text. -/
def firstMatch (tries : List (Bytes × Captures)) : Option Captures :=
  (tries.find? fun r => r.1 = []).map Prod.snd

theorem firstMatch_append {a b : List (Bytes × Captures)} :
    firstMatch (a ++ b) = (firstMatch a).or (firstMatch b) := by
  rw [firstMatch, List.find?_append, Option.map_or]
  rfl

theorem Matches.of_firstMatch {a : Pattern} {caps caps' : Captures} {text : Bytes}
    (h : firstMatch (exec a caps text) = some caps') : Matches a caps text caps' := by
  obtain ⟨⟨t, _⟩, hfind, rfl⟩ := Option.map_eq_some_iff.mp h
  have hnil : t = [] := by simpa using List.find?_some hfind
  obtain ⟨u, rfl, hu⟩ := mem_exec.mp (List.mem_of_find?_eq_some hfind)
  rwa [hnil, List.append_nil]

theorem firstMatch_eq_none_iff {a : Pattern} {caps : Captures} {text : Bytes} :
    firstMatch (exec a caps text) = none ↔ ∀ caps', ¬ Matches a caps text caps' := by
  rw [firstMatch, Option.map_eq_none_iff, List.find?_eq_none]
  constructor
  · intro h caps' hmatch
    exact h ([], caps') (mem_exec.mpr ⟨text, (List.append_nil _).symm, hmatch⟩) (by simp)
  · rintro h ⟨t, caps'⟩ hmem ht
    obtain ⟨u, rfl, hu⟩ := mem_exec.mp hmem
    have hnil : t = [] := by simpa using ht
    rw [hnil, List.append_nil] at h
    exact h caps' hu

/-- The match that is found is one. -/
theorem Matches.of_fullMatch {a : Pattern} {text : Bytes} {caps : Captures}
    (h : fullMatch a text = some caps) : Matches a (fun _ => none) text caps :=
  .of_firstMatch h

/-- A match is found if there is one. -/
theorem fullMatch_eq_none_iff {a : Pattern} {text : Bytes} :
    fullMatch a text = none ↔ ∀ caps, ¬ Matches a (fun _ => none) text caps :=
  firstMatch_eq_none_iff

/-! ## What is tried first -/

theorem exec_seq_of_single {a b : Pattern} {caps caps' : Captures} {s t : Bytes}
    (h : exec a caps s = [(t, caps')]) : exec (.seq a b) caps s = exec b caps' t := by
  simp [h]

theorem exec_seq_seq (a b c : Pattern) (caps : Captures) (s : Bytes) :
    exec (.seq (.seq a b) c) caps s = exec (.seq a (.seq b c)) caps s := by
  rw [exec, exec, exec, List.flatMap_assoc]
  rfl

theorem exec_opt_seq (a b : Pattern) (caps : Captures) (s : Bytes) :
    exec (.seq (.opt a) b) caps s = exec (.seq a b) caps s ++ exec b caps s := by
  simp

theorem exec_one_cons {p : UInt8 → Bool} {c : UInt8} (hc : p c = true) (caps : Captures)
    (s : Bytes) : exec (.one p) caps (c :: s) = [(s, caps)] := by
  simp [hc]

/-- Nothing is repeated in front of another character. -/
theorem exec_many_of_head {p : UInt8 → Bool} {s : Bytes} (h : ∀ c ∈ s.head?, p c = false)
    (caps : Captures) : exec (.many p) caps s = [(s, caps)] := by
  have htake : s.takeWhile p = [] := by
    cases s with
    | nil => rfl
    | cons c s => exact List.takeWhile_cons_of_neg (Bool.eq_false_iff.mp (h c rfl))
  rw [exec, rests, htake]
  rfl

theorem exec_group_of_single {a : Pattern} {n : Nat} {caps caps' : Captures} {s t : Bytes}
    (h : exec a caps (s ++ t) = [(t, caps')]) :
    exec (.group n a) caps (s ++ t) = [(t, Function.update caps' n (some s))] := by
  rw [exec, h, List.map_singleton, List.length_append, Nat.add_sub_cancel, List.take_left]

end Pattern

end ZimTools
