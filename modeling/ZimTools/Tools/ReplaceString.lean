import ZimTools.Lib.Loop
import ZimTools.Std.Bytes

/-!
# Replacing a string in place

`replaceStringInPlace` of `tools.cpp` searches the next occurrence from a
position, replaces it in the subject, and goes on behind the text that it put
in.  `replaceAll` is the scan from left to right it amounts to: the loop ends,
and what it has passed is final (`replaceStringInPlace_eq_replaceAll`).

`Replaced` says what is to come out, by the leftmost occurrence and what is
behind it.  The loop leaves this, and nothing else, at every bound that lets it
end (`replaceStringInPlace_replaces`).

No occurrence lies across a byte which the search string has nowhere behind its
first byte.  At such a byte the subject falls into two parts that are replaced
one by one (`replaceAll_append_cons`).
-/

namespace ZimTools

open Bytes

/-- One pass of the loop of `replaceStringInPlace`, at a subject and a position. -/
def replacePass (search replace : Bytes) : Bytes × Nat → (Bytes × Nat) ⊕ Bytes
  | (subject, pos) =>
      match findString subject search pos with
      | none => .inr subject
      | some pos =>
          .inl (subject.take pos ++ replace ++ subject.drop (pos + search.length),
            pos + replace.length)

/-- The scan from left to right, with `skip` bytes of an occurrence still to pass. -/
def replaceScan (search replace : Bytes) : Nat → Bytes → Bytes
  | _, [] => []
  | skip + 1, _ :: s => replaceScan search replace skip s
  | 0, c :: s =>
      if search.isPrefixOf (c :: s) then
        replace ++ replaceScan search replace (search.length - 1) s
      else c :: replaceScan search replace 0 s

/-- Every occurrence of the scan replaced. -/
def replaceAll (search replace subject : Bytes) : Bytes := replaceScan search replace 0 subject

/-! ## The scan -/

section Scan

variable {search replace : Bytes}

theorem replaceScan_eq (skip : Nat) (s : Bytes) :
    replaceScan search replace skip s = replaceAll search replace (s.drop skip) := by
  induction s generalizing skip with
  | nil => rw [List.drop_nil, replaceAll, replaceScan, replaceScan]
  | cons c s ih =>
      cases skip with
      | zero => rfl
      | succ skip => exact ih skip

@[simp] theorem replaceAll_nil : replaceAll search replace [] = [] := by
  rw [replaceAll, replaceScan]

theorem replaceAll_search (hsearch : search ≠ []) (s : Bytes) :
    replaceAll search replace (search ++ s) = replace ++ replaceAll search replace s := by
  obtain ⟨c, t, rfl⟩ := List.exists_cons_of_ne_nil hsearch
  have hprefix : (c :: t).isPrefixOf (c :: (t ++ s)) = true :=
    List.isPrefixOf_iff_prefix.mpr (List.prefix_append (c :: t) s)
  rw [replaceAll, List.cons_append, replaceScan, if_pos hprefix, replaceScan_eq]
  simp

theorem replaceAll_cons {c : UInt8} {s : Bytes} (h : ¬ search <+: c :: s) :
    replaceAll search replace (c :: s) = c :: replaceAll search replace s := by
  rw [replaceAll, replaceScan, if_neg fun hprefix => h (List.isPrefixOf_iff_prefix.mp hprefix)]
  rfl

/-- Without an occurrence nothing is replaced. -/
theorem replaceAll_of_none {s : Bytes} (h : firstOccurrence search s = none) :
    replaceAll search replace s = s := by
  induction s with
  | nil => exact replaceAll_nil
  | cons c s ih =>
      rw [firstOccurrence] at h
      split_ifs at h with hprefix
      rw [replaceAll_cons fun hp => hprefix (List.isPrefixOf_iff_prefix.mpr hp),
        ih (Option.map_eq_none_iff.mp h)]

variable (replace) in
/-- What is in front of the first occurrence stays. -/
theorem replaceAll_of_some (hsearch : search ≠ []) {s : Bytes} {i : Nat}
    (h : firstOccurrence search s = some i) :
    ∃ a b, s = a ++ (search ++ b) ∧ a.length = i ∧
      replaceAll search replace s = a ++ (replace ++ replaceAll search replace b) := by
  induction s generalizing i with
  | nil => exact absurd h (by simp [firstOccurrence, hsearch])
  | cons c s ih =>
      rw [firstOccurrence] at h
      split_ifs at h with hprefix
      · obtain ⟨b, hb⟩ := List.isPrefixOf_iff_prefix.mp hprefix
        exact ⟨[], b, hb.symm, Option.some.inj h, hb ▸ replaceAll_search hsearch b⟩
      · obtain ⟨j, hj, rfl⟩ := Option.map_eq_some_iff.mp h
        obtain ⟨a, b, rfl, rfl, hall⟩ := ih hj
        refine ⟨c :: a, b, rfl, rfl, ?_⟩
        rw [replaceAll_cons fun hp => hprefix (List.isPrefixOf_iff_prefix.mpr hp), hall]
        rfl

/-- An occurrence does not go over a byte that is nowhere behind its first one. -/
theorem prefix_of_prefix_append_cons {c d : UInt8} {a b : Bytes} (hc : c ∉ search.tail)
    (h : search <+: d :: a ++ c :: b) : search <+: d :: a := by
  obtain hlt | hle := Nat.lt_or_ge (d :: a).length search.length
  · have hover : d :: a ++ [c] <+: search := by
      refine List.prefix_of_prefix_length_le ?_ h ?_
      · exact ⟨b, by simp⟩
      · simpa using Nat.succ_le_of_lt hlt
    obtain ⟨t, rfl⟩ := hover
    exact absurd (by simp) hc
  · exact List.prefix_of_prefix_length_le h (List.prefix_append ..) hle

/-- A byte that the search string has at most in front. -/
theorem replaceAll_append_cons (hsearch : search ≠ []) {c : UInt8} (hc : c ∉ search.tail)
    (a b : Bytes) :
    replaceAll search replace (a ++ c :: b) =
      replaceAll search replace a ++ replaceAll search replace (c :: b) := by
  induction hn : a.length using Nat.strong_induction_on generalizing a with
  | _ n ih =>
      obtain - | ⟨d, a⟩ := a
      · rw [replaceAll_nil]
        rfl
      rw [List.length_cons] at hn
      by_cases hprefix : search <+: d :: a
      · obtain ⟨rest, hrest⟩ := hprefix
        have hlt : rest.length < n := by
          have hlen := congrArg List.length hrest
          have hpos := List.length_pos_of_ne_nil hsearch
          rw [List.length_append, List.length_cons] at hlen
          omega
        rw [← hrest, List.append_assoc, replaceAll_search hsearch, replaceAll_search hsearch,
          ih _ hlt rest rfl, List.append_assoc]
      · have hprefix' : ¬ search <+: d :: (a ++ c :: b) :=
          fun h => hprefix (prefix_of_prefix_append_cons hc h)
        rw [List.cons_append, replaceAll_cons hprefix', replaceAll_cons hprefix,
          ih a.length (by omega) a rfl]
        rfl

end Scan

/-! ## The loop -/

theorem findString_append (done rest t : Bytes) :
    findString (done ++ rest) t done.length =
      (firstOccurrence t rest).map (· + done.length) := by
  rw [findString, if_neg (by simp), List.drop_left]

/-- An occurrence is replaced, and the loop goes on behind it. -/
theorem replacePass_found {search replace p b : Bytes} {pos : Nat}
    (hfind : findString (p ++ (search ++ b)) search pos = some p.length) :
    replacePass search replace (p ++ (search ++ b), pos) =
      .inl (p ++ replace ++ b, (p ++ replace).length) := by
  have hdrop : (p ++ (search ++ b)).drop (p.length + search.length) = b := by
    rw [← List.append_assoc, ← List.length_append, List.drop_left]
  simp only [replacePass, hfind, List.take_left, hdrop, List.length_append]

/-- From a final part and a rest, the loop returns the final part and the rest
with its occurrences replaced. -/
theorem run_replacePass {search : Bytes} (hsearch : search ≠ []) (replace : Bytes) :
    ∀ (n : Nat) (done rest : Bytes), rest.length < n →
      Loop.run (replacePass search replace) n (done ++ rest, done.length) =
        some (done ++ replaceAll search replace rest)
  | 0, _, _, h => absurd h (Nat.not_lt_zero _)
  | n + 1, done, rest, hn => by
      have hfind := findString_append done rest search
      cases hfirst : firstOccurrence search rest with
      | none =>
          rw [hfirst] at hfind
          rw [replaceAll_of_none hfirst]
          refine Loop.run_succ_inr n ?_
          simp only [replacePass, hfind, Option.map_none]
      | some i =>
          obtain ⟨a, b, rfl, rfl, hall⟩ := replaceAll_of_some replace hsearch hfirst
          have hat : findString (done ++ a ++ (search ++ b)) search done.length =
              some (done ++ a).length := by
            rw [List.append_assoc, hfind, hfirst, Option.map_some, List.length_append, Nat.add_comm]
          have hpos := List.length_pos_of_ne_nil hsearch
          simp only [List.length_append] at hn
          rw [← List.append_assoc, Loop.run_succ_inl n (replacePass_found hat),
            run_replacePass hsearch replace n _ b (by omega), hall]
          simp only [List.append_assoc]

theorem replacePass_terminates {search : Bytes} (hsearch : search ≠ []) (replace subject : Bytes) :
    (Loop.run (replacePass search replace) (subject.length + 1) (subject, 0)).isSome :=
  Option.isSome_of_eq_some
    (run_replacePass hsearch replace (subject.length + 1) [] subject (Nat.lt_succ_self _))

/-- `replaceStringInPlace`, with the subject that it leaves. -/
def replaceStringInPlace (subject search replace : Bytes) : Bytes :=
  if h : search = [] then subject
  else
    (Loop.run (replacePass search replace) (subject.length + 1) (subject, 0)).get
      (replacePass_terminates h replace subject)

/-- The loop in place is the scan. -/
theorem replaceStringInPlace_eq_replaceAll (subject : Bytes) {search : Bytes}
    (hsearch : search ≠ []) (replace : Bytes) :
    replaceStringInPlace subject search replace = replaceAll search replace subject := by
  have h := run_replacePass hsearch replace (subject.length + 1) [] subject (Nat.lt_succ_self _)
  rw [replaceStringInPlace, dif_neg hsearch]
  exact Option.get_of_eq_some _ h

/-! ## What is replaced -/

/-- The leftmost occurrence is replaced, and the occurrences behind it in the
same way.  The text put in is not searched. -/
inductive Replaced (search replace : Bytes) : Bytes → Bytes → Prop where
  | rest {s : Bytes} (h : ¬ search <:+: s) : Replaced search replace s s
  | found {a b r : Bytes}
      (hleft : ∀ u v, a ++ (search ++ b) = u ++ (search ++ v) → a.length ≤ u.length)
      (h : Replaced search replace b r) :
      Replaced search replace (a ++ (search ++ b)) (a ++ (replace ++ r))

theorem exists_firstOccurrence_le (t u v : Bytes) :
    ∃ i ≤ u.length, firstOccurrence t (u ++ (t ++ v)) = some i := by
  induction u with
  | nil =>
      refine ⟨0, Nat.le_refl 0, ?_⟩
      rw [List.nil_append]
      cases htv : t ++ v with
      | nil => rw [firstOccurrence, if_pos (List.append_eq_nil_iff.mp htv).1]
      | cons c s =>
          have hprefix : t.isPrefixOf (c :: s) = true :=
            List.isPrefixOf_iff_prefix.mpr (htv ▸ List.prefix_append t v)
          rw [firstOccurrence, if_pos hprefix]
  | cons c u ih =>
      obtain ⟨i, hi, hfirst⟩ := ih
      rw [List.cons_append, firstOccurrence]
      split
      · exact ⟨0, Nat.zero_le _, rfl⟩
      · exact ⟨i + 1, Nat.succ_le_succ hi, by rw [hfirst]; rfl⟩

section Replaced

variable {search replace : Bytes}

theorem not_infix_of_none {s : Bytes} (h : firstOccurrence search s = none) :
    ¬ search <:+: s := by
  rintro ⟨u, v, rfl⟩
  obtain ⟨i, -, hfirst⟩ := exists_firstOccurrence_le search u v
  rw [List.append_assoc, hfirst] at h
  cases h

/-- The scan replaces what is to be replaced. -/
theorem replaced_replaceAll (hsearch : search ≠ []) (s : Bytes) :
    Replaced search replace s (replaceAll search replace s) := by
  induction hn : s.length using Nat.strong_induction_on generalizing s with
  | _ n ih =>
      cases hfirst : firstOccurrence search s with
      | none =>
          rw [replaceAll_of_none hfirst]
          exact .rest (not_infix_of_none hfirst)
      | some i =>
          obtain ⟨a, b, rfl, rfl, hall⟩ := replaceAll_of_some replace hsearch hfirst
          have hpos := List.length_pos_of_ne_nil hsearch
          simp only [List.length_append] at hn
          rw [hall]
          refine .found (fun u v huv => ?_) (ih b.length (by omega) b rfl)
          obtain ⟨j, hj, hfirst'⟩ := exists_firstOccurrence_le search u v
          rw [huv, hfirst'] at hfirst
          exact Option.some.inj hfirst ▸ hj

/-- And nothing else comes out. -/
theorem Replaced.eq_replaceAll (hsearch : search ≠ []) {s r : Bytes}
    (h : Replaced search replace s r) : r = replaceAll search replace s := by
  induction h with
  | @rest s h =>
      cases hfirst : firstOccurrence search s with
      | none => exact (replaceAll_of_none hfirst).symm
      | some i =>
          obtain ⟨a, b, rfl, -, -⟩ := replaceAll_of_some replace hsearch hfirst
          exact absurd ⟨a, b, List.append_assoc a search b⟩ h
  | @found a b r hleft h ih =>
      obtain ⟨i, hi, hfirst⟩ := exists_firstOccurrence_le search a b
      obtain ⟨a', b', hsplit, rfl, hall⟩ := replaceAll_of_some replace hsearch hfirst
      obtain ⟨rfl, htail⟩ :=
        List.append_inj hsplit (Nat.le_antisymm (hleft a' b' hsplit) hi)
      obtain rfl := List.append_cancel_left htail
      rw [hall, ih]

end Replaced

/-- For a string to search, the loop ends with what is to come out, and for an
empty one nothing changes. -/
theorem replaceStringInPlace_replaces (subject search replace : Bytes) :
    (search ≠ [] →
      (∀ fuel, subject.length < fuel → Loop.run (replacePass search replace) fuel (subject, 0) =
        some (replaceStringInPlace subject search replace)) ∧
      ∀ result, Replaced search replace subject result ↔
        result = replaceStringInPlace subject search replace) ∧
    replaceStringInPlace subject [] replace = subject := by
  refine ⟨fun hsearch => ?_, dif_pos rfl⟩
  rw [replaceStringInPlace_eq_replaceAll subject hsearch replace]
  refine ⟨fun fuel hfuel => ?_, fun result => ⟨Replaced.eq_replaceAll hsearch, ?_⟩⟩
  · exact run_replacePass hsearch replace fuel [] subject hfuel
  · rintro rfl
    exact replaced_replaceAll hsearch subject

example : replaceStringInPlace (str "aaab") (str "aa") (str "a") = str "aab" := by decide

end ZimTools
