import Mathlib.Data.List.Basic
import Mathlib.Data.List.TakeWhile

/-!
# Strings as byte lists

A `std::string` is the list of its bytes, and a position in it is a natural
number.  `npos` is `none`.  Only the operations the tools call are here, each
with the lemmas that replace its positions by a split of the string.

`str` and `char` write the ASCII literals of the source.
-/

namespace ZimTools

/-- A `std::string`. -/
abbrev Bytes := List UInt8

/-- The byte of an ASCII character literal. -/
def char (c : Char) : UInt8 := UInt8.ofNat c.toNat

/-- The bytes of an ASCII string literal. -/
def str (s : String) : Bytes := s.toList.map char

/-- What is checked of each byte of a literal. -/
theorem forall_mem_of_all {s : Bytes} {P : UInt8 → Prop} [DecidablePred P]
    (h : s.all (fun c => decide (P c)) = true) : ∀ c ∈ s, P c :=
  fun c hc => of_decide_eq_true (List.all_eq_true.mp h c hc)

namespace Bytes

/-- `s.find(c, pos)`. -/
def find (s : Bytes) (c : UInt8) (pos : Nat) : Option Nat :=
  ((s.drop pos).findIdx? (· == c)).map (· + pos)

/-- The first position at which `t` stands in `s`. -/
def firstOccurrence (t : Bytes) : Bytes → Option Nat
  | [] => if t = [] then some 0 else none
  | c :: s => if t.isPrefixOf (c :: s) then some 0 else (firstOccurrence t s).map (· + 1)

/-- `s.find(t, pos)`. -/
def findString (s t : Bytes) (pos : Nat) : Option Nat :=
  if s.length < pos then none else (firstOccurrence t (s.drop pos)).map (· + pos)

/-- `s.find_last_of(cs)`. -/
def findLastOf : Bytes → Bytes → Option Nat
  | [], _ => none
  | b :: s, cs =>
      match findLastOf s cs with
      | some i => some (i + 1)
      | none => if b ∈ cs then some 0 else none

/-- `s.substr(pos, n)`. -/
def substr (s : Bytes) (pos n : Nat) : Bytes := (s.drop pos).take n

/-- What a C function reads of `s.c_str()`: the bytes before the first NUL. -/
def cStr (s : Bytes) : Bytes := s.takeWhile (· != 0)

/-! ## Searching -/

theorem findIdx?_eq_none_of_notMem {s : Bytes} {c : UInt8} (h : c ∉ s) :
    s.findIdx? (· == c) = none := by
  rw [List.findIdx?_eq_none_iff]
  intro x hx
  have hne : x ≠ c := fun hxc => h (hxc ▸ hx)
  simpa using hne

/-- The first occurrence is found behind a part without the byte. -/
theorem find_append_cons {a : Bytes} {c : UInt8} (b : Bytes) {pos : Nat} (hpos : pos ≤ a.length)
    (ha : c ∉ a.drop pos) : find (a ++ c :: b) c pos = some a.length := by
  have hidx : ((a ++ c :: b).drop pos).findIdx? (· == c) = some (a.length - pos) := by
    rw [List.drop_append_of_le_length hpos, List.findIdx?_append, findIdx?_eq_none_of_notMem ha]
    simp [List.findIdx?_cons]
  rw [find, hidx]
  simp only [Option.map_some, Option.some.injEq]
  omega

theorem find_eq_none {s : Bytes} {c : UInt8} {pos : Nat} (h : c ∉ s.drop pos) :
    find s c pos = none := by
  rw [find, findIdx?_eq_none_of_notMem h]
  rfl

/-- What is found lies behind a part without the byte. -/
theorem exists_of_find_eq_some {s : Bytes} {c : UInt8} {pos p : Nat} (h : find s c pos = some p) :
    pos ≤ p ∧ ∃ a b, s = a ++ c :: b ∧ a.length = p ∧ c ∉ a.drop pos := by
  rw [find, Option.map_eq_some_iff] at h
  obtain ⟨i, hi, rfl⟩ := h
  obtain ⟨hlt, hc, hbefore⟩ := List.findIdx?_eq_some_iff_getElem.mp hi
  rw [List.length_drop] at hlt
  rw [List.getElem_drop] at hc
  have hip : i + pos < s.length := by omega
  have hget : s[i + pos] = c := by simpa [Nat.add_comm] using hc
  have hsplit : s = s.take (i + pos) ++ c :: s.drop (i + pos + 1) := by
    conv_lhs => rw [← List.take_append_drop (i + pos) s, List.drop_eq_getElem_cons hip, hget]
  refine ⟨by omega, _, _, hsplit, by rw [List.length_take]; omega, fun hmem => ?_⟩
  rw [List.drop_take, List.mem_take_iff_getElem] at hmem
  obtain ⟨j, hj, hjc⟩ := hmem
  have hne := hbefore j (by omega)
  simp [hjc] at hne

/-- A string is found at the start of the strings that begin with it. -/
theorem findString_eq_zero_iff {s t : Bytes} : findString s t 0 = some 0 ↔ t <+: s := by
  rw [findString, if_neg (Nat.not_lt_zero _), List.drop_zero]
  cases s with
  | nil =>
      rw [firstOccurrence, List.prefix_nil]
      split_ifs with ht <;> simp [ht]
  | cons c s =>
      rw [firstOccurrence, ← List.isPrefixOf_iff_prefix]
      split_ifs with hprefix <;> simp [ hprefix]

/-- Every string splits at the first occurrence of a byte, or has none. -/
theorem mem_split (c : UInt8) (s : Bytes) : c ∉ s ∨ ∃ a b, s = a ++ c :: b ∧ c ∉ a := by
  by_cases h : c ∈ s
  · obtain ⟨a, b, hs, ha⟩ := List.eq_append_cons_of_mem h
    exact Or.inr ⟨a, b, hs, ha⟩
  · exact Or.inl h

/-- Two texts that go on with a byte which is not in the other. -/
theorem append_cons_inj {a b s t : Bytes} {x y : UInt8} (hx : x ∉ b) (hy : y ∉ a)
    (h : a ++ x :: s = b ++ y :: t) : a = b ∧ x = y ∧ s = t := by
  induction a generalizing b with
  | nil =>
      cases b with
      | nil => exact ⟨rfl, List.cons.inj h⟩
      | cons c b => exact absurd ((List.cons.inj h).1 ▸ List.mem_cons_self ..) hx
  | cons d a ih =>
      cases b with
      | nil => exact absurd ((List.cons.inj h).1 ▸ List.mem_cons_self ..) hy
      | cons c b =>
          obtain ⟨rfl, htail⟩ := List.cons.inj h
          obtain ⟨rfl, hrest⟩ := ih (fun hmem => hx (List.mem_cons_of_mem d hmem))
            (fun hmem => hy (List.mem_cons_of_mem d hmem)) htail
          exact ⟨rfl, hrest⟩

/-- A string splits at a byte in one way only, when it has the byte once. -/
theorem append_cons_inj_of_once {a b a' b' : Bytes} {c : UInt8} (ha : c ∉ a) (hb : c ∉ b)
    (h : a' ++ c :: b' = a ++ c :: b) : a' = a ∧ b' = b := by
  obtain ha' | ⟨u, v, rfl, hu⟩ := mem_split c a'
  · obtain ⟨rfl, -, rfl⟩ := append_cons_inj ha ha' h
    exact ⟨rfl, rfl⟩
  · -- The byte would be behind the split as well.
    rw [List.append_assoc] at h
    obtain ⟨-, -, rfl⟩ := append_cons_inj ha hu h
    exact absurd (List.mem_append_right v (List.mem_cons_self ..)) hb

theorem findLastOf_eq_none {s cs : Bytes} (h : ∀ b ∈ s, b ∉ cs) : findLastOf s cs = none := by
  induction s with
  | nil => rfl
  | cons b s ih =>
      simp only [List.mem_cons, forall_eq_or_imp] at h
      simp [findLastOf, ih h.2, h.1]

/-- The last occurrence is found before a part without the bytes. -/
theorem findLastOf_append_cons (a : Bytes) {c : UInt8} {b cs : Bytes} (hc : c ∈ cs)
    (hb : ∀ x ∈ b, x ∉ cs) : findLastOf (a ++ c :: b) cs = some a.length := by
  induction a with
  | nil => simp [findLastOf, findLastOf_eq_none hb, hc]
  | cons x a ih => simp [findLastOf, ih]

/-- Every string splits at the last occurrence of one of the bytes, or has none. -/
theorem last_split (cs s : Bytes) :
    (∀ b ∈ s, b ∉ cs) ∨ ∃ a c b, s = a ++ c :: b ∧ c ∈ cs ∧ ∀ x ∈ b, x ∉ cs := by
  induction s with
  | nil => exact Or.inl (by simp)
  | cons x s ih =>
      rcases ih with hs | ⟨a, c, b, rfl, hc, hb⟩
      · by_cases hx : x ∈ cs
        · exact Or.inr ⟨[], x, s, rfl, hx, hs⟩
        · exact Or.inl (by simpa [hx] using hs)
      · exact Or.inr ⟨x :: a, c, b, rfl, hc, hb⟩

/-! ## C strings -/

theorem cStr_of_notMem {s : Bytes} (h : (0 : UInt8) ∉ s) : cStr s = s := by
  rw [cStr, List.takeWhile_eq_self_iff]
  intro b hb
  have hne : b ≠ 0 := fun h0 => h (h0 ▸ hb)
  simpa using hne

end Bytes

end ZimTools
