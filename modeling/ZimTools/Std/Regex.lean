import Mathlib.Algebra.BigOperators.Group.List.Defs
import Mathlib.Computability.RegularExpressions
import ZimTools.Std.Bytes

/-!
# Regular expressions of the standard library

`std::regex` reads a text in its default grammar.  `Regex.ofBytes` reads the
part of that grammar that the program uses: characters, `\d`, `\w` and escaped
punctuation, bracket expressions, groups, the quantifiers `*`, `+`, `?` and
`{n}`, and the assertions `^` and `$` at the two ends.  Any other text is `none`.

`std::regex_search` looks for a match anywhere in a text, and `^` and `$` match
only at the ends of the whole text.  The lemmas about words take an expression
apart, so that a match need not be computed.
-/

namespace ZimTools

open Bytes

/-- A regular expression that has been read. -/
structure Regex where
  /-- Whether it begins with `^`. -/
  atStart : Bool
  body : RegularExpression UInt8
  /-- Whether it ends with `$`. -/
  atEnd : Bool

namespace Regex

def oneOf (cs : List UInt8) : RegularExpression UInt8 := (cs.map .char).sum

def range (a b : UInt8) : List UInt8 :=
  (List.range' a.toNat (b.toNat + 1 - a.toNat)).map UInt8.ofNat

def digits : List UInt8 := range (char '0') (char '9')

def letters : List UInt8 := range (char 'a') (char 'z') ++ range (char 'A') (char 'Z')

/-- The characters that a backslash and `c` stand for. -/
def escaped (c : UInt8) : Option (List UInt8) :=
  if c = char 'd' then some digits
  else if c = char 'w' then some (letters ++ digits ++ [char '_'])
  else if c ∈ letters ++ digits then none
  else some [c]

/-- A bracket expression from behind its `[` on, and what is behind its `]`. -/
def bracket : Bytes → Option (List UInt8 × Bytes)
  | [] => none
  | [c] => if c = char ']' then some ([], []) else none
  | [c, d] => if c = char ']' then some ([], [d]) else (bracket [d]).map (Prod.map (c :: ·) id)
  | c :: d :: e :: s =>
      if c = char ']' then some ([], d :: e :: s)
      else if c = char '\\' then do
        let cs ← escaped d
        (bracket (e :: s)).map (Prod.map (cs ++ ·) id)
      else if d = char '-' ∧ e ≠ char ']' then (bracket s).map (Prod.map (range c e ++ ·) id)
      else (bracket (d :: e :: s)).map (Prod.map (c :: ·) id)

/-- The quantifier behind `r`, if there is one. -/
def quantified (r : RegularExpression UInt8) : Bytes → Option (RegularExpression UInt8 × Bytes)
  | [] => some (r, [])
  | c :: s =>
      if c = char '*' then some (r.star, s)
      else if c = char '+' then some (r * r.star, s)
      else if c = char '?' then some (1 + r, s)
      else if c = char '{' then
        let ds := s.takeWhile (· ∈ digits)
        if ds ≠ [] ∧ s[ds.length]? = some (char '}') then
          some (r ^ ds.foldl (fun n d => 10 * n + (d.toNat - 48)) 0, s.drop (ds.length + 1))
        else none
      else some (r, c :: s)

/-- The characters that stand for something else than themselves. -/
def special : Bytes := str "^.*+?{}]|"

/-- The terms up to a `)` or `$` or the end. -/
def terms : Nat → Bytes → Option (RegularExpression UInt8 × Bytes)
  | 0, _ => none
  | _ + 1, [] => some (1, [])
  | fuel + 1, c :: s =>
      if c = char ')' ∨ c = char '$' then some (1, c :: s)
      else do
        let (atom, s) ←
          if c = char '(' then do
            let (r, s) ← terms fuel s
            if s.head? = some (char ')') then some (r, s.tail) else none
          else if c = char '[' then
            if s.head? = some (char '^') then none else (bracket s).map (Prod.map oneOf id)
          else if c = char '\\' then do
            let cs ← escaped (← s.head?)
            some (oneOf cs, s.tail)
          else if c ∈ special then none
          else some (.char c, s)
        let (r, s) ← quantified atom s
        let (rest, s) ← terms fuel s
        some (r * rest, s)

/-- `std::regex regex(regexStr)`. -/
def ofBytes (regexStr : Bytes) : Option Regex := do
  let atStart := regexStr.head? == some (char '^')
  let s := if atStart then regexStr.tail else regexStr
  let (body, s) ← terms (s.length + 1) s
  if s = [] then some ⟨atStart, body, false⟩
  else if s = str "$" then some ⟨atStart, body, true⟩
  else none

/-- `std::regex_search`. -/
def search (r : Regex) (text : Bytes) : Bool :=
  (if r.atStart then [text] else text.tails).any fun t =>
    (if r.atEnd then [t] else t.inits).any r.body.rmatch

theorem mem_range {a b c : UInt8} : c ∈ range a b ↔ a ≤ c ∧ c ≤ b := by
  rw [range, List.mem_map, UInt8.le_iff_toNat_le, UInt8.le_iff_toNat_le]
  constructor
  · rintro ⟨n, hn, rfl⟩
    have hb := b.toNat_lt
    rw [List.mem_range'_1] at hn
    have hlt : n < 2 ^ 8 := by omega
    have hvalue : (UInt8.ofNat n).toNat = n := UInt8.toNat_ofNat_of_lt hlt
    omega
  · intro h
    refine ⟨c.toNat, List.mem_range'_1.mpr (by omega), UInt8.ofNat_toNat⟩

/-! ## Words -/

section Words

variable {cs : List UInt8} {c : UInt8} {x : Bytes} {p q : RegularExpression UInt8}

theorem mem_mul : x ∈ (p * q).matches' ↔ ∃ a ∈ p.matches', ∃ b ∈ q.matches', a ++ b = x := by
  rw [RegularExpression.matches'_mul, Language.mem_mul]

theorem mem_add : x ∈ (p + q).matches' ↔ x ∈ p.matches' ∨ x ∈ q.matches' := by
  rw [RegularExpression.matches'_add, Language.mem_add]

theorem mem_one : x ∈ (1 : RegularExpression UInt8).matches' ↔ x = [] := by
  rw [RegularExpression.matches'_epsilon, Language.mem_one]

theorem mem_mul_one : x ∈ (p * 1).matches' ↔ x ∈ p.matches' := by
  rw [RegularExpression.matches'_mul, RegularExpression.matches'_epsilon, mul_one]

theorem mem_char : x ∈ (RegularExpression.char c).matches' ↔ x = [c] := by
  rw [RegularExpression.matches'_char]
  exact Iff.rfl

theorem mem_star : x ∈ p.star.matches' ↔ ∃ l : List Bytes, x = l.flatten ∧ ∀ y ∈ l, y ∈ p.matches' := by
  rw [RegularExpression.matches'_star, Language.mem_kstar]

theorem mem_char_mul : x ∈ (RegularExpression.char c * p).matches' ↔ ∃ y ∈ p.matches', x = c :: y := by
  rw [mem_mul]
  constructor
  · rintro ⟨a, ha, b, hb, rfl⟩
    rw [mem_char] at ha
    exact ⟨b, hb, by rw [ha]; rfl⟩
  · rintro ⟨y, hy, rfl⟩
    exact ⟨[c], mem_char.mpr rfl, y, hy, rfl⟩

/-- Words that each have the character in front. -/
theorem mem_char_mul_star : x ∈ (RegularExpression.char c * p).star.matches' ↔
    ∃ l : List Bytes, x = l.flatMap (c :: ·) ∧ ∀ y ∈ l, y ∈ p.matches' := by
  rw [mem_star]
  constructor
  · rintro ⟨l, rfl, hl⟩
    induction l with
    | nil => exact ⟨[], rfl, fun y hy => absurd hy List.not_mem_nil⟩
    | cons z l ih =>
        rw [List.forall_mem_cons] at hl
        obtain ⟨y, hy, rfl⟩ := mem_char_mul.mp hl.1
        obtain ⟨l', hl', hys⟩ := ih hl.2
        refine ⟨y :: l', ?_, List.forall_mem_cons.mpr ⟨hy, hys⟩⟩
        rw [List.flatten_cons, hl', List.flatMap_cons]
  · rintro ⟨l, rfl, hl⟩
    refine ⟨l.map (c :: ·), List.flatMap_def, fun z hz => ?_⟩
    obtain ⟨y, hy, rfl⟩ := List.mem_map.mp hz
    exact mem_char_mul.mpr ⟨y, hl y hy, rfl⟩

theorem mem_oneOf : x ∈ (oneOf cs).matches' ↔ ∃ c ∈ cs, x = [c] := by
  induction cs with
  | nil =>
      have hzero : (oneOf []).matches' = 0 := RegularExpression.matches'_zero
      rw [hzero]
      simp
  | cons c cs ih =>
      have hcons : oneOf (c :: cs) = .char c + oneOf cs := by
        rw [oneOf, List.map_cons, List.sum_cons]
        rfl
      rw [hcons, mem_add, mem_char, ih]
      simp

/-- Characters of a class. -/
theorem mem_oneOf_star : x ∈ (oneOf cs).star.matches' ↔ ∀ c ∈ x, c ∈ cs := by
  rw [mem_star]
  constructor
  · rintro ⟨l, rfl, hl⟩ c hc
    obtain ⟨z, hz, hcz⟩ := List.mem_flatten.mp hc
    obtain ⟨d, hd, rfl⟩ := mem_oneOf.mp (hl z hz)
    rw [List.mem_singleton.mp hcz]
    exact hd
  · intro hx
    refine ⟨x.map fun c => [c], by rw [← List.flatMap_def, List.flatMap_singleton'], fun z hz => ?_⟩
    obtain ⟨c, hc, rfl⟩ := List.mem_map.mp hz
    exact mem_oneOf.mpr ⟨c, hx c hc, rfl⟩

/-- A character of one class and then any number of another. -/
theorem mem_oneOf_mul_star {ds : List UInt8} : x ∈ (oneOf cs * (oneOf ds).star).matches' ↔
    ∃ c t, x = c :: t ∧ c ∈ cs ∧ ∀ d ∈ t, d ∈ ds := by
  rw [mem_mul]
  constructor
  · rintro ⟨a, ha, t, ht, rfl⟩
    obtain ⟨c, hc, rfl⟩ := mem_oneOf.mp ha
    exact ⟨c, t, rfl, hc, mem_oneOf_star.mp ht⟩
  · rintro ⟨c, t, rfl, hc, ht⟩
    exact ⟨[c], mem_oneOf.mpr ⟨c, hc, rfl⟩, t, mem_oneOf_star.mpr ht, rfl⟩

/-- One character of a class or more. -/
theorem mem_oneOf_plus :
    x ∈ (oneOf cs * (oneOf cs).star).matches' ↔ x ≠ [] ∧ ∀ c ∈ x, c ∈ cs := by
  rw [mem_oneOf_mul_star]
  constructor
  · rintro ⟨c, t, rfl, hc, ht⟩
    exact ⟨List.cons_ne_nil c t, List.forall_mem_cons.mpr ⟨hc, ht⟩⟩
  · rintro ⟨hne, hx⟩
    obtain ⟨c, t, rfl⟩ := List.exists_cons_of_ne_nil hne
    rw [List.forall_mem_cons] at hx
    exact ⟨c, t, rfl, hx.1, hx.2⟩

/-- An expression between `^` and `$` matches the whole text. -/
theorem search_whole (text : Bytes) :
    (⟨true, p, true⟩ : Regex).search text = true ↔ text ∈ p.matches' := by
  rw [← RegularExpression.rmatch_iff_matches']
  simp [search]

end Words

end Regex

example : (Regex.ofBytes (str "^a{2}(,[b-d]+)*$")).map (·.search (str "aa,bcd,c")) = some true := by
  decide

end ZimTools
