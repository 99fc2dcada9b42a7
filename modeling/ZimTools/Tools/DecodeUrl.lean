import ZimTools.Lib.Loop
import ZimTools.Std.Bytes

/-!
# Percent decoding

`decodeUrl` of `tools.cpp` searches the next `%` from a position, replaces it
and its two hexadecimal digits in place, and goes on one byte behind the
result.  `percentDecode` is the one-pass decoder it amounts to.

The loop ends because the rest of the string behind the position shrinks on
every pass, by one byte when the digits are missing and by three when they are
not.  The invariant is that what is before the position is final and what is
behind it is still a suffix of the input.

`PercentDecodes` says what decoding is for, without the functions of the code:
`decodeUrl_decodes`.
-/

namespace ZimTools

open Bytes

/-- `isxdigit`. -/
def isxdigit (c : UInt8) : Bool :=
  (char '0' ≤ c && c ≤ char '9') || (char 'A' ≤ c && c ≤ char 'F') ||
    (char 'a' ≤ c && c ≤ char 'f')

/-- The value of one hexadecimal digit. -/
def hexDigitValue (c : UInt8) : Nat :=
  if c ≤ char '9' then c.toNat - (char '0').toNat
  else if c ≤ char 'F' then c.toNat - (char 'A').toNat + 10
  else c.toNat - (char 'a').toNat + 10

/-- `charFromHex`, on a string of hexadecimal digits. -/
def charFromHex (a : Bytes) : UInt8 :=
  UInt8.ofNat (a.foldl (fun z c => 16 * z + hexDigitValue c) 0)

/-- One pass of the loop of `decodeUrl`, at a string and a position. -/
def decodeUrlPass : Bytes × Nat → (Bytes × Nat) ⊕ Bytes
  | (url, pos) =>
      match find url (char '%') pos with
      | none => .inr url
      | some pos =>
          if h : pos + 2 < url.length then
            if !isxdigit url[pos + 1] || !isxdigit url[pos + 2] then .inl (url, pos + 1)
            else
              .inl (url.take pos ++ charFromHex (substr url (pos + 1) 2) :: url.drop (pos + 3),
                pos + 1)
          else .inr url

/-- The one-pass decoder: a `%` with two hexadecimal digits is the byte they
denote, and every other byte is itself. -/
def percentDecode : Bytes → Bytes
  | c :: a :: b :: s =>
      if c = char '%' ∧ isxdigit a = true ∧ isxdigit b = true then
        charFromHex [a, b] :: percentDecode s
      else c :: percentDecode (a :: b :: s)
  | s => s

theorem percentDecode_cons_of_ne {c : UInt8} (hc : c ≠ char '%') (s : Bytes) :
    percentDecode (c :: s) = c :: percentDecode s := by
  match s with
  | [] => simp [percentDecode]
  | [a] => simp [percentDecode]
  | a :: b :: s => rw [percentDecode, if_neg (by simp [hc])]

/-- A part without `%` decodes to itself. -/
theorem percentDecode_append {a : Bytes} (ha : char '%' ∉ a) (s : Bytes) :
    percentDecode (a ++ s) = a ++ percentDecode s := by
  induction a with
  | nil => rfl
  | cons c a ih =>
      simp only [List.mem_cons, not_or] at ha
      rw [List.cons_append, percentDecode_cons_of_ne (Ne.symm ha.1), ih ha.2, List.cons_append]

theorem percentDecode_of_notMem {s : Bytes} (h : char '%' ∉ s) : percentDecode s = s := by
  have := percentDecode_append h []
  simpa [percentDecode] using this

theorem percentDecode_short {s : Bytes} (h : s.length ≤ 2) : percentDecode s = s := by
  match s with
  | [] => simp [percentDecode]
  | [_] => simp [percentDecode]
  | [_, _] => simp [percentDecode]
  | _ :: _ :: _ :: _ => simp at h

/-- A `%` without its two digits is itself. -/
theorem percentDecode_cons_of_not {c a : UInt8} {s : Bytes} (ha : isxdigit a = false) :
    percentDecode (c :: a :: s) = c :: percentDecode (a :: s) := by
  cases s with
  | nil => simp [percentDecode]
  | cons b s => rw [percentDecode, if_neg (by simp [ha])]

/-- In front of a byte that is no digit no escape is cut. -/
theorem percentDecode_append_of_head {s : Bytes} (hs : ∀ c ∈ s.head?, isxdigit c = false) :
    ∀ r : Bytes, percentDecode (r ++ s) = percentDecode r ++ percentDecode s
  | [] => rfl
  | [a] => by
      cases s with
      | nil => simp [percentDecode]
      | cons c s =>
          rw [List.singleton_append, percentDecode_cons_of_not (hs c rfl)]
          rfl
  | [a, b] => by
      have ih := percentDecode_append_of_head hs [b]
      cases s with
      | nil => simp [percentDecode]
      | cons c s =>
          have hab : percentDecode (a :: b :: c :: s) = a :: percentDecode (b :: c :: s) := by
            rw [percentDecode, if_neg (by simp [hs c rfl])]
          exact hab.trans (congrArg (a :: ·) ih)
  | a :: b :: c :: r => by
      have ih := percentDecode_append_of_head hs r
      have ih' := percentDecode_append_of_head hs (b :: c :: r)
      simp only [List.cons_append, percentDecode] at ih' ⊢
      split_ifs with h
      · rw [ih]
        rfl
      · exact congrArg (a :: ·) ih'

/-! ## The loop -/

/-- At a final part `done` and a rest without `%`, the loop leaves. -/
theorem decodeUrlPass_exit {done rest : Bytes} (h : char '%' ∉ rest) :
    decodeUrlPass (done ++ rest, done.length) = .inr (done ++ rest) := by
  have hfind : find (done ++ rest) (char '%') done.length = none :=
    find_eq_none (by simpa using h)
  simp only [decodeUrlPass, hfind]

theorem find_percent (done a b : Bytes) (ha : char '%' ∉ a) :
    find (done ++ (a ++ char '%' :: b)) (char '%') done.length = some (done ++ a).length := by
  rw [← List.append_assoc]
  exact find_append_cons b (by simp) (by simpa using ha)

/-- A `%` too close to the end ends the loop. -/
theorem decodeUrlPass_short (done : Bytes) {a b : Bytes} (ha : char '%' ∉ a)
    (hb : b.length ≤ 1) :
    decodeUrlPass (done ++ (a ++ char '%' :: b), done.length) =
      .inr (done ++ (a ++ char '%' :: b)) := by
  simp only [decodeUrlPass, find_percent done a b ha]
  rw [dif_neg (by simp; omega)]

/-- A `%` with its two next bytes is passed or replaced. -/
theorem decodeUrlPass_found {p : Bytes} {x y : UInt8} {b : Bytes} {pos : Nat}
    (hfind : find (p ++ char '%' :: x :: y :: b) (char '%') pos = some p.length) :
    decodeUrlPass (p ++ char '%' :: x :: y :: b, pos) =
      if isxdigit x = true ∧ isxdigit y = true then
        .inl ((p ++ [charFromHex [x, y]]) ++ b, (p ++ [charFromHex [x, y]]).length)
      else .inl ((p ++ [char '%']) ++ x :: y :: b, (p ++ [char '%']).length) := by
  have hlen : p.length + 2 < (p ++ char '%' :: x :: y :: b).length := by
    simp only [List.length_append, List.length_cons]
    omega
  have hx : (p ++ char '%' :: x :: y :: b)[p.length + 1] = x := by
    rw [List.getElem_append_right (by omega)]
    simp
  have hy : (p ++ char '%' :: x :: y :: b)[p.length + 2] = y := by
    rw [List.getElem_append_right (by omega)]
    simp
  have htake : (p ++ char '%' :: x :: y :: b).take p.length = p := by simp
  have hdrop : (p ++ char '%' :: x :: y :: b).drop (p.length + 3) = b := by
    rw [List.drop_append]
    simp
  have hsub : substr (p ++ char '%' :: x :: y :: b) (p.length + 1) 2 = [x, y] := by
    rw [substr, List.drop_append, List.drop_eq_nil_of_le (by omega)]
    simp
  simp only [decodeUrlPass, hfind, dif_pos hlen, hx, hy, htake, hdrop, hsub]
  by_cases hxy : isxdigit x = true ∧ isxdigit y = true
  · rw [if_pos hxy, if_neg (by simp [hxy])]
    simp
  · have hbad : (!isxdigit x || !isxdigit y) = true := by
      simpa only [Bool.or_eq_true, Bool.not_eq_true', ← Bool.not_eq_true, ← not_and_or] using hxy
    rw [if_neg hxy, if_pos hbad]
    simp

/-- From a final part and a rest, the loop returns the final part and the
decoded rest, in at most one pass for each byte of the rest and one more. -/
theorem run_decodeUrlPass :
    ∀ (n : Nat) (done rest : Bytes), rest.length < n →
      Loop.run decodeUrlPass n (done ++ rest, done.length) = some (done ++ percentDecode rest)
  | 0, _, _, h => by omega
  | n + 1, done, rest, hn => by
      rcases mem_split (char '%') rest with hnone | ⟨a, b, rfl, ha⟩
      · rw [Loop.run_succ_inr n (decodeUrlPass_exit hnone), percentDecode_of_notMem hnone]
      match b with
      | [] =>
          rw [Loop.run_succ_inr n (decodeUrlPass_short done ha (by simp)),
            percentDecode_append ha, percentDecode_short (by simp)]
      | [x] =>
          rw [Loop.run_succ_inr n (decodeUrlPass_short done ha (by simp)),
            percentDecode_append ha, percentDecode_short (by simp)]
      | x :: y :: b =>
          have hpass := decodeUrlPass_found (List.append_assoc done a _ ▸ find_percent done a _ ha :
            find (done ++ a ++ char '%' :: x :: y :: b) _ done.length = _)
          rw [List.append_assoc done a] at hpass
          simp only [List.length_append, List.length_cons] at hn
          by_cases hxy : isxdigit x = true ∧ isxdigit y = true
          · rw [if_pos hxy] at hpass
            rw [Loop.run_succ_inl n hpass, run_decodeUrlPass n _ b (by omega),
              percentDecode_append ha, percentDecode, if_pos ⟨rfl, hxy⟩]
            simp
          · rw [if_neg hxy] at hpass
            rw [Loop.run_succ_inl n hpass,
              run_decodeUrlPass n _ (x :: y :: b) (by simp; omega),
              percentDecode_append ha, percentDecode, if_neg (fun h => hxy h.2)]
            simp

theorem decodeUrl_terminates (url : Bytes) :
    (Loop.run decodeUrlPass (url.length + 1) (url, 0)).isSome := by
  have h := run_decodeUrlPass (url.length + 1) [] url (by omega)
  simp only [List.nil_append, List.length_nil] at h
  rw [h]
  rfl

/-- `decodeUrl`. -/
def decodeUrl (originalUrl : Bytes) : Bytes :=
  (Loop.run decodeUrlPass (originalUrl.length + 1) (originalUrl, 0)).get
    (decodeUrl_terminates originalUrl)

/-- The loop in place is the one-pass decoder. -/
theorem decodeUrl_eq_percentDecode (url : Bytes) : decodeUrl url = percentDecode url := by
  have h := run_decodeUrlPass (url.length + 1) [] url (by omega)
  simp only [List.nil_append, List.length_nil] at h
  simp [decodeUrl, h]

example : decodeUrl (str "a%2fb%2") = str "a/b%2" := by decide

/-! ## What is decoded -/

/-- `c` is the hexadecimal digit of the value `n`, in either case. -/
def IsHexDigit (c : UInt8) (n : Nat) : Prop :=
  (str "0123456789abcdef")[n]? = some c ∨ (str "0123456789ABCDEF")[n]? = some c

/-- What a text is decoded to, read once from left to right. -/
inductive PercentDecodes : Bytes → Bytes → Prop where
  | nil : PercentDecodes [] []
  | escape {a b : UInt8} {x y : Nat} {s r : Bytes} (hx : IsHexDigit a x) (hy : IsHexDigit b y)
      (rest : PercentDecodes s r) :
      PercentDecodes (char '%' :: a :: b :: s) (UInt8.ofNat (16 * x + y) :: r)
  | copy {c : UInt8} {s r : Bytes}
      (hc : ¬ ∃ a b x y t, c :: s = char '%' :: a :: b :: t ∧ IsHexDigit a x ∧ IsHexDigit b y)
      (rest : PercentDecodes s r) : PercentDecodes (c :: s) (c :: r)

theorem IsHexDigit.lt {c : UInt8} {n : Nat} (h : IsHexDigit c n) : n < 16 := by
  rcases h with h | h <;> exact (List.getElem?_eq_some_iff.mp h).1

theorem IsHexDigit.isxdigit {c : UInt8} {n : Nat} (h : IsHexDigit c n) : isxdigit c = true := by
  have hlower : ∀ d ∈ str "0123456789abcdef", ZimTools.isxdigit d = true :=
    forall_mem_of_all (by decide)
  have hupper : ∀ d ∈ str "0123456789ABCDEF", ZimTools.isxdigit d = true :=
    forall_mem_of_all (by decide)
  rcases h with h | h
  · exact hlower c (List.mem_of_getElem? h)
  · exact hupper c (List.mem_of_getElem? h)

theorem hexDigits_value : ∀ n < 16,
    (str "0123456789abcdef")[n]?.map hexDigitValue = some n ∧
      (str "0123456789ABCDEF")[n]?.map hexDigitValue = some n := by
  decide

theorem IsHexDigit.value {c : UInt8} {n : Nat} (h : IsHexDigit c n) : hexDigitValue c = n := by
  obtain ⟨hlower, hupper⟩ := hexDigits_value n h.lt
  rcases h with h | h
  · rw [h] at hlower
    exact Option.some.inj hlower
  · rw [h] at hupper
    exact Option.some.inj hupper

theorem exists_isHexDigit {c : UInt8} (h : isxdigit c = true) : ∃ n, IsHexDigit c n := by
  have hall : ∀ m < 256, isxdigit (UInt8.ofNat m) = true →
      UInt8.ofNat m ∈ str "0123456789abcdef" ++ str "0123456789ABCDEF" := by decide +kernel
  have hmem := hall c.toNat c.toNat_lt
  rw [UInt8.ofNat_toNat] at hmem
  rcases List.mem_append.mp (hmem h) with hmem | hmem
  · obtain ⟨n, hn⟩ := List.mem_iff_getElem?.mp hmem
    exact ⟨n, Or.inl hn⟩
  · obtain ⟨n, hn⟩ := List.mem_iff_getElem?.mp hmem
    exact ⟨n, Or.inr hn⟩

theorem charFromHex_of_isHexDigit {a b : UInt8} {x y : Nat} (hx : IsHexDigit a x)
    (hy : IsHexDigit b y) : charFromHex [a, b] = UInt8.ofNat (16 * x + y) := by
  rw [charFromHex, List.foldl_cons, List.foldl_cons, List.foldl_nil, hx.value, hy.value,
    Nat.mul_zero, Nat.zero_add]

theorem PercentDecodes.eq_percentDecode {s r : Bytes} (h : PercentDecodes s r) :
    r = percentDecode s := by
  induction h with
  | nil => rfl
  | escape hx hy _ ih =>
      rw [percentDecode, if_pos ⟨rfl, hx.isxdigit, hy.isxdigit⟩, ← ih,
        charFromHex_of_isHexDigit hx hy]
  | @copy c s r hc _ ih =>
      match s with
      | [] => rw [ih]; rfl
      | [a] => rw [ih]; rfl
      | a :: b :: t =>
          rw [percentDecode, if_neg, ← ih]
          rintro ⟨rfl, ha, hb⟩
          obtain ⟨x, hx⟩ := exists_isHexDigit ha
          obtain ⟨y, hy⟩ := exists_isHexDigit hb
          exact hc ⟨a, b, x, y, t, rfl, hx, hy⟩

theorem percentDecodes_percentDecode (s : Bytes) : PercentDecodes s (percentDecode s) := by
  induction s using percentDecode.induct with
  | case1 c a b s hescape ih =>
      obtain ⟨rfl, ha, hb⟩ := hescape
      obtain ⟨x, hx⟩ := exists_isHexDigit ha
      obtain ⟨y, hy⟩ := exists_isHexDigit hb
      rw [percentDecode, if_pos ⟨rfl, ha, hb⟩, charFromHex_of_isHexDigit hx hy]
      exact .escape hx hy ih
  | case2 c a b s hcopy ih =>
      rw [percentDecode, if_neg hcopy]
      refine .copy ?_ ih
      rintro ⟨a', b', x, y, t, heq, hx, hy⟩
      obtain ⟨rfl, rfl, rfl, -⟩ : c = char '%' ∧ a = a' ∧ b = b' ∧ s = t := by simpa using heq
      exact hcopy ⟨rfl, hx.isxdigit, hy.isxdigit⟩
  | case3 s hshort =>
      match s with
      | [] => exact .nil
      | [c] => exact .copy (by simp) .nil
      | [c, d] => exact .copy (by simp) (.copy (by simp) .nil)
      | c :: a :: b :: s => exact absurd rfl (hshort c a b s)

/-- For every text the loop ends with what the text is decoded to. -/
theorem decodeUrl_decodes (url : Bytes) :
    (∃ passes, Loop.run decodeUrlPass passes (url, 0) = some (decodeUrl url)) ∧
      ∀ r, PercentDecodes url r ↔ r = decodeUrl url := by
  refine ⟨⟨url.length + 1, (Option.some_get _).symm⟩, fun r => ?_⟩
  rw [decodeUrl_eq_percentDecode]
  constructor
  · exact PercentDecodes.eq_percentDecode
  · rintro rfl
    exact percentDecodes_percentDecode url

end ZimTools
