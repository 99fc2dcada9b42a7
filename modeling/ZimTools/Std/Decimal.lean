import Mathlib.Algebra.GroupWithZero.Nat
import Mathlib.Algebra.Ring.Int.Defs
import Mathlib.Data.List.Basic
import ZimTools.Std.Bytes

/-!
# Decimal numbers

How the tools write numbers, and `atoi`.  `char` is signed.
-/

namespace ZimTools

/-- The digits of a number. -/
def decimal (n : Nat) : Bytes := (Nat.toDigits 10 n).map char

/-- A number written to a stream. -/
def numberToString (number : Int) : Bytes :=
  (if number < 0 then str "-" else []) ++ decimal number.natAbs

/-- `(int) c`. -/
def charToInt (c : UInt8) : Int := if c.toNat < 128 then c.toNat else c.toNat - 256

/-- `(char) number`. -/
def intToChar (number : Int) : UInt8 := UInt8.ofNat (number % 256).toNat

/-- `isspace` in the C locale. -/
def isSpace (c : UInt8) : Bool := c == 32 || (9 ≤ c && c ≤ 13)

/-- The number of the leading digits. -/
def leadingNumber (s : Bytes) : Nat :=
  (s.takeWhile fun c => char '0' ≤ c && c ≤ char '9').foldl
    (fun n c => 10 * n + (c.toNat - (char '0').toNat)) 0

/-- The number at the start of a text, behind white space and a sign. -/
def signedNumber (s : Bytes) : Int :=
  match s.dropWhile isSpace with
  | [] => 0
  | c :: s =>
      if c = char '-' then -leadingNumber s
      else if c = char '+' then leadingNumber s
      else leadingNumber (c :: s)

/-- `strtol` in base ten.  A number out of the range of `long` gives its nearest
bound. -/
def strtol (s : Bytes) : Int := max (-2 ^ 63) (min (2 ^ 63 - 1) (signedNumber s))

/-- `atoi`, which is `(int) strtol(s, NULL, 10)` in glibc. -/
def atoi (s : Bytes) : Int := (strtol s).bmod (2 ^ 32)

theorem mem_decimal {n : Nat} {c : UInt8} (h : c ∈ decimal n) :
    (char '0').toNat ≤ c.toNat ∧ c.toNat ≤ (char '9').toNat := by
  obtain ⟨d, hd, rfl⟩ := List.mem_map.mp h
  have hdigit := Nat.isDigit_of_mem_toDigits (by decide) (by decide) hd
  rw [Char.isDigit_iff_toNat, show '0'.toNat = 48 from rfl, show '9'.toNat = 57 from rfl] at hdigit
  have hto : (char d).toNat = d.toNat := by
    rw [char, UInt8.toNat_ofNat', Nat.mod_eq_of_lt (by omega)]
  rw [hto]
  exact hdigit

theorem decimal_injective : Function.Injective decimal := by
  intro n m h
  have hdigits (k : Nat) : (decimal k).map (fun c => Char.ofNat c.toNat) = Nat.toDigits 10 k := by
    rw [decimal, List.map_map]
    refine (List.map_congr_left fun d hd => ?_).trans (List.map_id _)
    have hdigit := Nat.isDigit_of_mem_toDigits (by decide) (by decide) hd
    rw [Char.isDigit_iff_toNat, show '0'.toNat = 48 from rfl, show '9'.toNat = 57 from rfl] at hdigit
    rw [Function.comp, char, UInt8.toNat_ofNat', Nat.mod_eq_of_lt (by omega), Char.ofNat_toNat]
    rfl
  rw [← Nat.ofDigitChars_ten_toDigits (n := n), ← hdigits, h, hdigits,
    Nat.ofDigitChars_ten_toDigits]

theorem numberToString_injective : Function.Injective numberToString := by
  have hminus (n m : Nat) : decimal n ≠ char '-' :: decimal m := by
    intro h
    have hmem := mem_decimal (h ▸ List.mem_cons_self : char '-' ∈ decimal n)
    exact absurd hmem.1 (by decide)
  intro a b h
  rw [numberToString, numberToString] at h
  split at h
  · split at h
    · have hnat := decimal_injective (List.cons.inj h).2
      omega
    · exact absurd h.symm (hminus _ _)
  · split at h
    · exact absurd h (hminus _ _)
    · have hnat := decimal_injective h
      omega

/-- A byte read back from its number. -/
theorem intToChar_atoi (c : UInt8) : intToChar (atoi (numberToString (charToInt c))) = c := by
  have hall : ∀ n < 256, intToChar (atoi (numberToString (charToInt (UInt8.ofNat n)))) =
      UInt8.ofNat n := by decide +kernel
  have hc := hall c.toNat c.toNat_lt
  rwa [UInt8.ofNat_toNat] at hc

theorem newline_notMem_numberToString (number : Int) : char '\n' ∉ numberToString number := by
  rw [numberToString, List.mem_append]
  rintro (h | h)
  · split at h
    · exact absurd h (by decide)
    · simp at h
  · have hle := (mem_decimal h).1
    exact absurd hle (by decide)

end ZimTools
