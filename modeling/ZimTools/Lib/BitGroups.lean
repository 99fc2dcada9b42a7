import Mathlib.Algebra.Order.Ring.Nat
import Mathlib.Data.List.Induction
import Mathlib.Data.List.TakeWhile
import ZimTools.Lib.MapM

/-!
# Digits in groups of bits

A list of digits of `v` bits is a stream of bits, highest bit first, and a
stream falls into groups of `w` bits, each of which is a digit again.  So data
are written in digits of another width: the stream is filled up with zeros to
whole groups, and on the way back the zeros are too few for a digit
(`groups_regroup`).

An `Alphabet` writes each digit of `w` bits as a symbol, and fills the text up
with a padding symbol to a multiple of a quantum.  `decode` is strict: it takes
nothing but padding behind the text, and nothing but zeros, less than a symbol
of them, behind the last digit.  It gives back what was encoded (`decode_encode`).
-/

namespace BitGroups

/-! ## Digits and bits -/

/-- The `w` lowest bits of a number, the highest first. -/
def bits : Nat → Nat → List Bool
  | 0, _ => []
  | w + 1, n => bits w (n / 2) ++ [n % 2 == 1]

def value (l : List Bool) : Nat := l.foldl (fun n b => 2 * n + b.toNat) 0

def stream (v : Nat) (ds : List Nat) : List Bool := ds.flatMap (bits v)

@[simp] theorem length_bits (w n : Nat) : (bits w n).length = w := by
  induction w generalizing n with
  | zero => rfl
  | succ w ih => rw [bits, List.length_append, ih, List.length_singleton]

theorem value_concat (l : List Bool) (b : Bool) : value (l ++ [b]) = 2 * value l + b.toNat := by
  rw [value, List.foldl_append]
  rfl

theorem toNat_odd (n : Nat) : (n % 2 == 1).toNat = n % 2 := by
  rcases Nat.mod_two_eq_zero_or_one n with h | h <;> simp [h]

theorem value_bits {w n : Nat} (h : n < 2 ^ w) : value (bits w n) = n := by
  induction w generalizing n with
  | zero => exact (Nat.lt_one_iff.mp h).symm
  | succ w ih =>
      rw [Nat.pow_succ] at h
      rw [bits, value_concat, ih (by omega), toNat_odd]
      omega

theorem bits_value (l : List Bool) : bits l.length (value l) = l := by
  induction l using List.reverseRecOn with
  | nil => rfl
  | append_singleton l b ih =>
      have hb : b.toNat < 2 := b.toNat_lt
      have hhalf : (2 * value l + b.toNat) / 2 = value l := by omega
      have hodd : ((2 * value l + b.toNat) % 2 == 1) = b := by
        cases b <;> simp
      rw [List.length_append, List.length_singleton, bits, value_concat, hhalf, ih, hodd]

theorem value_lt (l : List Bool) : value l < 2 ^ l.length := by
  induction l using List.reverseRecOn with
  | nil => exact Nat.one_pos
  | append_singleton l b ih =>
      have hb : b.toNat < 2 := b.toNat_lt
      rw [value_concat, List.length_append, List.length_singleton, Nat.pow_succ]
      omega

/-- The bits of a number fall into those of its parts. -/
theorem bits_append (a x : Nat) {b y : Nat} (h : y < 2 ^ b) :
    bits (a + b) (x * 2 ^ b + y) = bits a x ++ bits b y := by
  induction b generalizing y with
  | zero =>
      obtain rfl : y = 0 := Nat.lt_one_iff.mp h
      simp [bits]
  | succ b ih =>
      rw [Nat.pow_succ] at h
      have hdouble : x * 2 ^ (b + 1) = 2 * (x * 2 ^ b) := by
        rw [Nat.pow_succ, ← Nat.mul_assoc, Nat.mul_comm]
      have hhalf : (x * 2 ^ (b + 1) + y) / 2 = x * 2 ^ b + y / 2 := by omega
      have hodd : (x * 2 ^ (b + 1) + y) % 2 = y % 2 := by omega
      rw [← Nat.add_assoc, bits, hhalf, hodd, ih (by omega), bits, List.append_assoc]

theorem bits_split (a b n : Nat) : bits (a + b) n = bits a (n / 2 ^ b) ++ bits b (n % 2 ^ b) := by
  rw [← bits_append a (n / 2 ^ b) (Nat.mod_lt n (Nat.two_pow_pos b)), Nat.div_add_mod']

theorem bits_zero (w : Nat) : bits w 0 = List.replicate w false := by
  induction w with
  | zero => rfl
  | succ w ih => rw [bits, Nat.zero_div, ih, List.replicate_succ']; rfl

theorem length_stream (v : Nat) (ds : List Nat) : (stream v ds).length = v * ds.length := by
  induction ds with
  | nil => rfl
  | cons d ds ih =>
      rw [stream, List.flatMap_cons, List.length_append, length_bits, ← stream, ih,
        List.length_cons, Nat.mul_succ, Nat.add_comm]

/-! ## Groups -/

def chunks (w : Nat) : Nat → List Bool → List (List Bool)
  | 0, _ => []
  | n + 1, l => l.take w :: chunks w n (l.drop w)

/-- The whole groups of a stream. -/
def groups (w : Nat) (l : List Bool) : List (List Bool) := chunks w (l.length / w) l

/-- What is missing to a multiple. -/
def missing (q n : Nat) : Nat := (q - n % q) % q

/-- A stream filled up with zeros to whole groups. -/
def fill (w : Nat) (l : List Bool) : List Bool := l ++ List.replicate (missing w l.length) false

/-- The digits of width `w` for those of width `v`. -/
def regroup (v w : Nat) (ds : List Nat) : List Nat := (groups w (fill w (stream v ds))).map value

theorem missing_lt {q : Nat} (hq : 0 < q) (n : Nat) : missing q n < q := Nat.mod_lt _ hq

theorem missing_add {q m : Nat} (h : q ∣ m) (n : Nat) : missing q (m + n) = missing q n := by
  obtain ⟨k, rfl⟩ := h
  rw [missing, missing, Nat.mul_add_mod]

theorem dvd_add_missing {q : Nat} (hq : 0 < q) (n : Nat) : q ∣ n + missing q n := by
  have hlt := Nat.mod_lt n hq
  have hn := Nat.div_add_mod n q
  rw [missing]
  by_cases hzero : n % q = 0
  · rw [hzero, Nat.sub_zero, Nat.mod_self, Nat.add_zero]
    exact Nat.dvd_of_mod_eq_zero hzero
  · rw [Nat.mod_eq_of_lt (by omega)]
    exact ⟨n / q + 1, by rw [Nat.mul_succ]; omega⟩

variable {w : Nat}

theorem groups_append (hw : 0 < w) {g : List Bool} (h : g.length = w) (l : List Bool) :
    groups w (g ++ l) = g :: groups w l := by
  have hcount : (g ++ l).length / w = l.length / w + 1 := by
    rw [List.length_append, h, Nat.add_comm, Nat.add_div_right _ hw]
  rw [groups, hcount, chunks, List.take_left' h, List.drop_left' h]
  rfl

theorem fill_append {g : List Bool} (h : w ∣ g.length) (l : List Bool) :
    fill w (g ++ l) = g ++ fill w l := by
  rw [fill, fill, List.length_append, missing_add h, List.append_assoc]

theorem groups_of_lt {l : List Bool} (h : l.length < w) : groups w l = [] := by
  rw [groups, Nat.div_eq_of_lt h]
  rfl

theorem groups_stream (hw : 0 < w) (ds : List Nat) (l : List Bool) :
    groups w (stream w ds ++ l) = ds.map (bits w) ++ groups w l := by
  induction ds with
  | nil => rfl
  | cons d ds ih =>
      rw [stream, List.flatMap_cons, ← stream, List.append_assoc,
        groups_append hw (length_bits w d), ih, List.map_cons, List.cons_append]

/-- A stream of whole groups is the stream of their digits. -/
theorem stream_groups (hw : 0 < w) (n : Nat) {l : List Bool} (h : l.length = w * n) :
    stream w ((groups w l).map value) = l := by
  induction n generalizing l with
  | zero =>
      obtain rfl := List.length_eq_zero_iff.mp h
      rw [groups_of_lt hw]
      rfl
  | succ n ih =>
      have hsplit := List.take_append_drop w l
      have htake : (l.take w).length = w := by
        rw [List.length_take, h, Nat.mul_succ]
        exact Nat.min_eq_left (Nat.le_add_left w _)
      have hdrop : (l.drop w).length = w * n := by
        rw [List.length_drop, h, Nat.mul_succ, Nat.add_sub_cancel]
      have hbits := bits_value (l.take w)
      rw [htake] at hbits
      conv_lhs => rw [← hsplit, groups_append hw htake]
      rw [List.map_cons, stream, List.flatMap_cons, ← stream, ih hdrop, hbits, hsplit]

theorem stream_regroup (hw : 0 < w) (v : Nat) (ds : List Nat) :
    stream w (regroup v w ds) = fill w (stream v ds) := by
  obtain ⟨n, hn⟩ := dvd_add_missing hw (stream v ds).length
  refine stream_groups hw n ?_
  rw [fill, List.length_append, List.length_replicate, hn]

theorem map_value_bits {v : Nat} {ds : List Nat} (h : ∀ d ∈ ds, d < 2 ^ v) :
    (ds.map (bits v)).map value = ds := by
  rw [List.map_map]
  exact (List.map_congr_left fun d hd => value_bits (h d hd)).trans (List.map_id ds)

/-- Digits of both widths at the front of a stream. -/
theorem regroup_of_stream (hw : 0 < w) {v : Nat} {xs ys : List Nat} {l : List Bool}
    (h : stream v xs = stream w ys ++ l) (hys : ∀ y ∈ ys, y < 2 ^ w) :
    regroup v w xs = ys ++ (groups w (fill w l)).map value := by
  have hdvd : w ∣ (stream w ys).length := ⟨ys.length, length_stream w ys⟩
  rw [regroup, h, fill_append hdvd, groups_stream hw, List.map_append, map_value_bits hys]

theorem regroup_of_fill (hw : 0 < w) {v : Nat} {xs ys : List Nat}
    (h : fill w (stream v xs) = stream w ys) (hys : ∀ y ∈ ys, y < 2 ^ w) :
    regroup v w xs = ys := by
  have hgroups := groups_stream hw ys []
  rw [List.append_nil, groups_of_lt (l := []) hw, List.append_nil] at hgroups
  rw [regroup, h, hgroups, map_value_bits hys]

/-- Digits that are regrouped in narrower ones come back. -/
theorem groups_regroup (hw : 0 < w) {v : Nat} (hwv : w ≤ v) {ds : List Nat}
    (h : ∀ d ∈ ds, d < 2 ^ v) : (groups v (stream w (regroup v w ds))).map value = ds := by
  have hrest : (List.replicate (missing w (stream v ds).length) false).length < v := by
    rw [List.length_replicate]
    exact Nat.lt_of_lt_of_le (missing_lt hw _) hwv
  rw [stream_regroup hw, fill, groups_stream (Nat.lt_of_lt_of_le hw hwv), groups_of_lt hrest,
    List.append_nil, map_value_bits h]

theorem length_of_mem_chunks {n : Nat} {l : List Bool} (h : w * n ≤ l.length) :
    ∀ g ∈ chunks w n l, g.length = w := by
  induction n generalizing l with
  | zero => exact fun g hg => absurd hg List.not_mem_nil
  | succ n ih =>
      rw [Nat.mul_succ] at h
      refine List.forall_mem_cons.mpr ⟨?_, ih ?_⟩
      · exact List.length_take_of_le (by omega)
      · rw [List.length_drop]
        omega

theorem regroup_lt (v : Nat) (ds : List Nat) : ∀ d ∈ regroup v w ds, d < 2 ^ w := by
  intro d hd
  obtain ⟨g, hg, rfl⟩ := List.mem_map.mp hd
  have hlength := length_of_mem_chunks (Nat.mul_div_le _ w) g hg
  exact hlength ▸ value_lt g

/-! ## Texts -/

/-- The symbols of the digits of a width, with the symbol that a text is padded
with to a multiple of `quantum`. -/
structure Alphabet (α : Type) where
  width : Nat
  quantum : Nat
  symbol : Nat → α
  digit : α → Option Nat
  pad : α

namespace Alphabet

variable {α : Type}

/-- Each digit has its symbol, and the padding is not one of them. -/
structure Lawful (A : Alphabet α) : Prop where
  width_pos : 0 < A.width
  digit_symbol : ∀ n < 2 ^ A.width, A.digit (A.symbol n) = some n
  digit_pad : A.digit A.pad = none

variable (A : Alphabet α)

def padding (n : Nat) : List α := List.replicate (missing A.quantum n) A.pad

/-- The text of digits of width `v`. -/
def encode (v : Nat) (ds : List Nat) : List α :=
  let text := (regroup v A.width ds).map A.symbol
  text ++ A.padding text.length

/-- Whether nothing but zeros, and less than a symbol of them, is behind the last
digit of width `v`. -/
def ends (v : Nat) (l : List Bool) : Bool :=
  let rest := l.drop (v * (l.length / v))
  rest.length < A.width && rest.all (! ·)

/-- The digits of width `v` of a text. -/
def decode [DecidableEq α] (v : Nat) (text : List α) : Option (List Nat) :=
  let body := text.takeWhile (· != A.pad)
  if text = body ++ A.padding body.length then
    (body.mapM A.digit).bind fun digits =>
      let l := stream A.width digits
      if A.ends v l then some ((groups v l).map value) else none
  else none

variable {A}

/-- Digits that fill whole quanta are written for themselves. -/
theorem encode_append {v : Nat} {xs ys zs : List Nat}
    (h : regroup v A.width xs = ys ++ regroup v A.width zs) (hquantum : A.quantum ∣ ys.length) :
    A.encode v xs = ys.map A.symbol ++ A.encode v zs := by
  rw [encode, encode, h]
  simp only [List.map_append, List.length_append, List.length_map, padding, missing_add hquantum,
    List.append_assoc]

theorem mapM_digit (hA : A.Lawful) {ds : List Nat} (h : ∀ d ∈ ds, d < 2 ^ A.width) :
    (ds.map A.symbol).mapM A.digit = some ds := by
  have hdigits : ds.mapM (A.digit ∘ A.symbol) = some (ds.map id) :=
    MapM.eq_some_map fun d hd => hA.digit_symbol d (h d hd)
  rw [List.mapM_map, hdigits, List.map_id]

/-- Behind the last digit is what the stream was filled up with. -/
theorem ends_fill (hw : 0 < A.width) {v : Nat} (hwv : A.width ≤ v) (ds : List Nat) :
    A.ends v (fill A.width (stream v ds)) = true := by
  have hmissing := missing_lt hw (stream v ds).length
  have hlength := length_stream v ds
  have hcount : (fill A.width (stream v ds)).length / v = ds.length := by
    have hv : 0 < v := Nat.lt_of_lt_of_le hw hwv
    rw [fill, List.length_append, List.length_replicate]
    rw [hlength] at hmissing ⊢
    rw [Nat.mul_add_div hv, Nat.div_eq_of_lt (Nat.lt_of_lt_of_le hmissing hwv), Nat.add_zero]
  have hrest : (fill A.width (stream v ds)).drop (v * ds.length) =
      List.replicate (missing A.width (stream v ds).length) false := by
    rw [fill, List.drop_left' hlength]
  rw [ends, hcount, hrest, List.length_replicate]
  simp [hmissing]

variable [DecidableEq α]

/-- The symbols of a text end where its padding begins. -/
theorem takeWhile_padding (hA : A.Lawful) {ds : List Nat} (h : ∀ d ∈ ds, d < 2 ^ A.width) (n : Nat) :
    (ds.map A.symbol ++ A.padding n).takeWhile (· != A.pad) = ds.map A.symbol := by
  have hsymbol : ∀ c ∈ ds.map A.symbol, (c != A.pad) = true := by
    intro c hc
    obtain ⟨d, hd, rfl⟩ := List.mem_map.mp hc
    refine bne_iff_ne.mpr fun heq => ?_
    have hdigit := hA.digit_symbol d (h d hd)
    rw [heq, hA.digit_pad] at hdigit
    cases hdigit
  have hpad : (A.padding n).takeWhile (· != A.pad) = [] := by
    rw [padding]
    cases missing A.quantum n with
    | zero => rfl
    | succ k => rw [List.replicate_succ, List.takeWhile_cons_of_neg (by simp)]
  rw [List.takeWhile_append_of_pos hsymbol, hpad, List.append_nil]

/-- What is encoded comes back. -/
theorem decode_encode (hA : A.Lawful) {v : Nat} (hwv : A.width ≤ v) {ds : List Nat}
    (h : ∀ d ∈ ds, d < 2 ^ v) : A.decode v (A.encode v ds) = some ds := by
  have hlt := regroup_lt (w := A.width) v ds
  rw [decode, encode]
  simp only [takeWhile_padding hA hlt, if_true, mapM_digit hA hlt, Option.bind_some,
    stream_regroup hA.width_pos, ends_fill hA.width_pos hwv]
  rw [← stream_regroup hA.width_pos, groups_regroup hA.width_pos hwv h]

end Alphabet

end BitGroups
