import Mathlib.Data.ZMod.Basic
import ZimTools.Lib.RunningSums
import ZimTools.Zimcheck.ArticleChecker

/-!
# The checksum of an item

Adler-32 is a pair of running sums of bytes modulo 65521.  `adler32` adds each
byte as a `char`, which is signed, to an `unsigned int`: a byte from 128 on
counts 256 less, and when the sum gets negative by this it wraps, so that modulo
65521 the byte counts 31 less.

So the checksum is Adler-32 exactly when these surpluses cancel in both sums
(`adler32_eq_checksum_iff`), which less than 256 of such bytes never do
(`cancels_iff_of_few`).
-/

namespace ZimTools.Zimcheck

open RunningSums

/-- The checksum of RFC 1950.  The first sum begins with 1, and the second one
is the sum of all first sums. -/
def adlerChecksum (l : List Nat) : Nat :=
  (firstSums 1 l).sum % 65521 * 65536 + (1 + l.sum) % 65521

/-! ## The surplus of a byte -/

/-- What a byte counts too little behind a first sum `s`, from which the surpluses
of the bytes before are taken off. -/
def surplus (s : Int) (c : UInt8) : Nat :=
  if c < 128 then 0 else if s + c.toNat < 256 then 31 else 256

def surpluses (s : Int) : Bytes → List Nat
  | [] => []
  | c :: buf => surplus s c :: surpluses ((s + (c.toNat - surplus s c)) % 65521) buf

/-- The surpluses of the bytes cancel in both sums. -/
def Cancels (buf : Bytes) : Prop :=
  65521 ∣ (surpluses 1 buf).sum ∧ 65521 ∣ weighted (surpluses 1 buf)

instance (buf : Bytes) : Decidable (Cancels buf) := inferInstanceAs (Decidable (_ ∧ _))

theorem length_surpluses (s : Int) (buf : Bytes) : (surpluses s buf).length = buf.length := by
  induction buf generalizing s with
  | nil => rfl
  | cons c buf ih => rw [surpluses, List.length_cons, ih, List.length_cons]

theorem surplus_of_low {c : UInt8} (h : c < 128) (s : Int) : surplus s c = 0 := if_pos h

theorem surplus_bounds {c : UInt8} (h : ¬ c < 128) (s : Int) :
    0 < surplus s c ∧ surplus s c ≤ 256 := by
  rw [surplus, if_neg h]
  split
  · decide
  · decide

theorem sum_surpluses (s : Int) (buf : Bytes) :
    buf.countP (fun c => ¬ c < 128) ≤ (surpluses s buf).sum ∧
      (surpluses s buf).sum ≤ 256 * buf.countP fun c => ¬ c < 128 := by
  induction buf generalizing s with
  | nil => exact ⟨Nat.le_refl 0, Nat.le_refl 0⟩
  | cons c buf ih =>
      have hrest := ih ((s + (c.toNat - surplus s c)) % 65521)
      rw [surpluses, List.sum_cons, List.countP_cons]
      by_cases hlow : c < 128
      · have hsurplus := surplus_of_low hlow s
        simp only [hlow, not_true, decide_false, Bool.false_eq_true, if_false]
        omega
      · have hsurplus := surplus_bounds hlow s
        simp only [hlow, not_false_eq_true, decide_true, if_true]
        omega

/-- A byte below 128 has no surplus, and 255 others are too few to cancel. -/
theorem cancels_iff_of_few {buf : Bytes} (h : buf.countP (fun c => ¬ c < 128) < 256) :
    Cancels buf ↔ ∀ c ∈ buf, c < 128 := by
  have hsum := sum_surpluses 1 buf
  constructor
  · rintro ⟨hdvd, -⟩
    have hnone : buf.countP (fun c => ¬ c < 128) = 0 := by
      have hzero := Nat.eq_zero_of_dvd_of_lt hdvd (by omega)
      omega
    simpa using List.countP_eq_zero.mp hnone
  · intro hlow
    have hnone : buf.countP (fun c => ¬ c < 128) = 0 := by
      refine List.countP_eq_zero.mpr fun c hc => ?_
      simpa using hlow c hc
    have hzero : (surpluses 1 buf).sum = 0 := by omega
    have hweighted : weighted (surpluses 1 buf) = 0 :=
      weighted_eq_zero fun d hd => Nat.eq_zero_of_le_zero (hzero ▸ List.le_sum_of_mem hd)
    rw [Cancels, hzero, hweighted]
    exact ⟨Nat.dvd_zero _, Nat.dvd_zero _⟩

/-! ## A pass -/

/-- The value of a `char`. -/
def signed (c : UInt8) : Int := if c < 128 then c.toNat else c.toNat - 256

theorem lt_iff_toNat {c : UInt8} : c < 128 ↔ c.toNat < 128 := UInt8.lt_iff_toNat_lt

theorem toNat_charToUInt32 (c : UInt8) :
    ((charToUInt32 c).toNat : Int) = signed c % 4294967296 := by
  have hc := c.toNat_lt
  rw [charToUInt32, signed]
  split
  · simp only [UInt8.toNat_toUInt32]
    omega
  · next h =>
      rw [lt_iff_toNat] at h
      simp only [UInt32.toNat_add, UInt8.toNat_toUInt32, UInt32.reduceToNat]
      omega

/-- The sum of a `char` and a first sum wraps when it is negative. -/
theorem wrapped_mod {s : Int} (hs : 0 ≤ s) (hlt : s < 65521) (c : UInt8) :
    (s + signed c) % 4294967296 % 65521 = (s + (c.toNat - surplus s c : Int)) % 65521 := by
  have hc := c.toNat_lt
  rw [surplus, signed]
  split
  · simp only [Nat.cast_zero]
    omega
  · next h =>
      rw [lt_iff_toNat] at h
      split
      · push_cast
        omega
      · push_cast
        omega

/-- The first sum behind a byte. -/
theorem toNat_next {s1 : UInt32} (h : s1.toNat < 65521) (c : UInt8) :
    (((s1 + charToUInt32 c) % 65521).toNat : Int) =
      (s1.toNat + (c.toNat - surplus s1.toNat c : Int)) % 65521 := by
  have hchar := toNat_charToUInt32 c
  have hwrap : (((s1 + charToUInt32 c) % 65521).toNat : Int) =
      (s1.toNat + signed c) % 4294967296 % 65521 := by
    simp only [UInt32.toNat_mod, UInt32.toNat_add, UInt32.reduceToNat]
    omega
  rw [hwrap, wrapped_mod (by omega) (by omega)]

/-! ## The loop -/

/-- The pass of the loop of `adler32`. -/
def adlerPass (s : UInt32 × UInt32) (c : UInt8) : UInt32 × UInt32 :=
  let s1 := (s.1 + charToUInt32 c) % 65521
  (s1, (s.2 + s1) % 65521)

theorem adler32_eq (buf : Bytes) (h : buf.length < UInt32.size) :
    adler32 buf = ((buf.foldl adlerPass (1, 0)).2 <<< 16) ||| (buf.foldl adlerPass (1, 0)).1 := by
  have htake : buf.take (UInt32.ofNat buf.length).toNat = buf := by
    rw [UInt32.toNat_ofNat_of_lt' h, List.take_length]
  rw [adler32]
  dsimp only
  rw [htake]
  rfl

/-- The bytes with their surpluses, modulo 65521. -/
def counts (s : Int) (buf : Bytes) : List (ZMod 65521 × ZMod 65521) :=
  (buf.zip (surpluses s buf)).map fun p => (p.1.toNat, p.2)

theorem map_fst_counts (s : Int) (buf : Bytes) :
    (counts s buf).map Prod.fst = (buf.map UInt8.toNat).map (Nat.castAddMonoidHom (ZMod 65521)) := by
  have hzip : (buf.zip (surpluses s buf)).map Prod.fst = buf :=
    List.map_fst_zip (length_surpluses s buf).ge
  conv_rhs => rw [← hzip]
  simp only [counts, List.map_map]
  rfl

theorem map_snd_counts (s : Int) (buf : Bytes) :
    (counts s buf).map Prod.snd = (surpluses s buf).map (Nat.castAddMonoidHom (ZMod 65521)) := by
  have hzip : (buf.zip (surpluses s buf)).map Prod.snd = surpluses s buf :=
    List.map_snd_zip (length_surpluses s buf).le
  conv_rhs => rw [← hzip]
  simp only [counts, List.map_map]
  rfl

/-- The sums behind a byte. -/
theorem adlerPass_cast {s1 s2 : UInt32} (h1 : s1.toNat < 65521) (h2 : s2.toNat < 65521) (c : UInt8) :
    (adlerPass (s1, s2) c).1.toNat < 65521 ∧ (adlerPass (s1, s2) c).2.toNat < 65521 ∧
      (((adlerPass (s1, s2) c).1.toNat : ZMod 65521), ((adlerPass (s1, s2) c).2.toNat : ZMod 65521)) =
        next ((s1.toNat : ZMod 65521), (s2.toNat : ZMod 65521)) (c.toNat - surplus s1.toNat c) := by
  have hlt1 : ((s1 + charToUInt32 c) % 65521).toNat < 65521 := by
    rw [UInt32.toNat_mod]
    exact Nat.mod_lt _ (by decide)
  have hsum : ((s2 + (s1 + charToUInt32 c) % 65521) % 65521).toNat =
      (s2.toNat + ((s1 + charToUInt32 c) % 65521).toNat) % 65521 := by
    rw [UInt32.toNat_mod, UInt32.toNat_add]
    simp only [UInt32.reduceToNat]
    omega
  have hcast : (((s1 + charToUInt32 c) % 65521).toNat : ZMod 65521) =
      s1.toNat + ((c.toNat : ZMod 65521) - surplus s1.toNat c) := by
    have hdrop := ZMod.intCast_mod (s1.toNat + (c.toNat - surplus s1.toNat c : Int)) 65521
    rw [Nat.cast_ofNat, ← toNat_next h1] at hdrop
    push_cast at hdrop
    exact hdrop
  refine ⟨hlt1, hsum ▸ Nat.mod_lt _ (by decide), Prod.ext hcast ?_⟩
  dsimp only [adlerPass, next]
  rw [hsum, ZMod.natCast_mod, Nat.cast_add, hcast]

/-- The loop has the running sums of the bytes less their surpluses. -/
theorem foldl_adlerPass (s1 s2 : UInt32) (buf : Bytes) (h1 : s1.toNat < 65521)
    (h2 : s2.toNat < 65521) :
    (buf.foldl adlerPass (s1, s2)).1.toNat < 65521 ∧
      (buf.foldl adlerPass (s1, s2)).2.toNat < 65521 ∧
      (((buf.foldl adlerPass (s1, s2)).1.toNat : ZMod 65521),
          ((buf.foldl adlerPass (s1, s2)).2.toNat : ZMod 65521)) =
        sums ((s1.toNat : ZMod 65521), (s2.toNat : ZMod 65521))
          ((counts s1.toNat buf).map fun p => p.1 - p.2) := by
  induction buf generalizing s1 s2 with
  | nil => exact ⟨h1, h2, rfl⟩
  | cons c buf ih =>
      obtain ⟨hlt1, hlt2, hpass⟩ := adlerPass_cast h1 h2 c
      obtain ⟨hrest1, hrest2, hrest⟩ := ih _ _ hlt1 hlt2
      refine ⟨hrest1, hrest2, hrest.trans ?_⟩
      rw [hpass]
      dsimp only [adlerPass]
      rw [toNat_next h1]
      rfl

/-- The running sums of RFC 1950, modulo 65521. -/
theorem sums_cast (l : List Nat) :
    sums ((1 : ZMod 65521), 0) (l.map (Nat.castAddMonoidHom (ZMod 65521))) =
      (((1 + l.sum : Nat) : ZMod 65521), (((firstSums 1 l).sum : Nat) : ZMod 65521)) := by
  have hone : Nat.castAddMonoidHom (ZMod 65521) 1 = 1 := Nat.cast_one
  have hfirst := map_firstSums (Nat.castAddMonoidHom (ZMod 65521)) 1 l
  rw [hone] at hfirst
  rw [sums_eq, ← hfirst, ← map_list_sum, ← map_list_sum, zero_add, Nat.cast_add, Nat.cast_one]
  rfl

/-- Both sums of `adler32`, of which it puts the second one in front. -/
theorem toNat_adler32 (buf : Bytes) (h : buf.length < UInt32.size) :
    ∃ s1 < 65521, ∃ s2 < 65521, (adler32 buf).toNat = s2 * 65536 + s1 ∧
      ((s1 : ZMod 65521), (s2 : ZMod 65521)) =
        sums ((1 : ZMod 65521), 0) ((counts 1 buf).map fun p => p.1 - p.2) := by
  obtain ⟨h1, h2, hsums⟩ := foldl_adlerPass 1 0 buf (by decide) (by decide)
  simp only [UInt32.toNat_one, UInt32.toNat_zero, Nat.cast_one, Nat.cast_zero] at hsums
  refine ⟨_, h1, _, h2, ?_, hsums⟩
  have hshift : ((buf.foldl adlerPass (1, 0)).2 <<< 16).toNat =
      (buf.foldl adlerPass (1, 0)).2.toNat <<< 16 := by
    rw [UInt32.toNat_shiftLeft, Nat.mod_eq_of_lt]
    · rfl
    · simp only [UInt32.reduceToNat, Nat.reduceMod, Nat.shiftLeft_eq]
      omega
  rw [adler32_eq buf h, UInt32.toNat_or, hshift, ← Nat.shiftLeft_add_eq_or_of_lt (by omega),
    Nat.shiftLeft_eq]

/-- The checksum is the one of RFC 1950 exactly when the surpluses of the bytes
from 128 on cancel. -/
theorem adler32_eq_checksum_iff (buf : Bytes) (h : buf.length < UInt32.size) :
    (adler32 buf).toNat = adlerChecksum (buf.map UInt8.toNat) ↔ Cancels buf := by
  obtain ⟨s1, h1, s2, h2, hvalue, hsums⟩ := toNat_adler32 buf h
  have hcancel := sums_sub_eq_iff (1 : ZMod 65521) 0 (counts 1 buf)
  rw [← hsums, map_fst_counts, sums_cast, map_snd_counts, ← map_list_sum, ← map_weighted,
    Prod.mk.injEq, Nat.coe_castAddMonoidHom, ZMod.natCast_eq_natCast_iff',
    ZMod.natCast_eq_natCast_iff', ZMod.natCast_eq_zero_iff, ZMod.natCast_eq_zero_iff,
    Nat.mod_eq_of_lt h1, Nat.mod_eq_of_lt h2] at hcancel
  rw [hvalue, adlerChecksum, Cancels, ← hcancel]
  omega

/-- Of ASCII characters. -/
theorem adler32_eq_checksum_ascii : (adler32 (str "q")).toNat = adlerChecksum [113] :=
  (adler32_eq_checksum_iff (str "q") (by decide)).mpr (by decide)

/-- One byte from 128 on is enough for another checksum. -/
theorem adler32_ne_checksum :
    adler32 [0x80] = 0x00620062 ∧ (adler32 [0x80]).toNat ≠ adlerChecksum [0x80] := by
  decide

end ZimTools.Zimcheck
