import ZimTools.Lib.BitGroups
import ZimTools.Std.Bytes

/-!
# Base64

`base64_encode` of `tools.cpp` takes the bytes one by one into `char_array_3`,
writes four characters whenever it has three bytes, and at the end the one or
two bytes that are left.

`rfc4648` is the alphabet of RFC 4648, and `base64Text` the text it asks for: the
bits of all bytes in groups of six.  The function returns this text, whatever is
in its array at the start (`base64Encode_encodes`).
-/

namespace ZimTools

open BitGroups

/-! ## The program -/

def base64Chars : Bytes :=
  str "ABCDEFGHIJKLMNOPQRSTUVWXYZ" ++ str "abcdefghijklmnopqrstuvwxyz" ++ str "0123456789+/"

/-- The data of `base64_encode`, with the bytes that the pointer is at. -/
structure Base64State where
  bytesToEncode : Bytes
  ret : Bytes
  i : Nat
  charArray3 : Vector UInt8 3

/-- `char_array_4`.  Its elements are computed as `int`, and none is above 63. -/
def charArray4 (a : Vector UInt8 3) : List UInt8 :=
  [(a[0] &&& 0xfc) >>> 2, ((a[0] &&& 0x03) <<< 4) + ((a[1] &&& 0xf0) >>> 4),
    ((a[1] &&& 0x0f) <<< 2) + ((a[2] &&& 0xc0) >>> 6), a[2] &&& 0x3f]

/-- `ret += base64_chars[k]`, for the first `n` elements `k`.  Behind the end of
`base64_chars` there is nothing to append. -/
def appendChars (ret : Bytes) (elements : List UInt8) (n : Nat) : Option Bytes :=
  ((elements.take n).mapM fun k => base64Chars[k.toNat]?).map (ret ++ ·)

/-- A pass of the loop, in which `i` is below 3.  It reads a byte, if there is one. -/
def encodeByte (s : Base64State) : Option Base64State :=
  match s.bytesToEncode with
  | [] => none
  | c :: bytesToEncode =>
      let charArray3 := s.charArray3.setIfInBounds s.i c
      let i := s.i + 1
      if i = 3 then
        (appendChars s.ret (charArray4 charArray3) 4).map fun ret =>
          ⟨bytesToEncode, ret, 0, charArray3⟩
      else some ⟨bytesToEncode, s.ret, i, charArray3⟩

/-- `while (in_len--)` -/
def encodeLoop : Nat → Base64State → Option Base64State
  | 0, s => some s
  | inLen + 1, s => (encodeByte s).bind (encodeLoop inLen)

/-- What is done with the bytes that are left. -/
def encodeRest (s : Base64State) : Option Bytes :=
  if s.i ≠ 0 then
    let charArray3 := (List.range' s.i (3 - s.i)).foldl (fun a j => a.setIfInBounds j 0) s.charArray3
    (appendChars s.ret (charArray4 charArray3) (s.i + 1)).map
      (· ++ List.replicate (3 - s.i) (char '='))
  else some s.ret

/-- `base64_encode`.  `charArray3` is not initialised, and `none` is undefined. -/
def base64Encode (charArray3 : Vector UInt8 3) (bytesToEncode : Bytes) (inLen : UInt32) :
    Option Bytes :=
  (encodeLoop inLen.toNat ⟨bytesToEncode, [], 0, charArray3⟩).bind encodeRest

/-! ## The encoding -/

/-- The alphabet of RFC 4648, with its padding. -/
def rfc4648 : Alphabet UInt8 where
  width := 6
  quantum := 4
  symbol n :=
    if n < 26 then char 'A' + UInt8.ofNat n
    else if n < 52 then char 'a' + UInt8.ofNat (n - 26)
    else if n < 62 then char '0' + UInt8.ofNat (n - 52)
    else if n = 62 then char '+'
    else char '/'
  digit c :=
    if char 'A' ≤ c ∧ c ≤ char 'Z' then some (c.toNat - 65)
    else if char 'a' ≤ c ∧ c ≤ char 'z' then some (c.toNat - 97 + 26)
    else if char '0' ≤ c ∧ c ≤ char '9' then some (c.toNat - 48 + 52)
    else if c = char '+' then some 62
    else if c = char '/' then some 63
    else none
  pad := char '='

def base64Text (bytes : Bytes) : Bytes := rfc4648.encode 8 (bytes.map UInt8.toNat)

def base64Decode (text : Bytes) : Option Bytes :=
  (rfc4648.decode 8 text).map (·.map UInt8.ofNat)

theorem lawful_rfc4648 : rfc4648.Lawful := ⟨by decide, by decide, by decide⟩

theorem getElem?_base64Chars : ∀ n < 64, base64Chars[n]? = some (rfc4648.symbol n) := by decide

/-! ## Groups of three bytes -/

/-- The digits of six bits of three bytes. -/
def sextets (a b c : UInt8) : List Nat :=
  [a.toNat / 4, a.toNat % 4 * 16 + b.toNat / 16, b.toNat % 16 * 4 + c.toNat / 64, c.toNat % 64]

theorem sextets_lt (a b c : UInt8) : ∀ d ∈ sextets a b c, d < 2 ^ 6 := by
  have ha := a.toNat_lt
  have hb := b.toNat_lt
  have hc := c.toNat_lt
  simp only [sextets, List.forall_mem_cons, Nat.reducePow]
  exact ⟨by omega, by omega, by omega, by omega, fun d hd => absurd hd List.not_mem_nil⟩

theorem bits_middle (a b : Nat) (hb : b < 256) :
    bits 2 (a % 4) ++ bits 4 (b / 16) = bits 6 (a % 4 * 16 + b / 16) :=
  (bits_append 2 (a % 4) (b := 4) (by omega)).symm

theorem bits_middle' (b c : Nat) (hc : c < 256) :
    bits 4 (b % 16) ++ bits 2 (c / 64) = bits 6 (b % 16 * 4 + c / 64) :=
  (bits_append 4 (b % 16) (b := 2) (by omega)).symm

theorem stream_three (a b c : UInt8) (ds : List Nat) :
    stream 8 (a.toNat :: b.toNat :: c.toNat :: ds) = stream 6 (sextets a b c) ++ stream 8 ds := by
  simp only [sextets, stream, List.flatMap_cons, List.flatMap_nil,
    ← bits_middle _ _ b.toNat_lt, ← bits_middle' _ _ c.toNat_lt, bits_split 6 2 a.toNat,
    bits_split 4 4 b.toNat, bits_split 2 6 c.toNat, Nat.reducePow, List.append_assoc,
    List.nil_append]

/-- One byte is filled up with four zeros. -/
theorem fill_one (a : UInt8) : fill 6 (stream 8 [a.toNat]) = stream 6 ((sextets a 0 0).take 2) := by
  have hfill : fill 6 (stream 8 [a.toNat]) = bits 8 a.toNat ++ bits 4 0 := by
    have hmissing : missing 6 (8 * 1) = 4 := by decide
    rw [fill, length_stream, List.length_singleton, hmissing, bits_zero, stream,
      List.flatMap_singleton]
  have hmiddle := bits_middle a.toNat 0 (by decide)
  rw [hfill, bits_split 6 2 a.toNat, List.append_assoc]
  simp only [sextets, List.take_succ_cons, List.take_zero, stream, List.flatMap_cons,
    List.flatMap_nil, List.append_nil]
  exact congrArg _ hmiddle

/-- And two bytes with two zeros. -/
theorem fill_two (a b : UInt8) :
    fill 6 (stream 8 [a.toNat, b.toNat]) = stream 6 ((sextets a b 0).take 3) := by
  have hfill : fill 6 (stream 8 [a.toNat, b.toNat]) =
      bits 8 a.toNat ++ (bits 8 b.toNat ++ bits 2 0) := by
    have hmissing : missing 6 (8 * 2) = 2 := by decide
    rw [fill, length_stream, List.length_cons, List.length_singleton, hmissing, bits_zero, stream,
      List.flatMap_cons, List.flatMap_singleton, List.append_assoc]
  have hmiddle := bits_middle a.toNat b.toNat b.toNat_lt
  have hmiddle' := bits_middle' b.toNat 0 (by decide)
  rw [hfill, bits_split 6 2 a.toNat, bits_split 4 4 b.toNat]
  simp only [sextets, List.take_succ_cons, List.take_zero, stream, List.flatMap_cons,
    List.flatMap_nil, List.append_nil, ← hmiddle, List.append_assoc]
  exact congrArg _ (congrArg _ (congrArg _ hmiddle'))

/-! ## The text -/

theorem base64Text_nil : base64Text [] = [] := rfl

theorem base64Text_one (a : UInt8) :
    base64Text [a] = ((sextets a 0 0).take 2).map rfc4648.symbol ++ str "==" := by
  have hregroup : regroup 8 6 [a.toNat] = (sextets a 0 0).take 2 :=
    regroup_of_fill (by decide) (fill_one a)
      fun d hd => sextets_lt a 0 0 d (List.mem_of_mem_take hd)
  exact congrArg (fun ds : List Nat => ds.map rfc4648.symbol ++
    rfc4648.padding (ds.map rfc4648.symbol).length) hregroup

theorem base64Text_two (a b : UInt8) :
    base64Text [a, b] = ((sextets a b 0).take 3).map rfc4648.symbol ++ str "=" := by
  have hregroup : regroup 8 6 [a.toNat, b.toNat] = (sextets a b 0).take 3 :=
    regroup_of_fill (by decide) (fill_two a b)
      fun d hd => sextets_lt a b 0 d (List.mem_of_mem_take hd)
  exact congrArg (fun ds : List Nat => ds.map rfc4648.symbol ++
    rfc4648.padding (ds.map rfc4648.symbol).length) hregroup

theorem base64Text_three (a b c : UInt8) (bytes : Bytes) :
    base64Text (a :: b :: c :: bytes) =
      (sextets a b c).map rfc4648.symbol ++ base64Text bytes := by
  have hregroup : regroup 8 6 ((a :: b :: c :: bytes).map UInt8.toNat) =
      sextets a b c ++ regroup 8 6 (bytes.map UInt8.toNat) :=
    regroup_of_stream (by decide) (stream_three a b c (bytes.map UInt8.toNat)) (sextets_lt a b c)
  rw [base64Text, Alphabet.encode_append hregroup (Nat.dvd_refl 4)]
  rfl

/-! ## The loop -/

theorem toNat_low {c m : UInt8} {k : Nat} (hm : m.toNat = 2 ^ k - 1) :
    (c &&& m).toNat = c.toNat % 2 ^ k := by
  rw [UInt8.toNat_and, hm, Nat.and_two_pow_sub_one_eq_mod]

theorem toNat_high {c m s : UInt8} (hs : s < 8) (hm : m.toNat >>> s.toNat = 2 ^ (8 - s.toNat) - 1) :
    ((c &&& m) >>> s).toNat = c.toNat / 2 ^ s.toNat := by
  have hlt : s.toNat < 8 := UInt8.lt_iff_toNat_lt.mp hs
  have hc : c.toNat / 2 ^ s.toNat < 2 ^ (8 - s.toNat) := by
    rw [Nat.div_lt_iff_lt_mul (Nat.two_pow_pos _), ← Nat.pow_add, Nat.sub_add_cancel hlt.le]
    exact c.toNat_lt
  rw [UInt8.toNat_shiftRight, Nat.mod_eq_of_lt hlt, UInt8.toNat_and, Nat.shiftRight_and_distrib, hm,
    Nat.and_two_pow_sub_one_eq_mod, Nat.shiftRight_eq_div_pow, Nat.mod_eq_of_lt hc]

/-- The low bits of a byte in front of the high bits of the next one. -/
theorem toNat_joined {x y s : UInt8} {a b : Nat} (hx : x.toNat = a) (hy : y.toNat = b)
    (hs : s < 8) (h : a * 2 ^ s.toNat + b < 256) :
    ((x <<< s) + y).toNat = a * 2 ^ s.toNat + b := by
  have hlt : s.toNat < 8 := UInt8.lt_iff_toNat_lt.mp hs
  rw [UInt8.toNat_add, UInt8.toNat_shiftLeft, Nat.mod_eq_of_lt hlt, hx, hy, Nat.shiftLeft_eq,
    Nat.mod_eq_of_lt (show a * 2 ^ s.toNat < 2 ^ 8 by omega), Nat.mod_eq_of_lt h]

/-- `char_array_4` has the digits of `char_array_3`. -/
theorem map_toNat_charArray4 (a b c : UInt8) :
    (charArray4 #v[a, b, c]).map UInt8.toNat = sextets a b c := by
  have hb := b.toNat_lt
  have hc := c.toNat_lt
  have hfirst : ((a &&& 0xfc) >>> 2).toNat = a.toNat / 4 := toNat_high (by decide) (by decide)
  have hsecond : (((a &&& 0x03) <<< 4) + ((b &&& 0xf0) >>> 4)).toNat =
      a.toNat % 4 * 16 + b.toNat / 16 :=
    toNat_joined (toNat_low (k := 2) (by decide)) (toNat_high (by decide) (by decide)) (by decide)
      (by simp only [UInt8.reduceToNat, Nat.reducePow]; omega)
  have hthird : (((b &&& 0x0f) <<< 2) + ((c &&& 0xc0) >>> 6)).toNat =
      b.toNat % 16 * 4 + c.toNat / 64 :=
    toNat_joined (toNat_low (k := 4) (by decide)) (toNat_high (by decide) (by decide)) (by decide)
      (by simp only [UInt8.reduceToNat, Nat.reducePow]; omega)
  have hfourth : (c &&& 0x3f).toNat = c.toNat % 64 := toNat_low (k := 6) (by decide)
  change [((a &&& 0xfc) >>> 2).toNat, (((a &&& 0x03) <<< 4) + ((b &&& 0xf0) >>> 4)).toNat,
    (((b &&& 0x0f) <<< 2) + ((c &&& 0xc0) >>> 6)).toNat, (c &&& 0x3f).toNat] = sextets a b c
  rw [hfirst, hsecond, hthird, hfourth, sextets]

/-- The elements are in `base64_chars`. -/
theorem appendChars_eq (ret : Bytes) (a b c : UInt8) (n : Nat) :
    appendChars ret (charArray4 #v[a, b, c]) n =
      some (ret ++ ((sextets a b c).take n).map rfc4648.symbol) := by
  have hchars : ((charArray4 #v[a, b, c]).take n).mapM (fun k => base64Chars[k.toNat]?) =
      some (((charArray4 #v[a, b, c]).take n).map (rfc4648.symbol ·.toNat)) := by
    refine MapM.eq_some_map fun k hk => getElem?_base64Chars k.toNat ?_
    refine sextets_lt a b c k.toNat ?_
    rw [← map_toNat_charArray4]
    exact List.mem_map_of_mem (List.mem_of_mem_take hk)
  rw [appendChars, hchars, Option.map_some, ← map_toNat_charArray4, ← List.map_take, List.map_map]
  rfl

theorem charArray3_eta (v : Vector UInt8 3) : ∃ x y z, v = #v[x, y, z] := by
  refine ⟨v[0], v[1], v[2], Vector.ext fun i hi => ?_⟩
  match i with
  | 0 => rfl
  | 1 => rfl
  | 2 => rfl

/-- Three passes write a group. -/
theorem encodeLoop_three (n : Nat) (a b c : UInt8) (bytes ret : Bytes) (v : Vector UInt8 3) :
    encodeLoop (n + 3) ⟨a :: b :: c :: bytes, ret, 0, v⟩ =
      encodeLoop n ⟨bytes, ret ++ (sextets a b c).map rfc4648.symbol, 0, #v[a, b, c]⟩ := by
  obtain ⟨x, y, z, rfl⟩ := charArray3_eta v
  have happend := appendChars_eq ret a b c 4
  have hthird : encodeByte ⟨c :: bytes, ret, 2, #v[a, b, z]⟩ =
      some ⟨bytes, ret ++ (sextets a b c).map rfc4648.symbol, 0, #v[a, b, c]⟩ :=
    congrArg (Option.map fun ret => (⟨bytes, ret, 0, #v[a, b, c]⟩ : Base64State)) happend
  change (encodeByte ⟨c :: bytes, ret, 2, #v[a, b, z]⟩).bind (encodeLoop n) = _
  rw [hthird]
  rfl

/-- From the start of a group, the loop and what comes behind it write the text. -/
theorem encodeLoop_encodes : ∀ (bytes ret : Bytes) (v : Vector UInt8 3),
    (encodeLoop bytes.length ⟨bytes, ret, 0, v⟩).bind encodeRest = some (ret ++ base64Text bytes)
  | [], ret, v => by
      rw [base64Text_nil, List.append_nil]
      rfl
  | [a], ret, v => by
      obtain ⟨x, y, z, rfl⟩ := charArray3_eta v
      have happend := appendChars_eq ret a 0 0 2
      change (appendChars ret (charArray4 #v[a, 0, 0]) 2).map (· ++ str "==") = _
      rw [happend, base64Text_one, Option.map_some, List.append_assoc]
  | [a, b], ret, v => by
      obtain ⟨x, y, z, rfl⟩ := charArray3_eta v
      have happend := appendChars_eq ret a b 0 3
      change (appendChars ret (charArray4 #v[a, b, 0]) 3).map (· ++ str "=") = _
      rw [happend, base64Text_two, Option.map_some, List.append_assoc]
  | a :: b :: c :: bytes, ret, v => by
      rw [List.length_cons, List.length_cons, List.length_cons, encodeLoop_three,
        encodeLoop_encodes bytes, base64Text_three, List.append_assoc]

theorem base64Decode_base64Text (bytes : Bytes) : base64Decode (base64Text bytes) = some bytes := by
  have hlt : ∀ d ∈ bytes.map UInt8.toNat, d < 2 ^ 8 := by
    intro d hd
    obtain ⟨c, -, rfl⟩ := List.mem_map.mp hd
    exact c.toNat_lt
  have hwidth : rfc4648.width ≤ 8 := by decide
  rw [base64Decode, base64Text, Alphabet.decode_encode lawful_rfc4648 hwidth hlt, Option.map_some,
    List.map_map]
  exact congrArg some ((List.map_congr_left fun c _ => UInt8.ofNat_toNat).trans (List.map_id bytes))

theorem length_base64Text : ∀ bytes : Bytes,
    (base64Text bytes).length = 4 * ((bytes.length + 2) / 3)
  | [] => rfl
  | [a] => by
      rw [base64Text_one]
      simp [sextets, str]
  | [a, b] => by
      rw [base64Text_two]
      simp [sextets, str]
  | a :: b :: c :: bytes => by
      rw [base64Text_three, List.length_append, List.length_map, length_base64Text bytes]
      simp only [sextets, List.length_cons, List.length_nil]
      omega

/-- Whatever is in the array at the start, the encoding of RFC 4648 is returned,
and it tells the bytes. -/
theorem base64Encode_encodes (charArray3 : Vector UInt8 3) (bytes : Bytes)
    (h : bytes.length < UInt32.size) :
    ∃ text, base64Encode charArray3 bytes (UInt32.ofNat bytes.length) = some text ∧
      text = base64Text bytes ∧ base64Decode text = some bytes ∧
      text.length = 4 * ((bytes.length + 2) / 3) ∧
      ∀ charArray3' (bytes' : Bytes), bytes'.length < UInt32.size →
        base64Encode charArray3' bytes' (UInt32.ofNat bytes'.length) = some text →
          bytes' = bytes := by
  have hencode (charArray3 : Vector UInt8 3) (bytes : Bytes) (h : bytes.length < UInt32.size) :
      base64Encode charArray3 bytes (UInt32.ofNat bytes.length) = some (base64Text bytes) := by
    rw [base64Encode, UInt32.toNat_ofNat_of_lt' h, encodeLoop_encodes, List.nil_append]
  refine ⟨base64Text bytes, hencode charArray3 bytes h, rfl, base64Decode_base64Text bytes,
    length_base64Text bytes, fun charArray3' bytes' h' heq => ?_⟩
  rw [hencode charArray3' bytes' h'] at heq
  have hdecode := base64Decode_base64Text bytes'
  rw [Option.some.inj heq, base64Decode_base64Text] at hdecode
  exact (Option.some.inj hdecode).symm

/-- The bytes `ff 00 7a`, and an array that is not zero. -/
theorem base64Encode_sample :
    ∃ text, base64Encode #v[1, 2, 3] [0xff, 0x00, 0x7a] 3 = some text ∧
      text = base64Text [0xff, 0x00, 0x7a] ∧ base64Decode text = some [0xff, 0x00, 0x7a] ∧
      text.length = 4 ∧
      ∀ charArray3' (bytes' : Bytes), bytes'.length < UInt32.size →
        base64Encode charArray3' bytes' (UInt32.ofNat bytes'.length) = some text →
          bytes' = [0xff, 0x00, 0x7a] :=
  base64Encode_encodes #v[1, 2, 3] [0xff, 0x00, 0x7a] (by decide)

example : base64Encode #v[1, 2, 3] [0xff, 0x00, 0x7a] 3 = some (str "/wB6") := by decide

end ZimTools
