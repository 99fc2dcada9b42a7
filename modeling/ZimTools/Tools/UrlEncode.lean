import ZimTools.Tools.DecodeUrl
import ZimTools.Tools.RelativePath

/-!
# Encoded references

`urlEncode` writes the bytes that a reference cannot hold as escapes.  A byte
below 16 is one digit in a field of two, which is filled with a space and not
with a zero, so it is no escape and `decodeUrl` leaves it as it is written.
`decodeUrl_urlEncode` says what every text is read back as.
-/

namespace ZimTools

open Bytes

/-! ## Digits -/

theorem isxdigit_upperHexDigit : ∀ n < 16, isxdigit (upperHexDigit n) = true := by decide

theorem hexDigitValue_upperHexDigit : ∀ n < 16, hexDigitValue (upperHexDigit n) = n := by decide

theorem needsEscape_upperHexDigit : ∀ n < 16, needsEscape (upperHexDigit n) true = false := by
  decide

/-- The two digits of a byte. -/
theorem charFromHex_digits (c : UInt8) :
    charFromHex [upperHexDigit (c.toNat / 16), upperHexDigit (c.toNat % 16)] = c := by
  have hc : c.toNat < 256 := c.toNat_lt
  have hhigh := hexDigitValue_upperHexDigit (c.toNat / 16) (by omega)
  have hlow := hexDigitValue_upperHexDigit (c.toNat % 16) (Nat.mod_lt _ (by decide))
  rw [charFromHex, List.foldl_cons, List.foldl_cons, List.foldl_nil, hhigh, hlow, Nat.mul_zero,
    Nat.zero_add, Nat.div_add_mod, UInt8.ofNat_toNat]

/-! ## Reading back -/

/-- What an escaped byte is read back as. -/
def escapeReadBack (c : UInt8) : Bytes :=
  if c.toNat < 16 then [char '%', char ' ', upperHexDigit c.toNat] else [c]

/-- What a byte of a text is read back as. -/
def readBack (encodeReserved : Bool) (c : UInt8) : Bytes :=
  if needsEscape c encodeReserved then escapeReadBack c else [c]

theorem percentDecode_escape (c : UInt8) (rest : Bytes) :
    percentDecode (char '%' :: hexField c ++ rest) = escapeReadBack c ++ percentDecode rest := by
  by_cases hc : c.toNat < 16
  · have hdigit : upperHexDigit c.toNat ≠ char '%' := by
      intro h
      exact absurd (isxdigit_upperHexDigit c.toNat hc) (h ▸ by decide)
    rw [hexField, if_pos hc, escapeReadBack, if_pos hc]
    change percentDecode (char '%' :: char ' ' :: upperHexDigit c.toNat :: rest) = _
    rw [percentDecode, if_neg (fun h => absurd h.2.1 (by decide)),
      percentDecode_cons_of_ne (by decide), percentDecode_cons_of_ne hdigit]
    rfl
  · have hlt : c.toNat < 256 := c.toNat_lt
    have hhigh := isxdigit_upperHexDigit (c.toNat / 16) (by omega)
    have hlow := isxdigit_upperHexDigit (c.toNat % 16) (Nat.mod_lt _ (by decide))
    rw [hexField, if_neg hc, escapeReadBack, if_neg hc]
    change percentDecode (char '%' :: upperHexDigit (c.toNat / 16) ::
      upperHexDigit (c.toNat % 16) :: rest) = _
    rw [percentDecode, if_pos ⟨rfl, hhigh, hlow⟩, charFromHex_digits]
    rfl

theorem urlEncode_cons (c : UInt8) (s : Bytes) (encodeReserved : Bool) :
    urlEncode (c :: s) encodeReserved =
      (if needsEscape c encodeReserved then char '%' :: hexField c else [c]) ++
        urlEncode s encodeReserved := by
  rw [urlEncode, List.flatMap_cons]
  rfl

theorem percentDecode_urlEncode (s : Bytes) (encodeReserved : Bool) :
    percentDecode (urlEncode s encodeReserved) = s.flatMap (readBack encodeReserved) := by
  induction s with
  | nil => rfl
  | cons c s ih =>
      rw [urlEncode_cons, List.flatMap_cons, readBack]
      cases hescape : needsEscape c encodeReserved with
      | true =>
          rw [if_pos rfl, if_pos rfl, percentDecode_escape, ih]
      | false =>
          have hc : c ≠ char '%' := by
            rintro rfl
            cases encodeReserved with
            | true => exact absurd hescape (by decide)
            | false => exact absurd hescape (by decide)
          rw [if_neg (by decide), if_neg (by decide)]
          change percentDecode (c :: urlEncode s encodeReserved) = _
          rw [percentDecode_cons_of_ne hc, ih]
          rfl

theorem decodeUrl_urlEncode (s : Bytes) (encodeReserved : Bool) :
    decodeUrl (urlEncode s encodeReserved) = s.flatMap (readBack encodeReserved) := by
  rw [decodeUrl_eq_percentDecode, percentDecode_urlEncode]

theorem needsEscape_lt : ∀ n < 16, needsEscape (UInt8.ofNat n) true = true ∧
    (needsEscape (UInt8.ofNat n) false = true ↔ n ≠ 0) := by
  decide

/-- Of the bytes with one digit only NUL is ever left as it is, where it is taken
for a reserved byte. -/
theorem needsEscape_of_lt {c : UInt8} (hc : c.toNat < 16) (encodeReserved : Bool) :
    needsEscape c encodeReserved = true ↔ ¬ (c = 0 ∧ encodeReserved = false) := by
  have hzero : c = 0 ↔ c.toNat = 0 := by
    rw [← UInt8.toNat_inj]
    rfl
  have hescape := needsEscape_lt c.toNat hc
  rw [UInt8.ofNat_toNat] at hescape
  cases encodeReserved with
  | true => simp [hescape.1]
  | false => simp [hescape.2, hzero]

theorem readBack_of_lt {c : UInt8} (hc : c.toNat < 16) :
    readBack true c = [char '%', char ' ', upperHexDigit c.toNat] := by
  rw [readBack, if_pos ((needsEscape_of_lt hc true).mpr (by simp)), escapeReadBack, if_pos hc]

theorem readBack_of_le {c : UInt8} (hc : 16 ≤ c.toNat) (encodeReserved : Bool) :
    readBack encodeReserved c = [c] := by
  rw [readBack, escapeReadBack, if_neg (Nat.not_lt_of_le hc)]
  split <;> rfl

theorem length_le_readBack (s : Bytes) : s.length ≤ (s.flatMap (readBack true)).length := by
  induction s with
  | nil => exact Nat.le_refl 0
  | cons c s ih =>
      have hc : 1 ≤ (readBack true c).length := by
        by_cases hlt : c.toNat < 16
        · rw [readBack_of_lt hlt]
          exact Nat.le_add_left 1 2
        · rw [readBack_of_le (Nat.le_of_not_lt hlt)]
          exact Nat.le_refl 1
      rw [List.flatMap_cons, List.length_append, List.length_cons]
      omega

/-- A text is read back as it is exactly when its escapes have two digits. -/
theorem flatMap_readBack_iff {s : Bytes} {encodeReserved : Bool} :
    s.flatMap (readBack encodeReserved) = s ↔
      ∀ c ∈ s, c.toNat < 16 → c = 0 ∧ encodeReserved = false := by
  induction s with
  | nil => simp
  | cons c s ih =>
      rw [List.flatMap_cons, List.forall_mem_cons, ← ih]
      cases hescape : needsEscape c encodeReserved && decide (c.toNat < 16) with
      | true =>
          rw [Bool.and_eq_true, decide_eq_true_iff] at hescape
          have hread : readBack encodeReserved c = [char '%', char ' ', upperHexDigit c.toNat] := by
            rw [readBack, if_pos hescape.1, escapeReadBack, if_pos hescape.2]
          rw [hread]
          constructor
          · intro h
            have hhead : char '%' = c := (List.cons.inj h).1
            subst hhead
            exact absurd hescape.2 (by decide)
          · intro h
            exact absurd (h.1 hescape.2) ((needsEscape_of_lt hescape.2 encodeReserved).mp hescape.1)
      | false =>
          rw [Bool.and_eq_false_iff, decide_eq_false_iff_not] at hescape
          have hread : readBack encodeReserved c = [c] := by
            rcases hescape with hplain | hle
            · rw [readBack, hplain, if_neg Bool.false_ne_true]
            · exact readBack_of_le (Nat.le_of_not_lt hle) encodeReserved
          rw [hread]
          constructor
          · intro h
            refine ⟨fun hlt => ?_, (List.cons.inj h).2⟩
            have hplain := hescape.resolve_right (not_not.mpr hlt)
            rw [← Bool.not_eq_true, needsEscape_of_lt hlt] at hplain
            exact not_not.mp hplain
          · intro h
            exact congrArg (List.cons c) h.2

theorem readBack_eq_self_iff {s : Bytes} :
    s.flatMap (readBack true) = s ↔ ∀ c ∈ s, 16 ≤ c.toNat := by
  rw [flatMap_readBack_iff]
  simp

/-- Another text is read back with a space. -/
theorem readBack_eq_self_or (s : Bytes) :
    s.flatMap (readBack true) = s ∨ char ' ' ∈ s.flatMap (readBack true) := by
  by_cases h : ∀ c ∈ s, 16 ≤ c.toNat
  · exact Or.inl (readBack_eq_self_iff.mpr h)
  · push Not at h
    obtain ⟨c, hc, hlt⟩ := h
    refine Or.inr (List.mem_flatMap.mpr ⟨c, hc, ?_⟩)
    rw [readBack_of_lt hlt]
    exact List.mem_cons_of_mem _ (List.mem_cons_self ..)

/-! ## The bytes of an encoded text -/

/-- With the reserved bytes encoded, what is left are bytes that need no escape,
the signs of the escapes and the spaces in them. -/
theorem mem_urlEncode {s : Bytes} {x : UInt8} (h : x ∈ urlEncode s true) :
    needsEscape x true = false ∨ x = char '%' ∨ x = char ' ' := by
  obtain ⟨c, -, hx⟩ := List.mem_flatMap.mp h
  cases hescape : needsEscape c true with
  | false =>
      rw [hescape] at hx
      rw [List.mem_singleton.mp hx]
      exact Or.inl hescape
  | true =>
      rw [hescape, if_pos rfl] at hx
      rcases List.mem_cons.mp hx with rfl | hx
      · exact Or.inr (Or.inl rfl)
      · have hlt : c.toNat < 256 := c.toNat_lt
        rw [hexField] at hx
        split at hx
        · next hc =>
            rcases List.mem_cons.mp hx with rfl | hx
            · exact Or.inr (Or.inr rfl)
            · rw [List.mem_singleton.mp hx]
              exact Or.inl (needsEscape_upperHexDigit _ hc)
        · rcases List.mem_cons.mp hx with rfl | hx
          · exact Or.inl (needsEscape_upperHexDigit _ (by omega))
          · rw [List.mem_singleton.mp hx]
            exact Or.inl (needsEscape_upperHexDigit _ (by omega))

theorem notMem_urlEncode {x : UInt8} (hescape : needsEscape x true = true) (hpercent : x ≠ char '%')
    (hspace : x ≠ char ' ') (s : Bytes) : x ∉ urlEncode s true := by
  intro hmem
  rcases mem_urlEncode hmem with h | h | h
  · rw [h] at hescape
    exact absurd hescape (by decide)
  · exact hpercent h
  · exact hspace h

theorem mem_hexField {c x : UInt8} (h : x ∈ hexField c) : x = char ' ' ∨ isxdigit x = true := by
  have hlt : c.toNat < 256 := c.toNat_lt
  rw [hexField] at h
  split at h
  · next hc =>
      rcases List.mem_pair.mp h with rfl | rfl
      · exact Or.inl rfl
      · exact Or.inr (isxdigit_upperHexDigit _ hc)
  · rcases List.mem_pair.mp h with rfl | rfl
    · exact Or.inr (isxdigit_upperHexDigit _ (by omega))
    · exact Or.inr (isxdigit_upperHexDigit _ (by omega))

theorem urlEncode_ne_nil {s : Bytes} (h : s ≠ []) : urlEncode s true ≠ [] := by
  cases s with
  | nil => exact absurd rfl h
  | cons c s =>
      rw [urlEncode_cons]
      split <;> exact fun heq => nomatch heq

end ZimTools
