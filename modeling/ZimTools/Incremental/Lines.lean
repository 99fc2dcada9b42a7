import Mathlib.Algebra.GroupWithZero.Nat
import ZimTools.Incremental.Archive
import ZimTools.Std.Decimal

/-!
# Lists as text

`zimdiff` writes a list with a newline behind each of its lines, and `zimpatch`
reads it back byte by byte.  The reader counts the bytes with an
`unsigned int`.  It reads every text of fewer than 2^32 bytes, and never comes to
the end of a longer one (`returns_scanLines`).
-/

namespace ZimTools.Incremental

open Loop

/-- The lines of a list, each with its newline. -/
def unlines (lines : List Bytes) : Bytes := lines.flatMap (· ++ str "\n")

variable {τ : Type}

/-- What is done for a byte: a newline ends the line that was collected in
`temp`. -/
def scanChar (onLine : τ → Bytes → Except Fault τ) (state : Bytes × τ) (c : UInt8) :
    Except Fault (Bytes × τ) :=
  if c = char '\n' then do
    let s ← onLine state.2 state.1
    pure ([], s)
  else pure (state.1 ++ [c], state.2)

/-- `for (unsigned int i = 0; i < text.size(); i++)`, with `onLine` for what is
done with a line. -/
def scanLines (text : Bytes) (onLine : τ → Bytes → Except Fault τ) (fuel : Nat) (s : τ) :
    Program τ := do
  let state ← counted (UInt32.size) text.length
    (fun i state => text[i]?.elim (.error .undefined) (scanChar onLine state)) fuel ([], s)
  pure state.2

theorem unlines_cons (line : Bytes) (lines : List Bytes) :
    unlines (line :: lines) = line ++ char '\n' :: unlines lines := by
  rw [unlines, List.flatMap_cons, List.append_assoc]
  rfl

theorem length_unlines (lines : List Bytes) :
    (unlines lines).length = (lines.map (·.length + 1)).sum := by
  induction lines with
  | nil => rfl
  | cons line lines ih =>
      rw [unlines_cons, List.length_append, List.length_cons, ih, List.map_cons, List.sum_cons]
      omega

/-! ## The lines of a text -/

/-- The lines that end in a text, with `temp` in front of the first. -/
def linesFrom : Bytes → Bytes → List Bytes
  | _, [] => []
  | temp, c :: text =>
      if c = char '\n' then temp :: linesFrom [] text else linesFrom (temp ++ [c]) text

/-- What is behind the last newline is not a line. -/
def textLines (text : Bytes) : List Bytes := linesFrom [] text

theorem length_linesFrom (temp text : Bytes) :
    (linesFrom temp text).length = text.count (char '\n') := by
  induction text generalizing temp with
  | nil => rfl
  | cons c text ih =>
      rw [linesFrom]
      split_ifs with hc
      · rw [List.length_cons, ih, hc, List.count_cons_self]
      · rw [ih, List.count_cons_of_ne hc]

theorem length_textLines (text : Bytes) : (textLines text).length = text.count (char '\n') :=
  length_linesFrom [] text

/-- The bytes of a line are collected, and its newline ends it. -/
theorem linesFrom_line {line rest : Bytes} (h : char '\n' ∉ line) (temp : Bytes) :
    linesFrom temp (line ++ char '\n' :: rest) = (temp ++ line) :: linesFrom [] rest := by
  induction line generalizing temp with
  | nil => rw [List.nil_append, linesFrom, if_pos rfl, List.append_nil]
  | cons c line ih =>
      rw [List.mem_cons, not_or] at h
      rw [List.cons_append, linesFrom, if_neg (fun hc => h.1 hc.symm), ih h.2, List.append_assoc]
      rfl

theorem textLines_unlines {lines : List Bytes} (h : ∀ line ∈ lines, char '\n' ∉ line) :
    textLines (unlines lines) = lines := by
  induction lines with
  | nil => rfl
  | cons line lines ih =>
      rw [List.forall_mem_cons] at h
      rw [unlines_cons, textLines, linesFrom_line h.1, List.nil_append]
      exact congrArg _ (ih h.2)

variable {onLine : τ → Bytes → Except Fault τ}

/-- The reader hands over the lines of the text. -/
theorem foldlM_scanChar (text temp : Bytes) (s : τ) :
    (text.foldlM (scanChar onLine) (temp, s)).map Prod.snd =
      (linesFrom temp text).foldlM onLine s := by
  induction text generalizing temp s with
  | nil => rfl
  | cons c text ih =>
      rw [List.foldlM_cons, scanChar, linesFrom]
      split_ifs with hc
      · rw [List.foldlM_cons]
        cases onLine s temp with
        | error e => rfl
        | ok s' => exact ih [] s'
      · exact ih (temp ++ [c]) s

theorem foldlM_range'_scanChar (text : Bytes) (s : τ) :
    ((List.range' 0 text.length).foldlM
        (fun state i => text[i]?.elim (.error .undefined) (scanChar onLine state))
        ([], s)).map Prod.snd = (textLines text).foldlM onLine s := by
  have hfold := foldlM_range'_getElem? (f := scanChar onLine) (e := .error .undefined) []
    text ([], s)
  rw [List.nil_append, List.length_nil] at hfold
  rw [hfold, foldlM_scanChar, textLines]

/-- A text is read when it has fewer than 2^32 bytes. -/
theorem returns_scanText {text : Bytes} {fuel : Nat} {s r : τ} :
    Returns (scanLines text onLine fuel s) r ↔
      text.length < UInt32.size ∧ text.length < fuel ∧
        (textLines text).foldlM onLine s = .ok r := by
  simp only [scanLines, returns_bind, returns_counted (by decide : 0 < UInt32.size), returns_pure]
  rw [← foldlM_range'_scanChar]
  cases (List.range' 0 text.length).foldlM
      (fun state i => text[i]?.elim (.error .undefined) (scanChar onLine state)) ([], s) with
  | error e => simp [Except.map]
  | ok state =>
      simp only [Except.map, Except.ok.injEq]
      constructor
      · rintro ⟨_, ⟨hlength, hfuel, rfl⟩, rfl⟩
        exact ⟨hlength, hfuel, rfl⟩
      · rintro ⟨hlength, hfuel, rfl⟩
        exact ⟨_, ⟨hlength, hfuel, rfl⟩, rfl⟩

/-- A list is read back when its text has fewer than 2^32 bytes. -/
theorem returns_scanLines {lines : List Bytes} (h : ∀ line ∈ lines, char '\n' ∉ line)
    {fuel : Nat} {s r : τ} :
    Returns (scanLines (unlines lines) onLine fuel s) r ↔
      (unlines lines).length < UInt32.size ∧ (unlines lines).length < fuel ∧
        lines.foldlM onLine s = .ok r := by
  rw [returns_scanText, textLines_unlines h]

/-! ## Failures

A text of 2^32 bytes or more is read again and again from its start, so that its
lines never come to an end when there are any. -/

theorem fails_scanLines_iff {text : Bytes} {fuel : Nat} {s : τ} {e : Fault} :
    Fails (scanLines text onLine fuel s) e ↔
      Fails (counted UInt32.size text.length
        (fun i state => text[i]?.elim (.error .undefined) (scanChar onLine state)) fuel ([], s))
        e :=
  fails_bind_pure

theorem fails_scanLines {text : Bytes} (h : text.length < UInt32.size) {s : τ} {e : Fault} :
    (∃ fuel, Fails (scanLines text onLine fuel s) e) ↔
      (textLines text).foldlM onLine s = .error e := by
  simp only [fails_scanLines_iff, fails_counted h]
  rw [← foldlM_range'_scanChar]
  cases (List.range' 0 text.length).foldlM
      (fun state i => text[i]?.elim (.error .undefined) (scanChar onLine state)) ([], s) <;>
    simp [Except.map]

/-- Without a newline nothing is handed over that could fail. -/
theorem not_fails_scanLines {text : Bytes}
    (h : char '\n' ∈ text.take UInt32.size → ∀ s line, ∃ s', onLine s line = .ok s')
    {fuel : Nat} {s : τ} {e : Fault} : ¬ Fails (scanLines text onLine fuel s) e := by
  rw [fails_scanLines_iff]
  refine not_fails_counted (by decide) fun i hi hlength state => ?_
  rw [List.getElem?_eq_getElem hlength, Option.elim_some, scanChar]
  split_ifs with hc
  · have hmem : char '\n' ∈ text.take UInt32.size :=
      List.mem_take_iff_getElem.mpr ⟨i, Nat.lt_min.mpr ⟨hi, hlength⟩, hc⟩
    obtain ⟨s', hs'⟩ := h hmem state.2 state.1
    exact ⟨([], s'), by rw [hs']; rfl⟩
  · exact ⟨_, rfl⟩

theorem scanChar_ok {state state' : Bytes × τ} {c : UInt8}
    (h : scanChar onLine state c = .ok state') :
    if c = char '\n' then onLine state.2 state.1 = .ok state'.2 else state'.2 = state.2 := by
  rw [scanChar] at h
  split_ifs at h ⊢ with hc
  · cases hline : onLine state.2 state.1 with
    | error e =>
        rw [hline] at h
        cases h
    | ok s' =>
        rw [hline] at h
        rw [← Except.ok.inj h]
  · rw [← Except.ok.inj h]

theorem scanChar_error {state : Bytes × τ} {c : UInt8} {e : Fault}
    (h : scanChar onLine state c = .error e) : onLine state.2 state.1 = .error e := by
  rw [scanChar] at h
  split_ifs at h
  · cases hline : onLine state.2 state.1 with
    | error e' =>
        rw [hline] at h
        exact congrArg _ (Except.error.inj h)
    | ok s' =>
        rw [hline] at h
        cases h
  · cases h

/-- A newline that is read again and again uses up what a line takes from. -/
theorem fails_scanLines_of_long {text : Bytes} (hlength : UInt32.size ≤ text.length)
    (hmem : char '\n' ∈ text.take UInt32.size) {e : Fault} (measure : τ → Nat)
    (hline : ∀ s line s', onLine s line = .ok s' → measure s' < measure s)
    (hfail : ∀ s line e', onLine s line = .error e' → e' = e) (s : τ) :
    ∃ fuel, Fails (scanLines text onLine fuel s) e := by
  obtain ⟨j, hj, hc⟩ := List.mem_take_iff_getElem.mp hmem
  have hget : ∀ i, i < UInt32.size → ∃ c, text[i]? = some c := fun i hi =>
    ⟨_, List.getElem?_eq_getElem (Nat.lt_of_lt_of_le hi hlength)⟩
  simp only [fails_scanLines_iff]
  refine fails_counted_of_wrap hlength (Nat.lt_min.mp hj).1 (fun state => measure state.2)
    (fun i hi state state' hstep => ?_) (fun i hi state e' herror => ?_) _
  · obtain ⟨c, hi⟩ := hget i hi
    rw [hi, Option.elim_some] at hstep
    have hchar := scanChar_ok hstep
    split_ifs with hij
    · rw [hij, List.getElem?_eq_getElem (Nat.lt_min.mp hj).2, Option.some.injEq, hc] at hi
      rw [if_pos hi.symm] at hchar
      exact hline _ _ _ hchar
    · split_ifs at hchar
      · exact Nat.le_of_lt (hline _ _ _ hchar)
      · rw [hchar]
  · obtain ⟨c, hi⟩ := hget i hi
    rw [hi, Option.elim_some] at herror
    exact hfail _ _ _ (scanChar_error herror)

/-! ## The lines of a UUID -/

def uidLines (uuid : Uuid) : List Bytes := uuid.data.map fun c => numberToString (charToInt c)

theorem newline_notMem_uidLines (uuid : Uuid) : ∀ line ∈ uidLines uuid, char '\n' ∉ line := by
  intro line hline
  obtain ⟨c, -, rfl⟩ := List.mem_map.mp hline
  exact newline_notMem_numberToString _

theorem length_uidLines (uuid : Uuid) : (unlines (uidLines uuid)).length ≤ 5 * 16 := by
  have hbyte : ∀ n < 256, (numberToString (charToInt (UInt8.ofNat n))).length ≤ 4 := by
    decide +kernel
  have hbound (bytes : Bytes) : (unlines (bytes.map fun c =>
      numberToString (charToInt c))).length ≤ 5 * bytes.length := by
    induction bytes with
    | nil => exact Nat.le_refl 0
    | cons c bytes ih =>
        have hc := hbyte c.toNat c.toNat_lt
        rw [UInt8.ofNat_toNat] at hc
        rw [List.map_cons, unlines_cons, List.length_append, List.length_cons, List.length_cons]
        omega
  have hle := hbound uuid.data
  rwa [uuid.length_eq] at hle

/-! ## The lines of a redirect -/

/-- The lines for an entry in the redirect list. -/
def redirectLines (entry : Entry) : List Bytes :=
  match entry.kind with
  | .item .. => []
  | .redirect target => [entry.path, target]

end ZimTools.Incremental
