import Mathlib.Data.List.Basic

/-!
# JSON texts

The grammar of RFC 8259 over the characters of a text, as relations between a
text and what it stands for.  A string of the grammar whose escapes name half
of a surrogate pair stands for no character and is left out.  The names of an
object are kept in order, and need not differ.

Beside the rules there is what a producer of texts needs: white space around
elements and members may grow (`ElementsText.ws_append`, `ElementsText.append_ws`),
and their lists may be joined (`ElementsText.append`).  What a string literal
stands for is determined (`StringBody.det`), and no control character occurs in
one (`StringBody.space_le`).
-/

namespace Json

inductive Value where
  | null
  | bool (b : Bool)
  | number (text : List Char)
  | string (s : List Char)
  | array (elements : List Value)
  | object (members : List (List Char × Value))

/-! ## Strings -/

/-- The characters that stand behind a backslash for one character. -/
def escaped : Char → Option Char
  | '"' => some '"'
  | '\\' => some '\\'
  | '/' => some '/'
  | 'b' => some (Char.ofNat 8)
  | 'f' => some (Char.ofNat 12)
  | 'n' => some '\n'
  | 'r' => some '\r'
  | 't' => some '\t'
  | _ => none

def hexDigit (c : Char) : Option Nat :=
  if '0' ≤ c ∧ c ≤ '9' then some (c.toNat - '0'.toNat)
  else if 'a' ≤ c ∧ c ≤ 'f' then some (c.toNat - 'a'.toNat + 10)
  else if 'A' ≤ c ∧ c ≤ 'F' then some (c.toNat - 'A'.toNat + 10)
  else none

/-- The code unit of four hexadecimal digits. -/
def codeUnit (a b c d : Char) : Option Nat := do
  let a ← hexDigit a
  let b ← hexDigit b
  let c ← hexDigit c
  let d ← hexDigit d
  pure (((a * 16 + b) * 16 + c) * 16 + d)

def IsHigh (n : Nat) : Prop := 0xD800 ≤ n ∧ n < 0xDC00

def IsLow (n : Nat) : Prop := 0xDC00 ≤ n ∧ n < 0xE000

/-- `StringBody t s`: between quotation marks, `t` stands for `s`. -/
inductive StringBody : List Char → List Char → Prop where
  | nil : StringBody [] []
  | unescaped {c : Char} {t s : List Char} (hc : ' ' ≤ c) (hq : c ≠ '"') (hb : c ≠ '\\') :
      StringBody t s → StringBody (c :: t) (c :: s)
  | escape {e c : Char} {t s : List Char} (he : escaped e = some c) :
      StringBody t s → StringBody ('\\' :: e :: t) (c :: s)
  | unicode {a b c d : Char} {n : Nat} {t s : List Char} (hn : codeUnit a b c d = some n)
      (hhigh : ¬ IsHigh n) (hlow : ¬ IsLow n) :
      StringBody t s → StringBody ('\\' :: 'u' :: a :: b :: c :: d :: t) (Char.ofNat n :: s)
  | surrogates {a b c d a' b' c' d' : Char} {n m : Nat} {t s : List Char}
      (hn : codeUnit a b c d = some n) (hhigh : IsHigh n)
      (hm : codeUnit a' b' c' d' = some m) (hlow : IsLow m) :
      StringBody t s →
      StringBody ('\\' :: 'u' :: a :: b :: c :: d :: '\\' :: 'u' :: a' :: b' :: c' :: d' :: t)
        (Char.ofNat (0x10000 + (n - 0xD800) * 0x400 + (m - 0xDC00)) :: s)

/-- A string literal and the string it stands for. -/
def StringText (text s : List Char) : Prop :=
  ∃ body, text = '"' :: body ++ ['"'] ∧ StringBody body s

theorem space_le_of_escaped {e c : Char} (h : escaped e = some c) : ' ' ≤ e := by
  unfold escaped at h
  split at h <;> first | decide | exact nomatch h

theorem space_le_of_hexDigit {c : Char} {n : Nat} (h : hexDigit c = some n) : ' ' ≤ c := by
  unfold hexDigit at h
  split at h
  · rename_i hc
    exact Char.le_trans (by decide) hc.1
  · split at h
    · rename_i hc
      exact Char.le_trans (by decide) hc.1
    · split at h
      · rename_i hc
        exact Char.le_trans (by decide) hc.1
      · exact nomatch h

theorem space_le_of_codeUnit {a b c d : Char} {n : Nat} (h : codeUnit a b c d = some n) :
    ∀ x ∈ ['\\', 'u', a, b, c, d], ' ' ≤ x := by
  simp only [codeUnit, Option.bind_eq_bind, Option.bind_eq_some_iff] at h
  obtain ⟨_, ha, _, hb, _, hc, _, hd, -⟩ := h
  simp only [List.mem_cons, List.not_mem_nil, or_false]
  rintro x (rfl | rfl | rfl | rfl | rfl | rfl)
  · decide
  · decide
  · exact space_le_of_hexDigit ha
  · exact space_le_of_hexDigit hb
  · exact space_le_of_hexDigit hc
  · exact space_le_of_hexDigit hd

/-- A control character occurs in no string literal. -/
theorem StringBody.space_le {t s : List Char} (h : StringBody t s) : ∀ c ∈ t, ' ' ≤ c := by
  induction h with
  | nil => exact nofun
  | unescaped hc _ _ _ ih => simpa [hc] using ih
  | escape he _ ih => simpa [space_le_of_escaped he] using ih
  | unicode hn _ _ _ ih =>
      exact List.forall_mem_append.mpr ⟨space_le_of_codeUnit hn, ih⟩
  | surrogates hn _ hm _ _ ih =>
      exact List.forall_mem_append.mpr ⟨space_le_of_codeUnit hn,
        List.forall_mem_append.mpr ⟨space_le_of_codeUnit hm, ih⟩⟩

/-- A string literal stands for one string. -/
theorem StringBody.det {t s s' : List Char} (h : StringBody t s) (h' : StringBody t s') :
    s = s' := by
  induction h generalizing s' with
  | nil => cases h' with | nil => rfl
  | unescaped hc hq hb _ ih =>
      cases h' with
      | unescaped _ _ _ h' => rw [ih h']
      | escape => exact absurd rfl hb
      | unicode => exact absurd rfl hb
      | surrogates => exact absurd rfl hb
  | escape he _ ih =>
      cases h' with
      | unescaped _ _ hb _ => exact absurd rfl hb
      | escape he' h' => rw [ih h', Option.some.inj (he.symm.trans he')]
      | unicode => exact nomatch he
      | surrogates => exact nomatch he
  | unicode hn hhigh hlow _ ih =>
      cases h' with
      | unescaped _ _ hb _ => exact absurd rfl hb
      | escape he _ => exact nomatch he
      | unicode hn' _ _ h' => rw [ih h', Option.some.inj (hn.symm.trans hn')]
      | surrogates hn' hhigh' _ _ _ =>
          obtain rfl := Option.some.inj (hn.symm.trans hn')
          exact absurd hhigh' hhigh
  | surrogates hn hhigh hm hlow _ ih =>
      cases h' with
      | unescaped _ _ hb _ => exact absurd rfl hb
      | escape he _ => exact nomatch he
      | unicode hn' hhigh' _ _ =>
          obtain rfl := Option.some.inj (hn.symm.trans hn')
          exact absurd hhigh hhigh'
      | surrogates hn' _ hm' _ h' =>
          rw [ih h', Option.some.inj (hn.symm.trans hn'), Option.some.inj (hm.symm.trans hm')]

theorem StringText.det {text s s' : List Char} (h : StringText text s) (h' : StringText text s') :
    s = s' := by
  obtain ⟨body, rfl, hbody⟩ := h
  obtain ⟨body', hbody', hs'⟩ := h'
  rw [List.append_cancel_right (List.cons.inj hbody').2] at hbody
  exact hbody.det hs'

/-! ## Numbers -/

def Digits (t : List Char) : Prop := t ≠ [] ∧ ∀ c ∈ t, c.isDigit = true

/-- No leading zero. -/
def IntegerText (t : List Char) : Prop := t = ['0'] ∨ Digits t ∧ t.head? ≠ some '0'

def FractionText (t : List Char) : Prop := t = [] ∨ ∃ ds, t = '.' :: ds ∧ Digits ds

def ExponentText (t : List Char) : Prop :=
  t = [] ∨ ∃ e sign ds, t = e :: sign ++ ds ∧ e ∈ ['e', 'E'] ∧ sign ∈ [[], ['+'], ['-']] ∧
    Digits ds

def NumberText (t : List Char) : Prop :=
  ∃ sign int frac exp, t = sign ++ int ++ frac ++ exp ∧ sign ∈ [[], ['-']] ∧ IntegerText int ∧
    FractionText frac ∧ ExponentText exp

/-! ## Values -/

/-- White space. -/
def Ws (t : List Char) : Prop := ∀ c ∈ t, c ∈ [' ', '\t', '\n', '\r']

theorem Ws.nil : Ws [] := nofun

theorem Ws.append {a b : List Char} (ha : Ws a) (hb : Ws b) : Ws (a ++ b) :=
  List.forall_mem_append.mpr ⟨ha, hb⟩

mutual

inductive ValueText : List Char → Value → Prop where
  | null : ValueText "null".toList .null
  | true : ValueText "true".toList (.bool true)
  | false : ValueText "false".toList (.bool false)
  | number {t : List Char} : NumberText t → ValueText t (.number t)
  | string {t s : List Char} : StringText t s → ValueText t (.string s)
  | emptyArray {w : List Char} : Ws w → ValueText ('[' :: w ++ [']']) (.array [])
  | array {t : List Char} {vs : List Value} :
      ElementsText t vs → ValueText ('[' :: t ++ [']']) (.array vs)
  | emptyObject {w : List Char} : Ws w → ValueText ('{' :: w ++ ['}']) (.object [])
  | object {t : List Char} {ms : List (List Char × Value)} :
      MembersText t ms → ValueText ('{' :: t ++ ['}']) (.object ms)

/-- One or more values with commas between them. -/
inductive ElementsText : List Char → List Value → Prop where
  | one {w t w' : List Char} {v : Value} :
      Ws w → ValueText t v → Ws w' → ElementsText (w ++ t ++ w') [v]
  | cons {w t w' ts : List Char} {v : Value} {vs : List Value} :
      Ws w → ValueText t v → Ws w' → ElementsText ts vs →
      ElementsText (w ++ t ++ w' ++ ',' :: ts) (v :: vs)

/-- One or more members with commas between them. -/
inductive MembersText : List Char → List (List Char × Value) → Prop where
  | one {w k w' w'' t w''' : List Char} {name : List Char} {v : Value} :
      Ws w → StringText k name → Ws w' → Ws w'' → ValueText t v → Ws w''' →
      MembersText (w ++ k ++ w' ++ ':' :: w'' ++ t ++ w''') [(name, v)]
  | cons {w k w' w'' t w''' ts : List Char} {name : List Char} {v : Value}
      {ms : List (List Char × Value)} :
      Ws w → StringText k name → Ws w' → Ws w'' → ValueText t v → Ws w''' →
      MembersText ts ms →
      MembersText (w ++ k ++ w' ++ ':' :: w'' ++ t ++ w''' ++ ',' :: ts) ((name, v) :: ms)

end

/-- A JSON text. -/
def JsonText (text : List Char) (v : Value) : Prop :=
  ∃ w t w', text = w ++ t ++ w' ∧ Ws w ∧ ValueText t v ∧ Ws w'

/-! ## Lists of elements and members

Members are to objects what elements are to arrays. -/

theorem ElementsText.ws_append {w t : List Char} {vs : List Value} (hw : Ws w)
    (h : ElementsText t vs) : ElementsText (w ++ t) vs := by
  cases h with
  | one hw₁ hv hw₂ => simpa using ElementsText.one (hw.append hw₁) hv hw₂
  | cons hw₁ hv hw₂ h => simpa using ElementsText.cons (hw.append hw₁) hv hw₂ h

theorem MembersText.ws_append {w t : List Char} {ms : List (List Char × Value)} (hw : Ws w)
    (h : MembersText t ms) : MembersText (w ++ t) ms := by
  cases h with
  | one hw₁ hk hw₂ hw₃ hv hw₄ => simpa using MembersText.one (hw.append hw₁) hk hw₂ hw₃ hv hw₄
  | cons hw₁ hk hw₂ hw₃ hv hw₄ h =>
      simpa using MembersText.cons (hw.append hw₁) hk hw₂ hw₃ hv hw₄ h

theorem ElementsText.append_ws : ∀ {t w : List Char} {vs : List Value},
    ElementsText t vs → Ws w → ElementsText (t ++ w) vs
  | _, _, _, .one hw₁ hv hw₂, hw => by simpa using ElementsText.one hw₁ hv (hw₂.append hw)
  | _, _, _, .cons hw₁ hv hw₂ h, hw => by
      simpa using ElementsText.cons hw₁ hv hw₂ (h.append_ws hw)

theorem MembersText.append_ws : ∀ {t w : List Char} {ms : List (List Char × Value)},
    MembersText t ms → Ws w → MembersText (t ++ w) ms
  | _, _, _, .one hw₁ hk hw₂ hw₃ hv hw₄, hw => by
      simpa using MembersText.one hw₁ hk hw₂ hw₃ hv (hw₄.append hw)
  | _, _, _, .cons hw₁ hk hw₂ hw₃ hv hw₄ h, hw => by
      simpa using MembersText.cons hw₁ hk hw₂ hw₃ hv hw₄ (h.append_ws hw)

theorem ElementsText.append : ∀ {t t' : List Char} {vs vs' : List Value},
    ElementsText t vs → ElementsText t' vs' → ElementsText (t ++ ',' :: t') (vs ++ vs')
  | _, _, _, _, .one hw₁ hv hw₂, h' => by simpa using ElementsText.cons hw₁ hv hw₂ h'
  | _, _, _, _, .cons hw₁ hv hw₂ h, h' => by
      simpa using ElementsText.cons hw₁ hv hw₂ (h.append h')

theorem MembersText.append : ∀ {t t' : List Char} {ms ms' : List (List Char × Value)},
    MembersText t ms → MembersText t' ms' → MembersText (t ++ ',' :: t') (ms ++ ms')
  | _, _, _, _, .one hw₁ hk hw₂ hw₃ hv hw₄, h' => by
      simpa using MembersText.cons hw₁ hk hw₂ hw₃ hv hw₄ h'
  | _, _, _, _, .cons hw₁ hk hw₂ hw₃ hv hw₄ h, h' => by
      simpa using MembersText.cons hw₁ hk hw₂ hw₃ hv hw₄ (h.append h')

end Json
