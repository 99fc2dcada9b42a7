import ZimTools.Std.Regex
import ZimTools.Tools.HtmlLinks

/-!
# The kinds of URIs

`detectUriKind` decides by the first of the characters `:`, `/`, `?` and `#` of
a string, and by what is in front of it and next to it.  `HasKind` says the same
by the form of the whole string: two slashes at its start, or a scheme of
RFC 3986 with a colon behind it.  Neither form can be read in two ways, since no
scheme has one of the four characters.

A kind depends on the scheme up to the case of its letters, and behind the colon
only on whether two slashes follow (`detectUriKind_spec`).
-/

namespace ZimTools

open Bytes Regex

/-! ## The forms -/

/-- The characters of a scheme behind its first one. -/
def schemeChars : List UInt8 := letters ++ digits ++ str "+-."

/-- `ALPHA *( ALPHA / DIGIT / "+" / "-" / "." )` -/
def schemeGrammar : RegularExpression UInt8 := oneOf letters * (oneOf schemeChars).star

/-- Whether a text is a scheme. -/
def IsScheme (s : Bytes) : Prop := s ∈ schemeGrammar.matches'

/-- The special kind of a scheme, compared without ASCII case. -/
def specialKind (scheme : Bytes) : Option UriKind :=
  (uriSchemes.find? fun p => asciitolower p.1 = asciitolower scheme).map Prod.snd

/-- The kind of a string of a certain form. -/
inductive HasKind : Bytes → UriKind → Prop where
  | protocolRelative (rest : Bytes) : HasKind (str "//" ++ rest) .protocolRelative
  | slashes {scheme : Bytes} (h : IsScheme scheme) (rest : Bytes) :
      HasKind (scheme ++ char ':' :: (str "//" ++ rest)) .genericUri
  | scheme {scheme rest : Bytes} (h : IsScheme scheme) (hrest : ¬ str "//" <+: rest) :
      HasKind (scheme ++ char ':' :: rest) ((specialKind scheme).getD .genericUri)
  | other {s : Bytes} (hslashes : ¬ str "//" <+: s)
      (hscheme : ∀ scheme rest, IsScheme scheme → s ≠ scheme ++ char ':' :: rest) :
      HasKind s .other

/-! ## Schemes -/

theorem mem_letters {c : UInt8} :
    c ∈ letters ↔ char 'a' ≤ c ∧ c ≤ char 'z' ∨ char 'A' ≤ c ∧ c ≤ char 'Z' := by
  rw [letters, List.mem_append, mem_range, mem_range]

theorem mem_schemeChars {c : UInt8} : c ∈ schemeChars ↔
    c ∈ letters ∨ (char '0' ≤ c ∧ c ≤ char '9') ∨ c ∈ str "+-." := by
  rw [schemeChars, List.mem_append, List.mem_append, digits, mem_range, or_assoc]

theorem isAsciiAlpha_iff {c : UInt8} : isAsciiAlpha c = true ↔ c ∈ letters := by
  rw [mem_letters, or_comm]
  simp [isAsciiAlpha]

theorem isSchemeChar_iff {c : UInt8} : isSchemeChar c = true ↔ c ∈ schemeChars := by
  have hstr : str "+-." = [char '+', char '-', char '.'] := rfl
  rw [mem_schemeChars, ← isAsciiAlpha_iff, hstr]
  simp [isSchemeChar, or_assoc]

theorem isScheme_iff {s : Bytes} :
    IsScheme s ↔ ∃ c t, s = c :: t ∧ c ∈ letters ∧ ∀ d ∈ t, d ∈ schemeChars :=
  mem_oneOf_mul_star

theorem isValidUriScheme_iff {s : Bytes} : isValidUriScheme s = true ↔ IsScheme s := by
  rw [isScheme_iff]
  cases s with
  | nil =>
      refine iff_of_false Bool.false_ne_true ?_
      rintro ⟨c, t, h, -⟩
      exact List.cons_ne_nil c t h.symm
  | cons c t =>
      rw [isValidUriScheme, Bool.and_eq_true, isAsciiAlpha_iff, List.all_eq_true]
      simp only [isSchemeChar_iff]
      constructor
      · rintro ⟨hc, ht⟩
        exact ⟨c, t, rfl, hc, ht⟩
      · rintro ⟨c', t', h, hc, ht⟩
        obtain ⟨rfl, rfl⟩ := List.cons.inj h
        exact ⟨hc, ht⟩

def isDelimiter (c : UInt8) : Bool := c ∈ str ":/?#"

theorem schemeChars_clean : ∀ c ∈ schemeChars, isDelimiter c = false :=
  forall_mem_of_all (by decide)

theorem IsScheme.clean {s : Bytes} (h : IsScheme s) : ∀ c ∈ s, isDelimiter c = false := by
  obtain ⟨c, t, rfl, hc, ht⟩ := isScheme_iff.mp h
  have hletter : c ∈ schemeChars := List.mem_append_left _ (List.mem_append_left _ hc)
  exact List.forall_mem_cons.mpr
    ⟨schemeChars_clean c hletter, fun d hd => schemeChars_clean d (ht d hd)⟩

/-- `asciitolower` of a character. -/
def lowerChar (c : UInt8) : UInt8 := if char 'A' ≤ c ∧ c ≤ char 'Z' then c + 32 else c

theorem lowerChar_letter {c : UInt8} : lowerChar c ∈ letters ↔ c ∈ letters := by
  rw [mem_letters, mem_letters, lowerChar]
  split_ifs with h
  · -- An upper case letter becomes a lower case one.
    have hlow : (65 : UInt8) ≤ c ∧ c ≤ 90 := h
    rw [UInt8.le_iff_toNat_le, UInt8.le_iff_toNat_le] at hlow
    have hsum : (c + 32).toNat = c.toNat + 32 := by
      rw [UInt8.toNat_add]
      exact Nat.mod_eq_of_lt (Nat.lt_of_le_of_lt (Nat.add_le_add_right hlow.2 32) (by decide))
    refine iff_of_true (Or.inl ?_) (Or.inr h)
    rw [UInt8.le_iff_toNat_le, UInt8.le_iff_toNat_le, hsum]
    exact ⟨Nat.add_le_add_right hlow.1 32, Nat.add_le_add_right hlow.2 32⟩
  · exact Iff.rfl

theorem lowerChar_schemeChar {c : UInt8} : lowerChar c ∈ schemeChars ↔ c ∈ schemeChars := by
  by_cases h : char 'A' ≤ c ∧ c ≤ char 'Z'
  · have hletter : c ∈ letters := mem_letters.mpr (Or.inr h)
    exact iff_of_true (mem_schemeChars.mpr (Or.inl (lowerChar_letter.mpr hletter)))
      (mem_schemeChars.mpr (Or.inl hletter))
  · rw [lowerChar, if_neg h]

/-- The case of a scheme does not matter. -/
theorem isScheme_congr {s s' : Bytes} (h : asciitolower s = asciitolower s') (hs : IsScheme s) :
    IsScheme s' := by
  obtain ⟨c, t, rfl, hc, ht⟩ := isScheme_iff.mp hs
  cases s' with
  | nil => exact absurd h (List.cons_ne_nil _ _)
  | cons c' t' =>
      have hlower : lowerChar c :: t.map lowerChar = lowerChar c' :: t'.map lowerChar := h
      obtain ⟨hhead, htail⟩ := List.cons.inj hlower
      refine isScheme_iff.mpr ⟨c', t', rfl, ?_, fun d hd => ?_⟩
      · rwa [← lowerChar_letter, ← hhead, lowerChar_letter]
      · have hmem : lowerChar d ∈ t.map lowerChar := htail ▸ List.mem_map_of_mem hd
        obtain ⟨e, he, heq⟩ := List.mem_map.mp hmem
        rw [← lowerChar_schemeChar, ← heq, lowerChar_schemeChar]
        exact ht e he

/-- The names of the table are in lower case. -/
theorem specialUriSchemeKind_lower (scheme : Bytes) :
    specialUriSchemeKind (asciitolower scheme) = (specialKind scheme).getD .genericUri := by
  have hlower : ∀ p ∈ uriSchemes, asciitolower p.1 = p.1 := by decide
  have hlookup : ∀ l : List (Bytes × UriKind), (∀ p ∈ l, asciitolower p.1 = p.1) →
      l.lookup (asciitolower scheme) =
        (l.find? fun p => asciitolower p.1 = asciitolower scheme).map Prod.snd := by
    intro l hl
    induction l with
    | nil => rfl
    | cons p l ih =>
        rw [List.forall_mem_cons] at hl
        rw [List.lookup_cons, List.find?_cons, hl.1, ih hl.2]
        by_cases hp : p.1 = asciitolower scheme
        · simp [hp]
        · rw [beq_eq_false_iff_ne.mpr (Ne.symm hp), decide_eq_false hp]
  rw [specialUriSchemeKind, hlookup uriSchemes hlower]
  rfl

/-! ## The first delimiter -/

/-- A string has one first delimiter. -/
theorem split_unique {a b a' b' : Bytes} {c c' : UInt8} (ha : ∀ x ∈ a, isDelimiter x = false)
    (ha' : ∀ x ∈ a', isDelimiter x = false) (hc : isDelimiter c = true)
    (hc' : isDelimiter c' = true) (h : a ++ c :: b = a' ++ c' :: b') :
    a = a' ∧ c = c' ∧ b = b' := by
  have hnot : c ∉ a' := fun hmem => Bool.false_ne_true ((ha' c hmem).symm.trans hc)
  have hnot' : c' ∉ a := fun hmem => Bool.false_ne_true ((ha c' hmem).symm.trans hc')
  exact append_cons_inj hnot hnot' h

theorem detectUriKind_clean {s : Bytes} (hs : ∀ c ∈ s, isDelimiter c = false) :
    detectUriKind s = .other := by
  have hnone : s.findIdx? (· ∈ str ":/?#") = none := List.findIdx?_eq_none_iff.mpr hs
  rw [detectUriKind, hnone]

theorem findIdx?_delimiter {a : Bytes} {c : UInt8} (b : Bytes)
    (ha : ∀ x ∈ a, isDelimiter x = false) (hc : isDelimiter c = true) :
    (a ++ c :: b).findIdx? (· ∈ str ":/?#") = some a.length := by
  have hnone : a.findIdx? (· ∈ str ":/?#") = none := List.findIdx?_eq_none_iff.mpr ha
  have hhead : decide (c ∈ str ":/?#") = true := hc
  rw [List.findIdx?_append, hnone, List.findIdx?_cons, hhead]
  simp

/-- Without a colon as the first delimiter the slashes decide. -/
theorem detectUriKind_other {a : Bytes} {c : UInt8} (b : Bytes)
    (ha : ∀ x ∈ a, isDelimiter x = false) (hc : isDelimiter c = true) (hcolon : c ≠ char ':') :
    detectUriKind (a ++ c :: b) =
      if str "//" <+: a ++ c :: b then .protocolRelative else .other := by
  have hget : (a ++ c :: b)[a.length]? = some c := by simp
  have hne : (a ++ c :: b)[a.length]? ≠ some (char ':') := by
    rw [hget]
    exact fun h => hcolon (Option.some.inj h)
  have hprefix : str "//" <+: a ++ c :: b ↔
      a.length = 0 ∧ substr (a ++ c :: b) 0 2 = str "//" := by
    rw [substr, List.drop_zero, List.prefix_iff_eq_take, eq_comm]
    refine ⟨fun h => ⟨?_, h⟩, And.right⟩
    cases a with
    | nil => rfl
    | cons x a =>
        obtain ⟨rfl, -⟩ := List.cons.inj h
        exact absurd (ha (char '/') (List.mem_cons_self ..)) (by decide)
  rw [detectUriKind, findIdx?_delimiter b ha hc]
  dsimp only
  rw [if_pos hne]
  exact if_congr hprefix.symm rfl rfl

theorem detectUriKind_colon {a : Bytes} (b : Bytes) (ha : ∀ x ∈ a, isDelimiter x = false) :
    detectUriKind (a ++ char ':' :: b) =
      if isValidUriScheme a = false then .other
      else if str "//" <+: b then .genericUri
      else (specialKind a).getD .genericUri := by
  have hget : (a ++ char ':' :: b)[a.length]? = some (char ':') := by simp
  have hscheme : substr (a ++ char ':' :: b) 0 a.length = a := by simp [substr]
  have hslashes : ((a ++ char ':' :: b)[a.length + 1]? = some (char '/') ∧
      (a ++ char ':' :: b)[a.length + 2]? = some (char '/')) ↔ str "//" <+: b := by
    have hbehind : ∀ i, (a ++ char ':' :: b)[a.length + (i + 1)]? = b[i]? := by
      intro i
      rw [List.getElem?_append_right (Nat.le_add_right ..), Nat.add_sub_cancel_left,
        List.getElem?_cons_succ]
    have hstr : str "//" = [char '/', char '/'] := rfl
    rw [hbehind 0, hbehind 1, hstr]
    cases b with
    | nil => simp
    | cons c b => cases b <;> simp [List.cons_prefix_cons, eq_comm]
  rw [detectUriKind, findIdx?_delimiter b ha (by decide)]
  dsimp only
  rw [if_neg (not_not_intro hget), hscheme, specialUriSchemeKind_lower]
  simp only [hslashes, Bool.not_eq_true']

/-- A string has a first delimiter or none. -/
theorem exists_split (s : Bytes) : (∀ c ∈ s, isDelimiter c = false) ∨
    ∃ a c b, s = a ++ c :: b ∧ (∀ x ∈ a, isDelimiter x = false) ∧ isDelimiter c = true := by
  induction s with
  | nil => exact Or.inl (List.forall_mem_nil _)
  | cons x s ih =>
      cases hx : isDelimiter x with
      | true => exact Or.inr ⟨[], x, s, rfl, List.forall_mem_nil _, hx⟩
      | false =>
          obtain hs | ⟨a, c, b, rfl, ha, hc⟩ := ih
          · exact Or.inl (List.forall_mem_cons.mpr ⟨hx, hs⟩)
          · exact Or.inr ⟨x :: a, c, b, rfl, List.forall_mem_cons.mpr ⟨hx, ha⟩, hc⟩

/-! ## The kind of a form -/

/-- A scheme is in front of the first delimiter of a string, and that is a colon. -/
theorem not_scheme_of_ne_colon {a b : Bytes} {c : UInt8} (ha : ∀ x ∈ a, isDelimiter x = false)
    (hc : isDelimiter c = true) (hcolon : c ≠ char ':') (scheme rest : Bytes)
    (h : IsScheme scheme) : a ++ c :: b ≠ scheme ++ char ':' :: rest := by
  intro heq
  exact hcolon (split_unique ha h.clean hc (by decide) heq).2.1

/-- The kind that is computed is one of the form. -/
theorem hasKind_detectUriKind (s : Bytes) : HasKind s (detectUriKind s) := by
  obtain hs | ⟨a, c, b, rfl, ha, hc⟩ := exists_split s
  · rw [detectUriKind_clean hs]
    refine HasKind.other ?_ ?_
    · rintro ⟨t, rfl⟩
      exact absurd (hs (char '/') (List.mem_cons_self ..)) (by decide)
    · rintro scheme rest - rfl
      have hmem : char ':' ∈ scheme ++ char ':' :: rest :=
        List.mem_append_right _ (List.mem_cons_self ..)
      exact absurd (hs (char ':') hmem) (by decide)
  · by_cases hcolon : c = char ':'
    · subst hcolon
      rw [detectUriKind_colon b ha]
      split_ifs with hscheme hslashes
      · refine HasKind.other ?_ fun scheme rest h heq => ?_
        · rintro ⟨t, ht⟩
          -- The first delimiter would be the first slash.
          have hslash : [] ++ char '/' :: (char '/' :: t) = a ++ char ':' :: b := ht
          have hne := (split_unique (List.forall_mem_nil _) ha (by decide) hc hslash).2.1
          exact absurd hne (by decide)
        · obtain ⟨rfl, -⟩ := split_unique ha h.clean hc hc heq
          exact Bool.false_ne_true (hscheme.symm.trans (isValidUriScheme_iff.mpr h))
      · obtain ⟨rest, rfl⟩ := hslashes
        exact HasKind.slashes (isValidUriScheme_iff.mp (Bool.not_eq_false _ ▸ hscheme)) rest
      · exact HasKind.scheme (isValidUriScheme_iff.mp (Bool.not_eq_false _ ▸ hscheme)) hslashes
    · rw [detectUriKind_other b ha hc hcolon]
      split_ifs with hslashes
      · obtain ⟨rest, hrest⟩ := hslashes
        rw [← hrest]
        exact HasKind.protocolRelative rest
      · exact HasKind.other hslashes (not_scheme_of_ne_colon ha hc hcolon)

/-- A string has the kind of its form only. -/
theorem HasKind.eq {s : Bytes} {k : UriKind} (h : HasKind s k) : detectUriKind s = k := by
  cases h with
  | protocolRelative rest =>
      have hslash : str "//" ++ rest = [] ++ char '/' :: (char '/' :: rest) := rfl
      rw [hslash, detectUriKind_other _ (List.forall_mem_nil _) (by decide) (by decide), if_pos]
      exact List.prefix_append ..
  | slashes hscheme rest =>
      rw [detectUriKind_colon _ hscheme.clean, isValidUriScheme_iff.mpr hscheme,
        if_neg Bool.false_ne_true.symm, if_pos (List.prefix_append ..)]
  | scheme hscheme hrest =>
      rw [detectUriKind_colon _ hscheme.clean, isValidUriScheme_iff.mpr hscheme,
        if_neg Bool.false_ne_true.symm, if_neg hrest]
  | other hslashes hscheme =>
      obtain hs | ⟨a, c, b, rfl, ha, hc⟩ := exists_split s
      · exact detectUriKind_clean hs
      · by_cases hcolon : c = char ':'
        · subst hcolon
          have hinvalid : isValidUriScheme a = false := by
            refine Bool.eq_false_iff.mpr fun hvalid => ?_
            exact hscheme a b (isValidUriScheme_iff.mp hvalid) rfl
          rw [detectUriKind_colon b ha, if_pos hinvalid]
        · rw [detectUriKind_other b ha hc hcolon, if_neg hslashes]

/-- A string has the kind of its form, and behind a scheme and its colon that
depends on the scheme up to case, and on two slashes. -/
theorem detectUriKind_spec (s : Bytes) :
    (∀ k, detectUriKind s = k ↔ HasKind s k) ∧
      ∀ scheme rest, IsScheme scheme → s = scheme ++ char ':' :: rest →
        ∀ scheme' rest', asciitolower scheme' = asciitolower scheme →
          (str "//" <+: rest' ↔ str "//" <+: rest) →
          detectUriKind (scheme' ++ char ':' :: rest') = detectUriKind s := by
  refine ⟨fun k => ⟨fun h => h ▸ hasKind_detectUriKind s, HasKind.eq⟩, ?_⟩
  rintro scheme rest hscheme rfl scheme' rest' hlower hslashes
  have hscheme' : IsScheme scheme' := isScheme_congr hlower.symm hscheme
  have hspecial : specialKind scheme' = specialKind scheme := by
    rw [specialKind, hlower, specialKind]
  rw [detectUriKind_colon _ hscheme.clean, detectUriKind_colon _ hscheme'.clean,
    isValidUriScheme_iff.mpr hscheme, isValidUriScheme_iff.mpr hscheme', hspecial]
  simp only [hslashes]

end ZimTools
