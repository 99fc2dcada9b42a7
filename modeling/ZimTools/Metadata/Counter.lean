import ZimTools.Metadata.Constraints

/-!
# The Counter

The Counter lists how many items there are of each MIME type, as entries
`type/subtype=count` with semicolons between them.  Its regular expression has
one part for the first entry and another one for those that follow.  In the type
of the first entry a digit is not allowed, and in the types of the others it is.
So a list of entries may be accepted in one order and not in another
(`counter_perm_iff`).
-/

namespace ZimTools

open Bytes

namespace Metadata

open Regex

/-! ## The expression -/

/-- `[a-zA-Z0-9]` -/
def typeChars : List UInt8 := letters ++ digits

/-- `[a-zA-Z0-9.\-+]` -/
def subtypeChars : List UInt8 := letters ++ digits ++ str ".-+"

def plus (cs : List UInt8) : RegularExpression UInt8 := oneOf cs * (oneOf cs).star

/-- The expression of an entry, with the characters that its type may have. -/
def entryRegex (cs : List UInt8) : RegularExpression UInt8 :=
  plus cs * (.char (char '/') * (plus subtypeChars * (.char (char '=') * (plus digits * 1))))

theorem ofBytes_counterRegexp : Regex.ofBytes counterRegexp = some ⟨true,
    entryRegex letters * ((.char (char ';') * entryRegex typeChars).star *
      ((1 + .char (char ';')) * 1)), true⟩ := by
  rfl

/-! ## Entries -/

/-- An entry `type/subtype=count`, in which a semicolon would end it. -/
structure CounterEntry where
  type : Bytes
  subtype : Bytes
  count : Bytes
  unseparated : char ';' ∉ type ++ subtype ++ count

namespace CounterEntry

def text (e : CounterEntry) : Bytes := e.type ++ char '/' :: (e.subtype ++ char '=' :: e.count)

/-- What an entry behind the first one has to be. -/
structure WellFormed (e : CounterEntry) : Prop where
  type : e.type ≠ [] ∧ ∀ c ∈ e.type, c ∈ typeChars
  subtype : e.subtype ≠ [] ∧ ∀ c ∈ e.subtype, c ∈ subtypeChars
  count : e.count ≠ [] ∧ ∀ c ∈ e.count, c ∈ digits

/-- The type has no digit. -/
def Lettered (e : CounterEntry) : Prop := ∀ c ∈ e.type, c ∉ digits

end CounterEntry

/-- The entries with semicolons between them, and perhaps one behind the last. -/
def counterText (entries : List CounterEntry) (trailing : Bool) : Bytes :=
  (str ";").intercalate (entries.map CounterEntry.text) ++ if trailing then str ";" else []

/-- The constraint on the value of a Counter. -/
def AcceptedCounter (value : Bytes) : Prop := searchRegex counterRegexp value = some true

/-! ## The words of the expression -/

theorem mem_entryRegex {cs : List UInt8} {x : Bytes} :
    x ∈ (entryRegex cs).matches' ↔ ∃ t s n, x = t ++ char '/' :: (s ++ char '=' :: n) ∧
      (t ≠ [] ∧ ∀ c ∈ t, c ∈ cs) ∧ (s ≠ [] ∧ ∀ c ∈ s, c ∈ subtypeChars) ∧
      n ≠ [] ∧ ∀ c ∈ n, c ∈ digits := by
  have hdigits : ∀ n : Bytes, n ∈ (plus digits * 1).matches' ↔ n ≠ [] ∧ ∀ c ∈ n, c ∈ digits := by
    intro n
    rw [← mem_oneOf_plus]
    exact mem_mul_one
  rw [entryRegex, mem_mul]
  constructor
  · rintro ⟨t, ht, x, hx, rfl⟩
    obtain ⟨y, hy, rfl⟩ := mem_char_mul.mp hx
    obtain ⟨s, hs, z, hz, rfl⟩ := mem_mul.mp hy
    obtain ⟨n, hn, rfl⟩ := mem_char_mul.mp hz
    exact ⟨t, s, n, rfl, mem_oneOf_plus.mp ht, mem_oneOf_plus.mp hs, (hdigits n).mp hn⟩
  · rintro ⟨t, s, n, rfl, ht, hs, hn⟩
    refine ⟨t, mem_oneOf_plus.mpr ht, _, mem_char_mul.mpr ⟨_, mem_mul.mpr ?_, rfl⟩, rfl⟩
    exact ⟨s, mem_oneOf_plus.mpr hs, _, mem_char_mul.mpr ⟨n, (hdigits n).mpr hn, rfl⟩, rfl⟩

theorem acceptedCounter_iff {value : Bytes} :
    AcceptedCounter value ↔ ∃ x ∈ (entryRegex letters).matches', ∃ l : List Bytes,
      (∀ y ∈ l, y ∈ (entryRegex typeChars).matches') ∧
      ∃ trailing : Bool, value =
        x ++ l.flatMap (char ';' :: ·) ++ if trailing then str ";" else [] := by
  rw [AcceptedCounter, searchRegex, ofBytes_counterRegexp, Option.map_some, Option.some.injEq,
    search_whole, mem_mul]
  have hend : ∀ b : Bytes, b ∈ ((1 + RegularExpression.char (char ';')) * 1).matches' ↔
      ∃ trailing : Bool, b = if trailing then str ";" else [] := by
    intro b
    rw [mem_mul_one, mem_add, mem_one, mem_char]
    constructor
    · rintro (rfl | rfl)
      · exact ⟨false, rfl⟩
      · exact ⟨true, rfl⟩
    · rintro ⟨trailing, rfl⟩
      cases trailing with
      | false => exact Or.inl rfl
      | true => exact Or.inr rfl
  constructor
  · rintro ⟨x, hx, rest, hrest, rfl⟩
    obtain ⟨b, hb, z, hz, rfl⟩ := mem_mul.mp hrest
    obtain ⟨l, rfl, hl⟩ := mem_char_mul_star.mp hb
    obtain ⟨trailing, rfl⟩ := (hend z).mp hz
    exact ⟨x, hx, l, hl, trailing, (List.append_assoc ..).symm⟩
  · rintro ⟨x, hx, l, hl, trailing, rfl⟩
    refine ⟨x, hx, _, mem_mul.mpr ⟨_, mem_char_mul_star.mpr ⟨l, rfl, hl⟩, _,
      (hend _).mpr ⟨trailing, rfl⟩, rfl⟩, (List.append_assoc ..).symm⟩

/-! ## Pieces -/

theorem separators_notMem : char '/' ∉ typeChars ∧ char '/' ∉ subtypeChars ∧ char '/' ∉ digits ∧
    char '=' ∉ subtypeChars ∧ char '=' ∉ digits := by
  decide

theorem semicolon_notMem : char ';' ∉ typeChars ∧ char ';' ∉ subtypeChars ∧ char ';' ∉ digits := by
  decide

theorem letters_subset : ∀ c ∈ letters, c ∈ typeChars := fun _ hc => List.mem_append_left _ hc

/-- An entry is a word of the expression when its parts are. -/
theorem CounterEntry.text_mem_iff {cs : List UInt8} (hcs : ∀ c ∈ cs, c ∈ typeChars)
    (e : CounterEntry) : e.text ∈ (entryRegex cs).matches' ↔
      (e.type ≠ [] ∧ ∀ c ∈ e.type, c ∈ cs) ∧ (e.subtype ≠ [] ∧ ∀ c ∈ e.subtype, c ∈ subtypeChars) ∧
        e.count ≠ [] ∧ ∀ c ∈ e.count, c ∈ digits := by
  obtain ⟨htype, hsubtype, hdigits, hsubtype', hdigits'⟩ := separators_notMem
  rw [mem_entryRegex]
  constructor
  · rintro ⟨t, s, n, htext, ht, hs, hn⟩
    have hslash : char '/' ∉ s ++ char '=' :: n := by
      rw [List.mem_append, List.mem_cons]
      rintro (h | h | h)
      · exact hsubtype (hs.2 _ h)
      · exact absurd h (by decide)
      · exact hdigits (hn.2 _ h)
    obtain ⟨rfl, hrest⟩ := append_cons_inj_of_once (fun h => htype (hcs _ (ht.2 _ h))) hslash htext
    obtain ⟨rfl, rfl⟩ := append_cons_inj_of_once (fun h => hsubtype' (hs.2 _ h))
      (fun h => hdigits' (hn.2 _ h)) hrest
    exact ⟨ht, hs, hn⟩
  · rintro ⟨ht, hs, hn⟩
    exact ⟨e.type, e.subtype, e.count, rfl, ht, hs, hn⟩

theorem CounterEntry.following_iff (e : CounterEntry) :
    e.text ∈ (entryRegex typeChars).matches' ↔ e.WellFormed := by
  rw [e.text_mem_iff fun _ hc => hc]
  exact ⟨fun h => ⟨h.1, h.2.1, h.2.2⟩, fun h => ⟨h.type, h.subtype, h.count⟩⟩

theorem letter_iff : ∀ c ∈ typeChars, c ∈ letters ↔ c ∉ digits :=
  forall_mem_of_all (by decide)

theorem CounterEntry.first_iff (e : CounterEntry) :
    e.text ∈ (entryRegex letters).matches' ↔ e.WellFormed ∧ e.Lettered := by
  rw [e.text_mem_iff letters_subset]
  constructor
  · rintro ⟨⟨hne, htype⟩, hsubtype, hcount⟩
    have hchars : ∀ c ∈ e.type, c ∈ typeChars := fun c hc => letters_subset c (htype c hc)
    exact ⟨⟨⟨hne, hchars⟩, hsubtype, hcount⟩, fun c hc => (letter_iff c (hchars c hc)).mp (htype c hc)⟩
  · rintro ⟨h, hlettered⟩
    exact ⟨⟨h.type.1, fun c hc => (letter_iff c (h.type.2 c hc)).mpr (hlettered c hc)⟩,
      h.subtype, h.count⟩

/-- A word of the expression is not empty and has no semicolon. -/
theorem word_unseparated {cs : List UInt8} (hcs : ∀ c ∈ cs, c ∈ typeChars) {x : Bytes}
    (hx : x ∈ (entryRegex cs).matches') : x ≠ [] ∧ char ';' ∉ x := by
  obtain ⟨htype, hsubtype, hdigits⟩ := semicolon_notMem
  obtain ⟨t, s, n, rfl, ht, hs, hn⟩ := mem_entryRegex.mp hx
  refine ⟨List.append_ne_nil_of_left_ne_nil ht.1 _, ?_⟩
  rw [List.mem_append, List.mem_cons, List.mem_append, List.mem_cons]
  rintro (h | h | h | h | h)
  · exact htype (hcs _ (ht.2 _ h))
  · exact absurd h (by decide)
  · exact hsubtype (hs.2 _ h)
  · exact absurd h (by decide)
  · exact hdigits (hn.2 _ h)

theorem CounterEntry.text_unseparated (e : CounterEntry) : e.text ≠ [] ∧ char ';' ∉ e.text := by
  have hparts := e.unseparated
  simp only [List.mem_append, not_or] at hparts
  refine ⟨List.append_ne_nil_of_right_ne_nil _ (List.cons_ne_nil _ _), ?_⟩
  rw [text, List.mem_append, List.mem_cons, List.mem_append, List.mem_cons]
  rintro (h | h | h | h | h)
  · exact hparts.1.1 h
  · exact absurd h (by decide)
  · exact hparts.1.2 h
  · exact absurd h (by decide)
  · exact hparts.2 h

/-! ## Lists of entries -/

/-- Pieces with semicolons between them, and the empty piece behind a last one. -/
def pieces (l : List Bytes) (trailing : Bool) : List Bytes := l ++ if trailing then [[]] else []

theorem splitOn_joined {x : Bytes} {l : List Bytes} (hx : char ';' ∉ x)
    (hl : ∀ y ∈ l, char ';' ∉ y) (trailing : Bool) :
    (x ++ l.flatMap (char ';' :: ·) ++ if trailing then str ";" else []).splitOn (char ';') =
      pieces (x :: l) trailing := by
  induction l generalizing x with
  | nil =>
      cases trailing with
      | false => simpa [pieces] using List.splitOn_eq_singleton hx
      | true =>
          rw [List.flatMap_nil, List.append_nil, if_pos rfl]
          change (x ++ char ';' :: []).splitOn (char ';') = _
          rw [List.splitOn_append_cons_self, List.splitOn_eq_singleton hx]
          rfl
  | cons y l ih =>
      rw [List.forall_mem_cons] at hl
      rw [List.flatMap_cons, List.cons_append, List.append_assoc, List.cons_append,
        List.splitOn_append_cons_self, List.splitOn_eq_singleton hx, ih hl.1 hl.2]
      rfl

/-- The pieces and the last semicolon can be told apart. -/
theorem pieces_inj {l l' : List Bytes} (hl : ∀ y ∈ l, y ≠ []) (hl' : ∀ y ∈ l', y ≠ [])
    {trailing trailing' : Bool} (h : pieces l trailing = pieces l' trailing') :
    l = l' := by
  have hmem : ∀ {l l' : List Bytes}, (∀ y ∈ l, y ≠ []) → l ≠ l' ++ [[]] := by
    rintro l l' hne rfl
    exact hne [] (List.mem_append_right _ (List.mem_singleton_self _)) rfl
  cases trailing <;> cases trailing'
  · simpa [pieces] using h
  · exact absurd ((List.append_nil l).symm.trans h) (hmem hl)
  · exact absurd ((List.append_nil l').symm.trans h.symm) (hmem hl')
  · exact List.append_cancel_right h

theorem counterText_cons (e : CounterEntry) (entries : List CounterEntry) (trailing : Bool) :
    counterText (e :: entries) trailing =
      e.text ++ (entries.map CounterEntry.text).flatMap (char ';' :: ·) ++
        if trailing then str ";" else [] := by
  have hjoin : ∀ (x : Bytes) (l : List Bytes),
      (str ";").intercalate (x :: l) = x ++ l.flatMap (char ';' :: ·) := by
    intro x l
    induction l generalizing x with
    | nil => simp
    | cons y l ih =>
        rw [List.intercalate_cons_cons, ih, List.flatMap_cons]
        simp [str]
  rw [counterText, List.map_cons, hjoin]

/-- Which lists of entries are accepted. -/
theorem acceptedCounter_cons_iff (e : CounterEntry) (entries : List CounterEntry)
    (trailing : Bool) : AcceptedCounter (counterText (e :: entries) trailing) ↔
      e.Lettered ∧ ∀ f ∈ e :: entries, f.WellFormed := by
  have htexts : ∀ y ∈ entries.map CounterEntry.text, y ≠ [] ∧ char ';' ∉ y := by
    intro y hy
    obtain ⟨f, -, rfl⟩ := List.mem_map.mp hy
    exact f.text_unseparated
  rw [acceptedCounter_iff, counterText_cons, List.forall_mem_cons]
  constructor
  · rintro ⟨x, hx, l, hl, trailing', htext⟩
    have hword := word_unseparated letters_subset hx
    have hwords : ∀ y ∈ l, y ≠ [] ∧ char ';' ∉ y := fun y hy =>
      word_unseparated (fun _ hc => hc) (hl y hy)
    have hpieces := congrArg (List.splitOn (char ';')) htext
    rw [splitOn_joined e.text_unseparated.2 fun y hy => (htexts y hy).2,
      splitOn_joined hword.2 fun y hy => (hwords y hy).2] at hpieces
    have hlists := pieces_inj
      (List.forall_mem_cons.mpr ⟨e.text_unseparated.1, fun y hy => (htexts y hy).1⟩)
      (List.forall_mem_cons.mpr ⟨hword.1, fun y hy => (hwords y hy).1⟩) hpieces
    obtain ⟨rfl, rfl⟩ := List.cons.inj hlists
    obtain ⟨hfirst, hlettered⟩ := e.first_iff.mp hx
    exact ⟨hlettered, hfirst, fun f hf => f.following_iff.mp (hl _ (List.mem_map_of_mem hf))⟩
  · rintro ⟨hlettered, hfirst, hrest⟩
    refine ⟨e.text, e.first_iff.mpr ⟨hfirst, hlettered⟩, entries.map CounterEntry.text, ?_,
      trailing, rfl⟩
    intro y hy
    obtain ⟨f, hf, rfl⟩ := List.mem_map.mp hy
    exact f.following_iff.mpr (hrest f hf)

/-- For every list of entries and every permutation of it, both are accepted or
neither is, exactly when some entry has no place in a Counter or the types of the
two first entries both have a digit or both have none. -/
theorem counter_perm_iff {entries entries' : List CounterEntry} (h : entries.Perm entries')
    (trailing : Bool) :
    (AcceptedCounter (counterText entries trailing) ↔
      AcceptedCounter (counterText entries' trailing)) ↔
    (∃ e ∈ entries, ¬ e.WellFormed) ∨
      ((∀ e ∈ entries.head?, e.Lettered) ↔ ∀ e ∈ entries'.head?, e.Lettered) := by
  cases entries with
  | nil =>
      obtain rfl := h.nil_eq
      simp
  | cons e entries =>
      obtain ⟨e', rest', rfl⟩ := List.exists_cons_of_ne_nil
        (fun hnil : entries' = [] => List.cons_ne_nil e entries (hnil ▸ h).eq_nil)
      have hall : (∀ f ∈ e' :: rest', f.WellFormed) ↔ ∀ f ∈ e :: entries, f.WellFormed :=
        ⟨fun hf f hmem => hf f (h.mem_iff.mp hmem), fun hf f hmem => hf f (h.mem_iff.mpr hmem)⟩
      rw [acceptedCounter_cons_iff, acceptedCounter_cons_iff, hall]
      by_cases hwell : ∀ f ∈ e :: entries, f.WellFormed
      · have hnone : ¬ ∃ f ∈ e :: entries, ¬ f.WellFormed := by
          rintro ⟨f, hf, hbad⟩
          exact hbad (hwell f hf)
        rw [and_iff_left hwell, and_iff_left hwell]
        simp only [hnone, false_or, List.head?_cons, Option.mem_some_iff, forall_eq']
      · have hsome : ∃ f ∈ e :: entries, ¬ f.WellFormed := by
          push Not at hwell
          exact hwell
        simp only [hwell, and_false, hsome, true_or]

theorem sample_unseparated : char ';' ∉ str "text" ++ str "html" ++ str "5" ∧
    char ';' ∉ str "x3d" ++ str "a" ++ str "1" ∧
    char ';' ∉ str "image" ++ str "png" ++ str "10" := by
  decide

def htmlEntry : CounterEntry := ⟨str "text", str "html", str "5", sample_unseparated.1⟩

/-- An entry with a digit in its type. -/
def modelEntry : CounterEntry := ⟨str "x3d", str "a", str "1", sample_unseparated.2.1⟩

def pngEntry : CounterEntry := ⟨str "image", str "png", str "10", sample_unseparated.2.2⟩

/-- Two entries without a digit in their types. -/
theorem counter_perm_png :
    (AcceptedCounter (counterText [htmlEntry, pngEntry] true) ↔
      AcceptedCounter (counterText [pngEntry, htmlEntry] true)) :=
  (counter_perm_iff (.swap pngEntry htmlEntry []) true).mpr (Or.inr (by
    simp only [List.head?_cons, Option.mem_some_iff, forall_eq']
    exact iff_of_true (forall_mem_of_all (by decide)) (forall_mem_of_all (by decide))))

/-- `text/html=5;x3d/a=1` is accepted and `x3d/a=1;text/html=5` is not. -/
theorem counter_order_matters : ¬ ∀ (entries entries' : List CounterEntry) (trailing : Bool),
    entries.Perm entries' → (AcceptedCounter (counterText entries trailing) ↔
      AcceptedCounter (counterText entries' trailing)) := by
  intro h
  have hwell : ∀ f ∈ [htmlEntry, modelEntry], f.WellFormed := by
    have hnonempty : ∀ f ∈ [htmlEntry, modelEntry], f.type ≠ [] ∧ f.subtype ≠ [] ∧ f.count ≠ [] := by
      simp [htmlEntry, modelEntry, str]
    have hchars : ∀ f ∈ [htmlEntry, modelEntry], (f.type.all (· ∈ typeChars) &&
        f.subtype.all (· ∈ subtypeChars) && f.count.all (· ∈ digits)) = true := by
      simp only [List.forall_mem_cons]
      exact ⟨by decide, by decide, fun f hf => absurd hf List.not_mem_nil⟩
    intro f hf
    have hparts := hchars f hf
    simp only [Bool.and_eq_true, List.all_eq_true, decide_eq_true_eq] at hparts
    obtain ⟨htype, hsubtype, hcount⟩ := hnonempty f hf
    exact ⟨⟨htype, hparts.1.1⟩, ⟨hsubtype, hparts.1.2⟩, hcount, hparts.2⟩
  have hlettered : htmlEntry.Lettered := forall_mem_of_all (by decide)
  have haccepted := (h [htmlEntry, modelEntry] [modelEntry, htmlEntry] false (.swap ..)).mp
    ((acceptedCounter_cons_iff ..).mpr ⟨hlettered, hwell⟩)
  have hdigit := ((acceptedCounter_cons_iff ..).mp haccepted).1
  exact hdigit (char '3') (by decide) (by decide)

end Metadata
end ZimTools
