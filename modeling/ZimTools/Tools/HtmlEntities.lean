import ZimTools.Tools.HtmlLinks

/-!
# Character references

`decodeHtmlEntities` keeps the text from the last `&` on until it knows whether a
character reference begins there.  It is the substitution of the references in
one pass (`Substitutes`), and so it undoes the escaping of the characters that
have one.
-/

namespace ZimTools

open Bytes

/-! ## References -/

/-- The names of the character references, with their characters. -/
def htmlEntities : List (Bytes × UInt8) :=
  [(str "amp", char '&'), (str "apos", char '\''), (str "quot", char '"'), (str "lt", char '<'),
    (str "gt", char '>')]

/-- A character reference begins a text. -/
def BeginsReference (s : Bytes) : Prop :=
  ∃ name c t, (name, c) ∈ htmlEntities ∧ s = char '&' :: (name ++ char ';' :: t)

/-- What a text is when its character references are replaced, from left to
right and once. -/
inductive Substitutes : Bytes → Bytes → Prop where
  | nil : Substitutes [] []
  | reference {name : Bytes} {c : UInt8} {s r : Bytes} (hentity : (name, c) ∈ htmlEntities)
      (rest : Substitutes s r) : Substitutes (char '&' :: (name ++ char ';' :: s)) (c :: r)
  | copy {c : UInt8} {s r : Bytes} (hc : ¬ BeginsReference (c :: s)) (rest : Substitutes s r) :
      Substitutes (c :: s) (c :: r)

/-- The reference of a character that has one, and any other character as it is. -/
def escapeHtml (c : UInt8) : Bytes :=
  match htmlEntities.find? (·.2 = c) with
  | some entity => char '&' :: (entity.1 ++ [char ';'])
  | none => [c]

/-- A name holds neither the sign that begins a reference nor the one that ends it. -/
theorem htmlEntities_plain : ∀ entity ∈ htmlEntities,
    char '&' ∉ entity.1 ∧ char ';' ∉ entity.1 := by
  decide

theorem getHtmlEntity_of_mem : ∀ entity ∈ htmlEntities,
    getHtmlEntity entity.1 = some [entity.2] := by
  decide

theorem getHtmlEntity_eq_none {name : Bytes} (h : ∀ c, (name, c) ∉ htmlEntities) :
    getHtmlEntity name = none := by
  have hne : ∀ entity ∈ htmlEntities, name ≠ entity.1 := fun entity hentity heq =>
    h entity.2 (heq ▸ hentity)
  simp only [htmlEntities, List.forall_mem_cons] at hne
  simp [getHtmlEntity, hne]

/-! ## Copied texts -/

namespace Substitutes

theorem of_copy {c : UInt8} {s r : Bytes} (h : Substitutes (c :: s) r)
    (hc : ¬ BeginsReference (c :: s)) : ∃ r', r = c :: r' ∧ Substitutes s r' := by
  cases h with
  | reference hentity rest => exact absurd ⟨_, _, _, hentity, rfl⟩ hc
  | copy _ rest => exact ⟨_, rfl, rest⟩

theorem of_append {u s r : Bytes} (hu : char '&' ∉ u) (h : Substitutes (u ++ s) r) :
    ∃ r', r = u ++ r' ∧ Substitutes s r' := by
  induction u generalizing r with
  | nil => exact ⟨r, rfl, h⟩
  | cons c u ih =>
      have hc : ¬ BeginsReference (c :: (u ++ s)) := by
        rintro ⟨name, d, t, -, heq⟩
        exact hu ((List.cons.inj heq).1 ▸ List.mem_cons_self ..)
      obtain ⟨r₁, rfl, h₁⟩ := h.of_copy hc
      obtain ⟨r₂, rfl, h₂⟩ := ih (fun hmem => hu (List.mem_cons_of_mem c hmem)) h₁
      exact ⟨r₂, rfl, h₂⟩

theorem of_reference {name : Bytes} {c : UInt8} {s r : Bytes} (hentity : (name, c) ∈ htmlEntities)
    (h : Substitutes (char '&' :: (name ++ char ';' :: s)) r) :
    ∃ r', r = c :: r' ∧ Substitutes s r' := by
  generalize htext : char '&' :: (name ++ char ';' :: s) = text at h
  cases h with
  | nil => exact absurd htext (List.cons_ne_nil _ _)
  | @reference name' d t r' hentity' rest =>
      obtain ⟨rfl, -, rfl⟩ := append_cons_inj (htmlEntities_plain _ hentity').2
        (htmlEntities_plain _ hentity).2 (List.cons.inj htext).2
      have hc : getHtmlEntity name = some [c] := getHtmlEntity_of_mem (name, c) hentity
      have hd : getHtmlEntity name = some [d] := getHtmlEntity_of_mem (name, d) hentity'
      obtain rfl : c = d := List.singleton_inj.mp (Option.some.inj (hc.symm.trans hd))
      exact ⟨r', rfl, rest⟩
  | copy hc rest => exact absurd ⟨name, c, s, hentity, htext.symm⟩ hc

/-- What follows an ampersand that begins no reference is kept with it. -/
theorem of_kept {u s r : Bytes} (hc : ¬ BeginsReference (char '&' :: (u ++ s)))
    (hamp : char '&' ∉ u) (h : Substitutes (char '&' :: (u ++ s)) r) :
    ∃ r', r = char '&' :: (u ++ r') ∧ Substitutes s r' := by
  obtain ⟨r₁, rfl, h₁⟩ := h.of_copy hc
  obtain ⟨r₂, rfl, h₂⟩ := h₁.of_append hamp
  exact ⟨r₂, rfl, h₂⟩

/-- Every text has a substitution. -/
theorem exists_substitutes (s : Bytes) : ∃ r, Substitutes s r := by
  by_cases href : BeginsReference s
  · obtain ⟨name, c, t, hentity, rfl⟩ := href
    obtain ⟨r, hr⟩ := exists_substitutes t
    exact ⟨c :: r, .reference hentity hr⟩
  · cases s with
    | nil => exact ⟨[], .nil⟩
    | cons c s =>
        obtain ⟨r, hr⟩ := exists_substitutes s
        exact ⟨c :: r, .copy href hr⟩
termination_by s.length
decreasing_by
  all_goals subst_vars; simp only [List.length_cons, List.length_append]; omega

end Substitutes

/-! ## The loop -/

/-- The loop over the rest of a string, from its state. -/
def decodeFrom (result : Bytes) (start : Option Bytes) (s : Bytes) : Bytes :=
  (s.foldl decodeHtmlEntity (result, start)).1 ++
    (s.foldl decodeHtmlEntity (result, start)).2.getD []

theorem decodeFrom_cons (result : Bytes) (start : Option Bytes) (c : UInt8) (s : Bytes) :
    decodeFrom result start (c :: s) =
      decodeFrom (decodeHtmlEntity (result, start) c).1 (decodeHtmlEntity (result, start) c).2 s :=
  rfl

/-- A semicolon ends the text that was kept, and replaces it when it names an entity. -/
theorem decodeFrom_semicolon {s result u r : Bytes}
    (hrest : ∀ {result r : Bytes}, Substitutes s r → decodeFrom result none s = result ++ r)
    (hamp : char '&' ∉ u) (hsemi : char ';' ∉ u)
    (h : Substitutes (char '&' :: (u ++ char ';' :: s)) r) :
    decodeFrom result (some (char '&' :: u)) (char ';' :: s) = result ++ r := by
  have hne : char ';' ≠ char '&' := by decide
  rw [decodeFrom_cons]
  by_cases hentity : ∃ d, (u, d) ∈ htmlEntities
  · obtain ⟨d, hd⟩ := hentity
    obtain ⟨r', rfl, h'⟩ := h.of_reference hd
    have hstep : decodeHtmlEntity (result, some (char '&' :: u)) (char ';') =
        (result ++ [d], none) := by
      simp [decodeHtmlEntity, hne, getHtmlEntity_of_mem _ hd]
    rw [hstep, hrest h', List.append_assoc]
    rfl
  · push Not at hentity
    have hbegin : ¬ BeginsReference (char '&' :: (u ++ char ';' :: s)) := by
      rintro ⟨name, d, t, hmem, heq⟩
      obtain ⟨rfl, -, -⟩ := append_cons_inj (htmlEntities_plain _ hmem).2 hsemi
        (List.cons.inj heq).2
      exact hentity d hmem
    have hstep : decodeHtmlEntity (result, some (char '&' :: u)) (char ';') =
        (result ++ (char '&' :: u ++ [char ';']), none) := by
      simp [decodeHtmlEntity, hne, getHtmlEntity_eq_none hentity]
    obtain ⟨r₁, rfl, h₁⟩ := h.of_kept hbegin hamp
    obtain ⟨r₂, rfl, h₂⟩ := h₁.of_append (u := [char ';']) (by decide)
    rw [hstep, hrest h₂]
    simp

theorem decodeFrom_ampersand {s result u r : Bytes}
    (hrest : ∀ {result r : Bytes}, Substitutes (char '&' :: s) r →
      decodeFrom result (some [char '&']) s = result ++ r)
    (hamp : char '&' ∉ u) (hsemi : char ';' ∉ u)
    (h : Substitutes (char '&' :: (u ++ char '&' :: s)) r) :
    decodeFrom result (some (char '&' :: u)) (char '&' :: s) = result ++ r := by
  have hbegin : ¬ BeginsReference (char '&' :: (u ++ char '&' :: s)) := by
    rintro ⟨name, d, t, hentity, heq⟩
    obtain ⟨-, hbad, -⟩ := append_cons_inj (htmlEntities_plain _ hentity).1 hsemi
      (List.cons.inj heq).2
    exact absurd hbad (by decide)
  obtain ⟨r', rfl, h'⟩ := h.of_kept hbegin hamp
  rw [decodeFrom_cons]
  simp only [decodeHtmlEntity, if_true, Option.getD_some]
  rw [hrest h', List.append_assoc]
  rfl

/-- Neither kept text nor the rest of the string is lost. -/
theorem decodeFrom_substitutes {s : Bytes} :
    (∀ {result r : Bytes}, Substitutes s r → decodeFrom result none s = result ++ r) ∧
      ∀ {result u r : Bytes}, char '&' ∉ u → char ';' ∉ u →
        Substitutes (char '&' :: (u ++ s)) r →
          decodeFrom result (some (char '&' :: u)) s = result ++ r := by
  induction s with
  | nil =>
      constructor
      · intro result r h
        cases h
        rfl
      · intro result u r hamp hsemi h
        have hbegin : ¬ BeginsReference (char '&' :: (u ++ [])) := by
          rintro ⟨name, d, t, -, heq⟩
          rw [List.append_nil] at heq
          refine hsemi ((List.cons.inj heq).2 ▸ ?_)
          exact List.mem_append_right _ (List.mem_cons_self ..)
        obtain ⟨r', rfl, h'⟩ := h.of_kept hbegin hamp
        cases h'
        rw [List.append_nil]
        rfl
  | cons c s ih =>
      obtain ⟨ihnone, ihsome⟩ := ih
      constructor
      · intro result r h
        rw [decodeFrom_cons]
        by_cases hc : c = char '&'
        · subst hc
          simp only [decodeHtmlEntity, if_true, Option.getD_none, List.append_nil]
          exact ihsome (u := []) List.not_mem_nil List.not_mem_nil h
        · have hplain : char '&' ∉ [c] := fun hmem => hc (List.mem_singleton.mp hmem).symm
          obtain ⟨r', rfl, h'⟩ := h.of_append (u := [c]) hplain
          simp only [decodeHtmlEntity, if_neg hc]
          rw [ihnone h', List.append_assoc]
      · intro result u r hamp hsemi h
        by_cases hc : c = char '&'
        · subst hc
          exact decodeFrom_ampersand (ihsome List.not_mem_nil List.not_mem_nil) hamp hsemi h
        · by_cases hend : c = char ';'
          · subst hend
            exact decodeFrom_semicolon ihnone hamp hsemi h
          · have hstep : decodeHtmlEntity (result, some (char '&' :: u)) c =
                (result, some (char '&' :: (u ++ [c]))) := by
              simp [decodeHtmlEntity, hc, hend]
            rw [decodeFrom_cons, hstep]
            refine ihsome ?_ ?_ ?_
            · simp [hamp, Ne.symm hc]
            · simp [hsemi, Ne.symm hend]
            · rwa [List.append_assoc]

theorem htmlEntities_nul : ∀ entity ∈ htmlEntities, 0 ∉ entity.1 := by decide

theorem notMem_escapeHtml {c : UInt8} (hc : c ≠ 0) : 0 ∉ escapeHtml c := by
  rw [escapeHtml]
  cases hfind : htmlEntities.find? (·.2 = c) with
  | some entity =>
      have hname := htmlEntities_nul entity (List.mem_of_find?_eq_some hfind)
      simp [hname, char]
  | none => simpa using hc.symm

/-- The escapes of a text are replaced by its characters. -/
theorem substitutes_escapeHtml (s : Bytes) : Substitutes (s.flatMap escapeHtml) s := by
  induction s with
  | nil => exact .nil
  | cons c s ih =>
      rw [List.flatMap_cons, escapeHtml]
      cases hfind : htmlEntities.find? (·.2 = c) with
      | some entity =>
          obtain ⟨name, d⟩ := entity
          obtain rfl : d = c := by simpa using List.find?_some hfind
          have hmem := List.mem_of_find?_eq_some hfind
          dsimp only
          rw [List.cons_append, List.append_assoc]
          exact .reference hmem ih
      | none =>
          have hplain : c ≠ char '&' := by
            rintro rfl
            exact absurd hfind (by decide)
          refine .copy ?_ ih
          rintro ⟨name, d, t, -, heq⟩
          exact hplain (List.cons.inj heq).1

/-- On a string without NUL the loop is the substitution of its references, and
it undoes the escaping of the characters that have one. -/
theorem decodeHtmlEntities_substitutes {s : Bytes} (hs : 0 ∉ s) :
    (∀ r, Substitutes s r ↔ r = decodeHtmlEntities s) ∧
      decodeHtmlEntities (s.flatMap escapeHtml) = s := by
  have hdecode : ∀ {t r : Bytes}, 0 ∉ t → Substitutes t r → r = decodeHtmlEntities t := by
    intro t r ht h
    have hrun : decodeFrom [] none t = [] ++ r := decodeFrom_substitutes.1 h
    rw [List.nil_append] at hrun
    rw [← hrun, decodeHtmlEntities, cStr_of_notMem ht]
    rfl
  constructor
  · intro r
    constructor
    · exact hdecode hs
    · rintro rfl
      obtain ⟨r, hr⟩ := Substitutes.exists_substitutes s
      rwa [← hdecode hs hr]
  · refine (hdecode ?_ (substitutes_escapeHtml s)).symm
    intro hmem
    obtain ⟨c, hc, hnul⟩ := List.mem_flatMap.mp hmem
    exact notMem_escapeHtml (fun heq => hs (heq ▸ hc)) hnul

theorem decodeHtmlEntities_substitutes_sample :
    decodeHtmlEntities (str "a&lt;&amp;&quot;lt;") = str "a<&\"lt;" :=
  (decodeHtmlEntities_substitutes (s := str "a<&\"lt;") (by decide)).2

example : decodeHtmlEntities (str "&nbsp;&am&lt;&amp;gt;&quot") = str "&nbsp;&am<&gt;&quot" := by
  decide

end ZimTools
