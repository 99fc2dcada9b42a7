import Mathlib.Logic.Relation
import ZimTools.Tools.HtmlLinks

/-!
# Reads behind a page

`generic_getLinks` reads a page up to its NUL and no further, as long as it
comes to no attribute that the end of the page cuts off: behind the name of a
`href` or `src`, behind its `=`, or inside its value.  The pointer goes past the
NUL there, or a loop looks for a quote that is not in the page.

The invariant is that the NUL is still in front of the pointer (`Terminated`).
A pass keeps it unless the scan is stuck at such an attribute
(`pass_terminated`), and a stuck scan does read behind the page
(`pass_of_stuck`).
-/

namespace ZimTools

open Bytes
open Relation (ReflTransGen)

/-- The characters from a pointer on, with the NUL that ends the page. -/
def Terminated (p : Bytes) : Prop := ∃ r, p = r ++ [0]

/-- What is behind the name of an attribute is cut off by the end of the page. -/
inductive Cut : Bytes → Prop where
  | equals (n : Nat) : Cut (spaces n ++ [0])
  | quote (n m : Nat) : Cut (spaces n ++ char '=' :: (spaces m ++ [0]))
  | value (n m : Nat) {q : UInt8} {v : Bytes} (hq : IsQuote q) (hv : q ∉ v) :
      Cut (spaces n ++ char '=' :: (spaces m ++ q :: (v ++ [0])))

/-- An attribute that the end of the page cuts off. -/
def CutOff (p : Bytes) : Prop := ∃ (attr : AttributeKind) (rest : Bytes),
  p = attr.name ++ rest ∧ Cut rest

/-! ## The helpers -/

theorem Terminated.exists_cons {p : Bytes} (h : Terminated p) : ∃ c q, p = c :: q := by
  obtain ⟨r, rfl⟩ := h
  exact List.exists_cons_of_ne_nil (List.concat_ne_nil 0 r)

theorem not_terminated_nil : ¬ Terminated [] := by
  intro h
  obtain ⟨c, q, hq⟩ := h.exists_cons
  exact List.cons_ne_nil c q hq.symm

theorem Terminated.append {p : Bytes} (h : Terminated p) (a : Bytes) : Terminated (a ++ p) := by
  obtain ⟨r, rfl⟩ := h
  exact ⟨a ++ r, (List.append_assoc ..).symm⟩

theorem Terminated.of_cons {c : UInt8} {p : Bytes} (hc : c ≠ 0) (h : Terminated (c :: p)) :
    Terminated p := by
  obtain ⟨r, hr⟩ := h
  cases r with
  | nil => exact absurd (List.cons_eq_cons.mp hr).1 hc
  | cons d r => exact ⟨r, (List.cons_eq_cons.mp hr).2⟩

theorem Terminated.of_append {a p : Bytes} (ha : (0 : UInt8) ∉ a) (h : Terminated (a ++ p)) :
    Terminated p := by
  induction a with
  | nil => exact h
  | cons c a ih =>
      have hc : c ≠ 0 := fun hc => ha (hc ▸ List.mem_cons_self ..)
      exact ih (fun hmem => ha (List.mem_cons_of_mem _ hmem)) (h.of_cons hc)

theorem Terminated.of_ne_nil {a p : Bytes} (hp : p ≠ []) (h : Terminated (a ++ p)) :
    Terminated p := by
  obtain ⟨r, hr⟩ := h
  obtain ⟨p, c, rfl⟩ := (List.eq_nil_or_concat' p).resolve_left hp
  rw [← List.append_assoc] at hr
  obtain ⟨-, hc⟩ := List.append_inj' hr rfl
  exact ⟨p, by rw [List.singleton_inj.mp hc]⟩

theorem strncmp_terminated : ∀ {p s : Bytes}, Terminated p → (0 : UInt8) ∉ s →
    strncmp p s = some (s.isPrefixOf p)
  | p, [], _, _ => by simp [strncmp]
  | [], d :: s, h, _ => absurd h not_terminated_nil
  | c :: p, d :: s, h, hs => by
      rw [strncmp]
      split
      · next hcd =>
          have hc : c ≠ 0 := fun hc => hs (hc ▸ hcd ▸ List.mem_cons_self ..)
          rw [strncmp_terminated (h.of_cons hc) fun hmem => hs (List.mem_cons_of_mem _ hmem)]
          simp [hcd]
      · next hcd => simp [List.isPrefixOf, Ne.symm hcd]

theorem strncmp_of_not_prefix {p s : Bytes} (h : Terminated p) (hs : (0 : UInt8) ∉ s)
    (hpre : ¬ s <+: p) : strncmp p s = some false := by
  rw [strncmp_terminated h hs]
  exact congrArg some (Bool.eq_false_iff.mpr fun heq => hpre (List.isPrefixOf_iff_prefix.mp heq))

theorem strSkip_terminated {s : Bytes} (hs : (0 : UInt8) ∉ s) : ∀ {p : Bytes}, Terminated p →
    ∃ q, strSkipTillRightAfter s p = some q ∧ Terminated q
  | [], h => absurd h not_terminated_nil
  | c :: p, h => by
      rw [strSkipTillRightAfter, strncmp_terminated h hs]
      split
      · exact ⟨_, rfl, h⟩
      · next hc =>
          cases hpre : s.isPrefixOf (c :: p) with
          | true =>
              obtain ⟨q, hq⟩ := List.isPrefixOf_iff_prefix.mp hpre
              refine ⟨q, ?_, ?_⟩
              · simp [← hq]
              · rw [← hq] at h
                exact h.of_append hs
          | false =>
              obtain ⟨q, hq, hterm⟩ := strSkip_terminated hs (h.of_cons hc)
              exact ⟨q, by simpa using hq, hterm⟩

/-- Leading spaces. -/
theorem spaces_split (x : Bytes) :
    (∃ m, x = spaces m) ∨ ∃ m c y, x = spaces m ++ c :: y ∧ c ≠ char ' ' := by
  induction x with
  | nil => exact Or.inl ⟨0, rfl⟩
  | cons c x ih =>
      by_cases hc : c = char ' '
      · subst hc
        rcases ih with ⟨m, rfl⟩ | ⟨m, d, y, rfl, hd⟩
        · exact Or.inl ⟨m + 1, rfl⟩
        · exact Or.inr ⟨m + 1, d, y, rfl, hd⟩
      · exact Or.inr ⟨0, c, x, rfl, hc⟩

/-- The spaces of a page come to an end. -/
theorem exists_spaces {p : Bytes} (h : Terminated p) :
    ∃ n c q, p = spaces n ++ c :: q ∧ c ≠ char ' ' := by
  refine (spaces_split p).resolve_left ?_
  rintro ⟨m, rfl⟩
  obtain ⟨r, hr⟩ := h
  have hnul : (0 : UInt8) ∈ spaces m := hr ▸ List.mem_append_right r (List.mem_singleton_self 0)
  exact absurd (List.mem_replicate.mp hnul).2 (by decide)

/-- The last character of a page is its NUL. -/
theorem Terminated.singleton {c : UInt8} (h : Terminated [c]) : c = 0 := by
  obtain ⟨r, hr⟩ := h
  simpa using congrArg List.getLast? hr

/-! ## A pass -/

namespace LinkScan

/-- Behind a cut off attribute the scan reads behind the page, there or in the
next pass. -/
theorem value_of_cut {s : LinkScan} (h : Cut s.p) (attr : AttributeKind) :
    s.value attr = none ∨ ∃ s', s.value attr = some s' ∧ s'.p = [] := by
  generalize hp : s.p = p at h
  cases h with
  | equals n =>
      exact Or.inr ⟨_, value_of_ne_equals attr n hp (by decide) (by decide), rfl⟩
  | quote n m =>
      have hzero : ¬ IsQuote 0 := fun h => h.ne_zero rfl
      exact Or.inr ⟨_, value_of_ne_quote attr n m hp (by decide) hzero, rfl⟩
  | @value n m q v hq hv =>
      refine Or.inl (value_of_open attr n m hp hq fun hmem => ?_)
      rcases List.mem_append.mp hmem with hmem | hmem
      · exact hv hmem
      · exact hq.ne_zero (List.mem_singleton.mp hmem)

theorem value_terminated {s : LinkScan} (h : Terminated s.p) (attr : AttributeKind) :
    Cut s.p ∨ ∃ s', s.value attr = some s' ∧ Terminated s'.p := by
  obtain ⟨n, c, p, hp, hspace⟩ := exists_spaces h
  rw [hp] at h
  replace h := h.of_ne_nil (by simp)
  by_cases hc : c = char '='
  · subst hc
    obtain ⟨m, d, p, rfl, hspace'⟩ := exists_spaces (h.of_cons (by decide))
    replace h := (h.of_cons (by decide)).of_ne_nil (by simp)
    by_cases hd : IsQuote d
    · replace h := h.of_cons hd.ne_zero
      rcases mem_split d p with hopen | ⟨v, rest, rfl, hv⟩
      · obtain ⟨v, rfl⟩ := h
        rw [hp]
        exact Or.inl (.value n m hd fun hmem => hopen (List.mem_append_left _ hmem))
      · have hrest : Terminated (d :: rest) := h.of_ne_nil (by simp)
        exact Or.inr ⟨_, value_of_quoted attr n m hp hd hv, hrest.of_cons hd.ne_zero⟩
    · cases p with
      | nil =>
          obtain rfl := h.singleton
          rw [hp]
          exact Or.inl (.quote n m)
      | cons e p =>
          have hrest : Terminated (e :: p) := Terminated.of_ne_nil (a := [d]) (by simp) h
          exact Or.inr ⟨_, value_of_ne_quote attr n m hp hspace' hd, hrest⟩
  · cases p with
    | nil =>
        obtain rfl := h.singleton
        rw [hp]
        exact Or.inl (.equals n)
    | cons e p =>
        have hrest : Terminated (e :: p) := Terminated.of_ne_nil (a := [c]) (by simp) h
        exact Or.inr ⟨_, value_of_ne_equals attr n hp hspace hc, hrest⟩

theorem less_terminated {s : LinkScan} {p : Bytes} (hp : s.p = char '<' :: p)
    (h : Terminated s.p) : ∃ s', s.less = some s' ∧ Terminated s'.p := by
  rw [less, strncmp_terminated h (by decide), Option.bind_eq_bind, Option.bind_some]
  split
  · obtain ⟨q, hq, hterm⟩ := strSkip_terminated (s := str "-->") (by decide) h
    rw [hq]
    exact ⟨_, rfl, hterm⟩
  · have htail : Terminated p := by
      rw [hp] at h
      exact h.of_cons (by decide)
    simp only [hp, List.tail_cons]
    rw [strncmp_terminated htail (by decide), Option.bind_some]
    split
    · next hscript =>
        obtain ⟨q, rfl⟩ := List.isPrefixOf_iff_prefix.mp hscript
        have hq : Terminated q := htail.of_append (by decide)
        obtain ⟨c, q, rfl⟩ := hq.exists_cons
        have hc : (str "script" ++ c :: q)[6]? = some c := rfl
        have hdrop : (str "script" ++ c :: q).drop 6 = c :: q := rfl
        rw [hc, Option.bind_eq_bind, Option.bind_some]
        split
        · rw [hdrop]
          exact ⟨_, rfl, hq⟩
        · exact ⟨_, rfl, htail⟩
    · exact ⟨_, rfl, htail⟩

theorem greater_terminated {s : LinkScan} {p : Bytes} (hp : s.p = char '>' :: p)
    (h : Terminated s.p) : ∃ s', s.greater = some s' ∧ Terminated s'.p := by
  rw [greater]
  dsimp only
  split
  · obtain ⟨q, hq, hterm⟩ := strSkip_terminated (s := str "</script>") (by decide) h
    rw [hq]
    exact ⟨_, rfl, hterm⟩
  · rw [hp] at h ⊢
    exact ⟨_, rfl, h.of_cons (by decide)⟩

theorem insideTag_terminated {s : LinkScan} {c : UInt8} {p : Bytes} (hp : s.p = c :: p)
    (hc : c ≠ 0) (h : Terminated s.p) :
    CutOff s.p ∨ ∃ s', s.insideTag = some s' ∧ Terminated s'.p := by
  rw [insideTag, strncmp_terminated h (by decide), Option.bind_eq_bind, Option.bind_some]
  split
  · next hname =>
      obtain ⟨rest, hrest⟩ := List.isPrefixOf_iff_prefix.mp hname
      have hdrop : s.p.drop 5 = rest := by
        rw [← hrest]
        rfl
      rw [hdrop]
      have hterm : Terminated rest := by
        rw [← hrest] at h
        exact h.of_append (by decide)
      rcases value_terminated (s := { s with p := rest }) hterm .href with hcut | hvalue
      · exact Or.inl ⟨.href, rest, hrest.symm, hcut⟩
      · exact Or.inr hvalue
  · rw [strncmp_terminated h (by decide), Option.bind_some]
    split
    · next hname =>
        obtain ⟨rest, hrest⟩ := List.isPrefixOf_iff_prefix.mp hname
        have hdrop : s.p.drop 4 = rest := by
          rw [← hrest]
          rfl
        rw [hdrop]
        have hterm : Terminated rest := by
          rw [← hrest] at h
          exact h.of_append (by decide)
        rcases value_terminated (s := { s with p := rest }) hterm .src with hcut | hvalue
        · exact Or.inl ⟨.src, rest, hrest.symm, hcut⟩
        · exact Or.inr hvalue
    · rw [hp] at h ⊢
      exact Or.inr ⟨_, rfl, h.of_cons hc⟩

/-- Inside a tag, at an attribute that the end of the page cuts off. -/
def Stuck (s : LinkScan) : Prop := s.ltgtBalance = 1 ∧ CutOff s.p

/-- A pass that is not stuck ends the scan at the NUL or leaves it in front. -/
theorem pass_terminated {s : LinkScan} (h : Terminated s.p) (hs : ¬ s.Stuck) :
    (∃ links, s.pass = .inr (some links)) ∨ ∃ s', s.pass = .inl s' ∧ Terminated s'.p := by
  cases hp : s.p with
  | nil => exact absurd (hp ▸ h) not_terminated_nil
  | cons c p =>
      by_cases hc : c = 0
      · refine Or.inl ⟨s.links, ?_⟩
        simp [pass, hp, hc]
      · suffices hnext : ∃ s', s.next c = some s' ∧ Terminated s'.p by
          obtain ⟨s', hnext, hterm⟩ := hnext
          refine Or.inr ⟨s', ?_, hterm⟩
          simp [pass, hp, hc, hnext]
        rw [next]
        split
        · next hless => exact less_terminated (hless ▸ hp) h
        · split
          · next hgreater => exact greater_terminated (hgreater ▸ hp) h
          · split
            · rw [hp] at h
              exact ⟨_, rfl, by simpa [hp] using h.of_cons hc⟩
            · next hbalance =>
                rcases insideTag_terminated hp hc h with hcut | htag
                · exact absurd ⟨not_not.mp hbalance, hcut⟩ hs
                · exact htag

/-- A stuck scan reads behind the page. -/
theorem pass_of_stuck {s : LinkScan} (h : s.Stuck) :
    s.pass = .inr none ∨ ∃ s', s.pass = .inl s' ∧ s'.p = [] := by
  obtain ⟨hbalance, attr, rest, hp, hcut⟩ := h
  have htag : s.insideTag = none ∨ ∃ s', s.insideTag = some s' ∧ s'.p = [] := by
    rw [insideTag_name attr hp]
    exact value_of_cut hcut attr
  have hhead : s.p.head? = some (char ' ') := by
    rw [hp]
    cases attr <;> rfl
  have hnext : s.next (char ' ') = s.insideTag := by
    rw [next, if_neg (by decide), if_neg (by decide), if_neg (not_not.mpr hbalance)]
  rw [pass, hhead]
  dsimp only
  rw [if_neg (by decide), hnext]
  rcases htag with hnone | ⟨s', hs', hempty⟩
  · exact Or.inl (by rw [hnone])
  · exact Or.inr ⟨s', by rw [hs'], hempty⟩

end LinkScan

/-! ## The scan -/

/-- Passes lead from a state to another. -/
abbrev LinkScan.Steps : LinkScan → LinkScan → Prop := ReflTransGen fun s s' => s.pass = .inl s'

/-- The scan of a page comes to the state `s`. -/
def Visits (page : Bytes) (s : LinkScan) : Prop := LinkScan.Steps (.start page) s

/-- The scan reads behind the page exactly when it gets stuck. -/
theorem run_eq_none_iff : ∀ {fuel : Nat} {s : LinkScan} {r : Option (List HtmlLink)},
    Terminated s.p → Loop.run LinkScan.pass fuel s = some r →
    (r = none ↔ ∃ s', s.Steps s' ∧ s'.Stuck)
  | 0, _, _, _, h => nomatch h
  | fuel + 1, s, r, hterm, h => by
      by_cases hs : s.Stuck
      · refine ⟨fun _ => ⟨s, .refl, hs⟩, fun _ => ?_⟩
        rcases LinkScan.pass_of_stuck hs with hpass | ⟨s', hpass, hempty⟩
        · rw [Loop.run_succ_inr fuel hpass] at h
          exact (Option.some.inj h).symm
        · rw [Loop.run_succ_inl fuel hpass] at h
          cases fuel with
          | zero => exact nomatch h
          | succ fuel =>
              rw [Loop.run_succ_inr (r := none) fuel (by simp [LinkScan.pass, hempty])] at h
              exact (Option.some.inj h).symm
      · rcases LinkScan.pass_terminated hterm hs with ⟨links, hpass⟩ | ⟨s', hpass, hterm'⟩
        · rw [Loop.run_succ_inr fuel hpass] at h
          rw [← Option.some.inj h]
          refine ⟨fun hnone => absurd hnone (Option.some_ne_none links), fun hstuck => ?_⟩
          obtain ⟨s', hreach, hstuck⟩ := hstuck
          rcases hreach.cases_head with rfl | ⟨s₁, hstep, -⟩
          · exact absurd hstuck hs
          · exact absurd (hpass.symm.trans hstep) Sum.inr_ne_inl
        · rw [Loop.run_succ_inl fuel hpass] at h
          rw [run_eq_none_iff hterm' h]
          constructor
          · rintro ⟨s₂, hreach, hstuck⟩
            exact ⟨s₂, .head hpass hreach, hstuck⟩
          · rintro ⟨s₂, hreach, hstuck⟩
            rcases hreach.cases_head with rfl | ⟨s₁, hstep, hreach⟩
            · exact absurd hstuck hs
            · obtain rfl := Sum.inl.inj (hpass.symm.trans hstep)
              exact ⟨s₂, hreach, hstuck⟩

/-- For every page the scan ends, and it stays within the page if and only if it
comes, inside a tag, to no attribute that the end of the page cuts off. -/
theorem links_in_bounds_iff (page : Bytes) :
    (genericGetLinks page).isSome = true ↔ ∀ s, Visits page s → ¬ s.Stuck := by
  have hrun : Loop.run LinkScan.pass (page.length + 2) (.start page) =
      some (genericGetLinks page) := (Option.some_get _).symm
  have hiff := run_eq_none_iff ⟨page, rfl⟩ hrun
  rw [Option.isSome_iff_ne_none, ne_eq, hiff]
  simp only [not_exists, not_and]
  rfl

/-- A tag that the end of the page cuts off behind the name of its attribute. -/
theorem links_out_of_bounds : ¬ ∀ page, (genericGetLinks page).isSome = true := by
  intro h
  exact absurd (h (str "<a href")) (by decide)

end ZimTools
