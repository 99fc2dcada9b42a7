import ZimTools.Tools.LinkBounds

/-!
# What a pass does

Every case of a pass of `generic_getLinks` is a constructor of `Goes`, with the
characters that the pass goes over written out.  As long as the NUL is in front
of the pointer, `Goes` and the code agree (`goes_of_pass`, `pass_of_goes`), and what
follows about the scan is said of its constructors.
-/

namespace ZimTools

open Bytes
open Relation (ReflTransGen)

/-- What `<` is followed by at the start of a script. -/
def IsScript (t : Bytes) : Prop := str "script>" <+: t ∨ str "script " <+: t

namespace LinkScan

/-- A pass of the main loop. -/
inductive Goes : LinkScan → LinkScan → Prop where
  | comment {p q : Bytes} {balance : Int32} {script : Bool} {links : List HtmlLink}
      (h : strSkipTillRightAfter (str "-->") (str "<!--" ++ p) = some q) :
      Goes ⟨str "<!--" ++ p, balance, script, links⟩ ⟨q, balance, script, links⟩
  | less {p : Bytes} {balance : Int32} {script : Bool} {links : List HtmlLink}
      (hcomment : ¬ str "!--" <+: p) (hscript : ¬ IsScript p) :
      Goes ⟨char '<' :: p, balance, script, links⟩ ⟨p, balance + 1, script, links⟩
  | script {c : UInt8} {p : Bytes} {balance : Int32} {script : Bool} {links : List HtmlLink}
      (hc : c = char '>' ∨ c = char ' ') :
      Goes ⟨str "<script" ++ c :: p, balance, script, links⟩ ⟨c :: p, balance + 1, true, links⟩
  | greater {p : Bytes} {balance : Int32} {links : List HtmlLink} :
      Goes ⟨char '>' :: p, balance, false, links⟩ ⟨p, balance - 1, false, links⟩
  | endScript {p q : Bytes} {balance : Int32} {links : List HtmlLink}
      (h : strSkipTillRightAfter (str "</script>") (char '>' :: p) = some q) :
      Goes ⟨char '>' :: p, balance, true, links⟩ ⟨q, balance - 1, false, links⟩
  | outside {c : UInt8} {p : Bytes} {balance : Int32} {script : Bool} {links : List HtmlLink}
      (hc : c ≠ char '<' ∧ c ≠ char '>' ∧ c ≠ 0) (hbalance : balance ≠ 1) :
      Goes ⟨c :: p, balance, script, links⟩ ⟨p, balance, script, links⟩
  | skip {c : UInt8} {p : Bytes} {script : Bool} {links : List HtmlLink}
      (hc : c ≠ char '<' ∧ c ≠ char '>' ∧ c ≠ 0)
      (hname : ∀ attr : AttributeKind, ¬ attr.name <+: c :: p) :
      Goes ⟨c :: p, 1, script, links⟩ ⟨p, 1, script, links⟩
  | valueless (attr : AttributeKind) (n : Nat) {c : UInt8} {p : Bytes} {script : Bool}
      {links : List HtmlLink} (hspace : c ≠ char ' ') (hc : c ≠ char '=') :
      Goes ⟨attr.name ++ (spaces n ++ c :: p), 1, script, links⟩ ⟨p, 1, script, links⟩
  | unquoted (attr : AttributeKind) (n m : Nat) {c : UInt8} {p : Bytes} {script : Bool}
      {links : List HtmlLink} (hspace : c ≠ char ' ') (hc : ¬ IsQuote c) :
      Goes ⟨attr.name ++ (spaces n ++ char '=' :: (spaces m ++ c :: p)), 1, script, links⟩
        ⟨p, 1, script, links⟩
  | link (attr : AttributeKind) (n m : Nat) {q : UInt8} {v p : Bytes} {script : Bool}
      {links : List HtmlLink} (hq : IsQuote q) (hv : q ∉ v) :
      Goes ⟨attr.name ++ (spaces n ++ char '=' :: (spaces m ++ q :: (v ++ q :: p))), 1, script, links⟩
        ⟨p, 1, script, links ++ [⟨attr, decodeHtmlEntities v⟩]⟩

/-! ## From the code -/

theorem pass_cons {c : UInt8} {p : Bytes} {balance : Int32} {script : Bool} {links : List HtmlLink}
    {s' : LinkScan} :
    pass ⟨c :: p, balance, script, links⟩ = .inl s' ↔
      c ≠ 0 ∧ next ⟨c :: p, balance, script, links⟩ c = some s' := by
  simp only [pass, List.head?_cons]
  split
  · next hc => simp [hc]
  · next hc => cases next ⟨c :: p, balance, script, links⟩ c <;> simp [hc]

variable {p : Bytes} {balance : Int32} {script : Bool} {links : List HtmlLink} {s' : LinkScan}

theorem goes_of_value {attr : AttributeKind} (hterm : Terminated p)
    (h : value ⟨p, 1, script, links⟩ attr = some s') :
    Goes ⟨attr.name ++ p, 1, script, links⟩ s' := by
  obtain ⟨n, c, q, rfl, hspace⟩ := exists_spaces hterm
  replace hterm := hterm.of_ne_nil (List.cons_ne_nil c q)
  by_cases hc : c = char '='
  · subst hc
    obtain ⟨m, d, r, rfl, hspace'⟩ := exists_spaces (hterm.of_cons (by decide))
    by_cases hd : IsQuote d
    · rcases mem_split d r with hopen | ⟨v, rest, rfl, hv⟩
      · rw [value_of_open attr n m rfl hd hopen] at h
        exact absurd h.symm (Option.some_ne_none s')
      · rw [value_of_quoted attr n m rfl hd hv] at h
        obtain rfl := Option.some.inj h
        exact .link attr n m hd hv
    · rw [value_of_ne_quote attr n m rfl hspace' hd] at h
      obtain rfl := Option.some.inj h
      exact .unquoted attr n m hspace' hd
  · rw [value_of_ne_equals attr n rfl hspace hc] at h
    obtain rfl := Option.some.inj h
    exact .valueless attr n hspace hc

theorem goes_of_insideTag {c : UInt8} (hterm : Terminated (c :: p))
    (hc : c ≠ char '<' ∧ c ≠ char '>' ∧ c ≠ 0)
    (h : insideTag ⟨c :: p, 1, script, links⟩ = some s') :
    Goes ⟨c :: p, 1, script, links⟩ s' := by
  by_cases hname : ∃ attr : AttributeKind, attr.name <+: c :: p
  · obtain ⟨attr, rest, hrest⟩ := hname
    have hnul : (0 : UInt8) ∉ attr.name := by cases attr <;> decide
    rw [insideTag_name attr hrest.symm] at h
    rw [← hrest] at hterm ⊢
    exact goes_of_value (hterm.of_append hnul) h
  · have hnone (attr : AttributeKind) : strncmp (c :: p) attr.name = some false :=
      strncmp_of_not_prefix hterm (by cases attr <;> decide) fun hpre => hname ⟨attr, hpre⟩
    have hhref : strncmp (c :: p) (str " href") = some false := hnone .href
    have hsrc : strncmp (c :: p) (str " src") = some false := hnone .src
    rw [insideTag, hhref, hsrc] at h
    obtain rfl : (⟨p, 1, script, links⟩ : LinkScan) = s' := Option.some.inj h
    exact .skip hc fun attr hattr => hname ⟨attr, hattr⟩

/-- A script starts with its name, and a `>` or a space behind it. -/
theorem isScript_iff {p : Bytes} :
    IsScript p ↔ ∃ c q, p = str "script" ++ c :: q ∧ (c = char '>' ∨ c = char ' ') := by
  constructor
  · rintro (⟨q, rfl⟩ | ⟨q, rfl⟩)
    · exact ⟨char '>', q, rfl, Or.inl rfl⟩
    · exact ⟨char ' ', q, rfl, Or.inr rfl⟩
  · rintro ⟨c, q, rfl, rfl | rfl⟩
    · exact Or.inl ⟨q, rfl⟩
    · exact Or.inr ⟨q, rfl⟩

theorem goes_of_less (hterm : Terminated (char '<' :: p))
    (h : less ⟨char '<' :: p, balance, script, links⟩ = some s') :
    Goes ⟨char '<' :: p, balance, script, links⟩ s' := by
  rw [less, strncmp_terminated hterm (by decide), Option.bind_eq_bind, Option.bind_some] at h
  split at h
  · next hcomment =>
      obtain ⟨q, hq⟩ := List.isPrefixOf_iff_prefix.mp hcomment
      obtain ⟨r, hr, h⟩ := Option.bind_eq_some_iff.mp h
      obtain rfl := Option.some.inj h
      rw [← hq] at hr ⊢
      exact .comment hr
  · next hcomment =>
      have hdash : ¬ str "!--" <+: p := fun hpre =>
        hcomment (List.isPrefixOf_iff_prefix.mpr (List.cons_prefix_cons.mpr ⟨rfl, hpre⟩))
      have htail := hterm.of_cons (by decide)
      simp only [List.tail_cons] at h
      rw [strncmp_terminated htail (by decide), Option.bind_some] at h
      split at h
      · next hscript =>
          obtain ⟨q, rfl⟩ := List.isPrefixOf_iff_prefix.mp hscript
          have hq : Terminated q := htail.of_append (by decide)
          obtain ⟨c, q, rfl⟩ := hq.exists_cons
          have hget : (str "script" ++ c :: q)[6]? = some c := rfl
          have hdrop : (str "script" ++ c :: q).drop 6 = c :: q := rfl
          rw [hget, Option.bind_eq_bind, Option.bind_some] at h
          split at h
          · next hc =>
              rw [hdrop] at h
              obtain rfl := Option.some.inj h
              exact .script hc
          · next hc =>
              obtain rfl := Option.some.inj h
              refine .less hdash fun hscript' => hc ?_
              obtain ⟨d, r, hr, hd⟩ := isScript_iff.mp hscript'
              obtain ⟨rfl, -⟩ := List.cons_eq_cons.mp (List.append_cancel_left hr)
              exact hd
      · next hscript =>
          obtain rfl := Option.some.inj h
          refine .less hdash fun hscript' => hscript ?_
          obtain ⟨c, q, rfl, -⟩ := isScript_iff.mp hscript'
          exact List.isPrefixOf_iff_prefix.mpr (List.prefix_append ..)

theorem goes_of_greater (h : greater ⟨char '>' :: p, balance, script, links⟩ = some s') :
    Goes ⟨char '>' :: p, balance, script, links⟩ s' := by
  cases script with
  | true =>
      simp only [greater, if_true, Option.bind_eq_bind] at h
      obtain ⟨q, hq, h⟩ := Option.bind_eq_some_iff.mp h
      obtain rfl := Option.some.inj h
      exact .endScript hq
  | false =>
      obtain rfl : (⟨p, balance - 1, false, links⟩ : LinkScan) = s' := Option.some.inj h
      exact .greater

theorem goes_of_pass {s s' : LinkScan} (hterm : Terminated s.p) (h : s.pass = .inl s') :
    Goes s s' := by
  obtain ⟨p, balance, script, links⟩ := s
  obtain ⟨c, p, rfl⟩ := hterm.exists_cons
  obtain ⟨hc, hnext⟩ := pass_cons.mp h
  rw [next] at hnext
  split_ifs at hnext with hless hgreater hbalance
  · subst hless
    exact goes_of_less hterm hnext
  · subst hgreater
    exact goes_of_greater hnext
  · obtain rfl := Option.some.inj hnext
    exact .outside ⟨hless, hgreater, hc⟩ hbalance
  · obtain rfl : balance = 1 := not_not.mp hbalance
    exact goes_of_insideTag hterm ⟨hless, hgreater, hc⟩ hnext

/-! ## To the code -/

/-- At the name of a link attribute a pass is what is made of its value. -/
theorem pass_name {attr : AttributeKind} :
    pass ⟨attr.name ++ p, 1, script, links⟩ =
      match value ⟨p, 1, script, links⟩ attr with
      | none => .inr none
      | some s' => .inl s' := by
  have htag : next ⟨attr.name ++ p, 1, script, links⟩ (char ' ') =
      value ⟨p, 1, script, links⟩ attr := insideTag_name attr rfl
  rw [← htag, attr.name_cons]
  rfl

theorem pass_attribute {attr : AttributeKind}
    (h : value ⟨p, 1, script, links⟩ attr = some s') :
    pass ⟨attr.name ++ p, 1, script, links⟩ = .inl s' := by
  rw [pass_name, h]

/-- At any other character inside a tag it goes on. -/
theorem pass_skip {c : UInt8} (hterm : Terminated (c :: p))
    (hc : c ≠ char '<' ∧ c ≠ char '>' ∧ c ≠ 0)
    (hname : ∀ attr : AttributeKind, ¬ attr.name <+: c :: p) :
    pass ⟨c :: p, 1, script, links⟩ = .inl ⟨p, 1, script, links⟩ := by
  have hnone (attr : AttributeKind) : strncmp (c :: p) attr.name = some false :=
    strncmp_of_not_prefix hterm (by cases attr <;> decide) (hname attr)
  have hhref : strncmp (c :: p) (str " href") = some false := hnone .href
  have hsrc : strncmp (c :: p) (str " src") = some false := hnone .src
  refine pass_cons.mpr ⟨hc.2.2, ?_⟩
  rw [next, if_neg hc.1, if_neg hc.2.1, if_neg (not_not.mpr rfl), insideTag, hhref, hsrc]
  rfl

theorem pass_comment {q : Bytes}
    (h : strSkipTillRightAfter (str "-->") (str "<!--" ++ p) = some q) :
    pass ⟨str "<!--" ++ p, balance, script, links⟩ = .inl ⟨q, balance, script, links⟩ := by
  refine pass_cons.mpr ⟨by decide, ?_⟩
  change less ⟨str "<!--" ++ p, balance, script, links⟩ = _
  rw [less, strncmp_append, Option.bind_eq_bind, Option.bind_some, if_pos rfl, h]
  rfl

theorem pass_less (hterm : Terminated (char '<' :: p)) (hcomment : ¬ str "!--" <+: p)
    (hscript : ¬ IsScript p) :
    pass ⟨char '<' :: p, balance, script, links⟩ = .inl ⟨p, balance + 1, script, links⟩ := by
  refine pass_cons.mpr ⟨by decide, ?_⟩
  have htail : Terminated p := hterm.of_cons (by decide)
  have hdash : strncmp (char '<' :: p) (str "<!--") = some false :=
    strncmp_of_not_prefix hterm (by decide) fun hpre => hcomment (List.cons_prefix_cons.mp hpre).2
  rw [next, if_pos rfl, less, hdash, Option.bind_eq_bind, Option.bind_some, if_neg (by decide)]
  dsimp only [List.tail_cons]
  rw [strncmp_terminated htail (by decide), Option.bind_some]
  split
  · next hpre =>
      obtain ⟨q, rfl⟩ := List.isPrefixOf_iff_prefix.mp hpre
      have hq : Terminated q := htail.of_append (by decide)
      obtain ⟨c, q, rfl⟩ := hq.exists_cons
      have hc : ¬ (c = char '>' ∨ c = char ' ') := fun hc =>
        hscript (isScript_iff.mpr ⟨c, q, rfl, hc⟩)
      have hget : (str "script" ++ c :: q)[6]? = some c := rfl
      rw [hget, Option.bind_eq_bind, Option.bind_some, if_neg hc]
  · rfl

theorem pass_script {c : UInt8} (hc : c = char '>' ∨ c = char ' ') :
    pass ⟨str "<script" ++ c :: p, balance, script, links⟩ =
      .inl ⟨c :: p, balance + 1, true, links⟩ := by
  refine pass_cons.mpr ⟨by decide, ?_⟩
  change less ⟨str "<script" ++ c :: p, balance, script, links⟩ = _
  have hdash : strncmp (str "<script" ++ c :: p) (str "<!--") = some false := rfl
  have hname : strncmp (str "<script" ++ c :: p).tail (str "script") = some true :=
    strncmp_append (str "script") (c :: p)
  have hget : (str "<script" ++ c :: p).tail[6]? = some c := rfl
  rw [less, hdash, Option.bind_eq_bind, Option.bind_some, if_neg (by decide)]
  dsimp only
  rw [hname, Option.bind_some, if_pos rfl, hget, Option.bind_eq_bind, Option.bind_some, if_pos hc]
  rfl

theorem pass_endScript {q : Bytes}
    (h : strSkipTillRightAfter (str "</script>") (char '>' :: p) = some q) :
    pass ⟨char '>' :: p, balance, true, links⟩ = .inl ⟨q, balance - 1, false, links⟩ := by
  refine pass_cons.mpr ⟨by decide, ?_⟩
  change greater ⟨char '>' :: p, balance, true, links⟩ = _
  rw [greater]
  dsimp only
  rw [if_pos rfl, h]
  rfl

theorem pass_of_goes {s s' : LinkScan} (hterm : Terminated s.p) (h : Goes s s') :
    s.pass = .inl s' := by
  cases h with
  | comment h => exact pass_comment h
  | less hcomment hscript => exact pass_less hterm hcomment hscript
  | script hc => exact pass_script hc
  | greater => exact pass_cons.mpr ⟨by decide, rfl⟩
  | endScript h => exact pass_endScript h
  | outside hc hbalance =>
      refine pass_cons.mpr ⟨hc.2.2, ?_⟩
      rw [next, if_neg hc.1, if_neg hc.2.1, if_pos hbalance]
      rfl
  | skip hc hname => exact pass_skip hterm hc hname
  | valueless attr n hspace hc => exact pass_attribute (value_of_ne_equals attr n rfl hspace hc)
  | unquoted attr n m hspace hc => exact pass_attribute (value_of_ne_quote attr n m rfl hspace hc)
  | link attr n m hq hv => exact pass_attribute (value_of_quoted attr n m rfl hq hv)

/-! ## The scan -/

/-- Behind its end a scan has nothing in front of it, not even the NUL. -/
theorem visits_terminated {page : Bytes} {s : LinkScan} (h : Visits page s) :
    s.p = [] ∨ Terminated s.p := by
  induction h with
  | refl => exact Or.inr ⟨page, rfl⟩
  | @tail s s' hsteps hpass ih =>
      rcases ih with hnil | hterm
      · rw [pass, hnil] at hpass
        exact absurd hpass Sum.inr_ne_inl
      · by_cases hstuck : s.Stuck
        · rcases pass_of_stuck hstuck with hnone | ⟨r, hr, hnil⟩
          · exact absurd (hnone.symm.trans hpass) Sum.inr_ne_inl
          · obtain rfl := Sum.inl.inj (hr.symm.trans hpass)
            exact Or.inl hnil
        · rcases pass_terminated hterm hstuck with ⟨links, hend⟩ | ⟨r, hr, hterm'⟩
          · exact absurd (hend.symm.trans hpass) Sum.inr_ne_inl
          · obtain rfl := Sum.inl.inj (hr.symm.trans hpass)
            exact Or.inr hterm'

/-- A pass of a scan is one of `Goes`. -/
theorem goes_of_visits {page : Bytes} {s s' : LinkScan} (h : Visits page s)
    (hpass : s.pass = .inl s') : Goes s s' := by
  rcases visits_terminated h with hnil | hterm
  · rw [pass, hnil] at hpass
    exact absurd hpass Sum.inr_ne_inl
  · exact goes_of_pass hterm hpass

/-- Every scan comes to its end. -/
theorem exists_exit (s : LinkScan) : ∃ s' r, s.Steps s' ∧ s'.pass = .inr r := by
  cases hpass : s.pass with
  | inr r => exact ⟨s, r, .refl, hpass⟩
  | inl s₁ =>
      have hlt := pass_length hpass
      obtain ⟨s', r, hsteps, hexit⟩ := exists_exit s₁
      exact ⟨s', r, .head hpass hsteps, hexit⟩
termination_by s.p.length

/-- The links of a page are what its scan ends with. -/
theorem genericGetLinks_of_steps {page : Bytes} {s : LinkScan} {r : Option (List HtmlLink)}
    (h : Visits page s) (hexit : s.pass = .inr r) : genericGetLinks page = r := by
  have hrun : Loop.run pass (page.length + 2) (.start page) = some (genericGetLinks page) :=
    (Option.some_get _).symm
  exact Loop.run_of_steps h hexit hrun

/-! ## Links found before -/

theorem added_nil {s s' : LinkScan} (hlinks : s'.links = s.links)
    (h : ∀ links, Goes { s with links } { s' with links }) : ∃ added,
      s'.links = s.links ++ added ∧ ∀ links, Goes { s with links } { s' with links := links ++ added } :=
  ⟨[], by rw [hlinks, List.append_nil], fun links => by rw [List.append_nil]; exact h links⟩

/-- A pass adds links to those it has, whatever these are. -/
theorem Goes.added {s s' : LinkScan} (h : Goes s s') : ∃ added, s'.links = s.links ++ added ∧
    ∀ links, Goes { s with links } { s' with links := links ++ added } := by
  cases h with
  | comment h => exact added_nil rfl fun _ => .comment h
  | less hcomment hscript => exact added_nil rfl fun _ => .less hcomment hscript
  | script hc => exact added_nil rfl fun _ => .script hc
  | greater => exact added_nil rfl fun _ => .greater
  | endScript h => exact added_nil rfl fun _ => .endScript h
  | outside hc hbalance => exact added_nil rfl fun _ => .outside hc hbalance
  | skip hc hname => exact added_nil rfl fun _ => .skip hc hname
  | valueless attr n hspace hc => exact added_nil rfl fun _ => .valueless attr n hspace hc
  | unquoted attr n m hspace hc => exact added_nil rfl fun _ => .unquoted attr n m hspace hc
  | link attr n m hq hv => exact ⟨_, rfl, fun _ => .link attr n m hq hv⟩

/-- The state with other links in front of its own. -/
def addLinks (l : List HtmlLink) (s : LinkScan) : LinkScan := { s with links := l ++ s.links }

theorem Goes.addLinks {s s' : LinkScan} (h : Goes s s') (l : List HtmlLink) :
    Goes (s.addLinks l) (s'.addLinks l) := by
  obtain ⟨added, hadded, hgoes⟩ := h.added
  have hlinks := hgoes (l ++ s.links)
  rwa [List.append_assoc, ← hadded] at hlinks

theorem Goes.of_addLinks {s s' : LinkScan} {l : List HtmlLink} (h : Goes (s.addLinks l) s') :
    ∃ r, Goes s r := by
  obtain ⟨added, -, hgoes⟩ := h.added
  exact ⟨_, hgoes s.links⟩

theorem pass_addLinks {s s' : LinkScan} (hterm : s.p = [] ∨ Terminated s.p) (l : List HtmlLink)
    (h : s.pass = .inl s') : (s.addLinks l).pass = .inl (s'.addLinks l) := by
  have hs : Terminated s.p := by
    refine hterm.resolve_left fun hnil => ?_
    rw [pass, hnil] at h
    exact absurd h Sum.inr_ne_inl
  exact pass_of_goes (s := s.addLinks l) hs ((goes_of_pass hs h).addLinks l)

/-- At a character other than NUL a scan ends only by reading behind the page. -/
theorem pass_exit {c : UInt8} {p : Bytes} {balance : Int32} {script : Bool} {links : List HtmlLink}
    {r : Option (List HtmlLink)} (hc : c ≠ 0) (h : pass ⟨c :: p, balance, script, links⟩ = .inr r) :
    r = none := by
  simp only [pass, List.head?_cons, if_neg hc] at h
  cases hnext : next ⟨c :: p, balance, script, links⟩ c with
  | none =>
      rw [hnext] at h
      exact (Sum.inr.inj h).symm
  | some s' =>
      rw [hnext] at h
      exact absurd h Sum.inl_ne_inr

/-- The end of a scan with other links in front of its own. -/
theorem pass_addLinks_exit {s : LinkScan} {r : Option (List HtmlLink)}
    (hterm : s.p = [] ∨ Terminated s.p) (l : List HtmlLink) (h : s.pass = .inr r) :
    (s.addLinks l).pass = .inr (r.map (l ++ ·)) := by
  obtain ⟨p, balance, script, links⟩ := s
  cases p with
  | nil =>
      obtain rfl : none = r := Sum.inr.inj h
      rfl
  | cons c p =>
      have hs : Terminated (c :: p) := hterm.resolve_left (List.cons_ne_nil c p)
      by_cases hc : c = 0
      · subst hc
        obtain rfl : some links = r := Sum.inr.inj h
        rfl
      · obtain rfl := pass_exit hc h
        cases hpass : pass (LinkScan.addLinks l ⟨c :: p, balance, script, links⟩) with
        | inl s' =>
            obtain ⟨r, hr⟩ := (goes_of_pass (s := LinkScan.addLinks l ⟨c :: p, balance, script, links⟩)
              hs hpass).of_addLinks
            exact absurd (h.symm.trans (pass_of_goes (s := ⟨c :: p, balance, script, links⟩) hs hr))
              Sum.inr_ne_inl
        | inr r => rw [pass_exit hc hpass, Option.map_none]

/-- A page that is scanned up to another one, outside any tag, has the links up
to there and those of the other. -/
theorem genericGetLinks_append {page p : Bytes} {l : List HtmlLink}
    (h : Visits page ⟨p ++ [0], 0, false, l⟩) :
    genericGetLinks page = (genericGetLinks p).map (l ++ ·) := by
  obtain ⟨s', r, hsteps, hexit⟩ := exists_exit (.start p)
  have hadd : (LinkScan.addLinks l (.start p)).Steps (s'.addLinks l) := by
    clear hexit
    induction hsteps with
    | refl => exact .refl
    | tail hsteps hpass ih => exact ih.tail (pass_addLinks (visits_terminated hsteps) l hpass)
  have hstart : LinkScan.addLinks l (.start p) = ⟨p ++ [0], 0, false, l⟩ := by
    rw [LinkScan.addLinks, start, List.append_nil]
  rw [hstart] at hadd
  rw [genericGetLinks_of_steps (h.trans hadd) (pass_addLinks_exit (visits_terminated hsteps) l hexit),
    genericGetLinks_of_steps hsteps hexit]

end LinkScan

end ZimTools
