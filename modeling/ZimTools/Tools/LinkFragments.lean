import ZimTools.Tools.LinkGrammar

/-!
# Fragments of HTML

The links of two fragments behind one another are to be those of the one and
those of the other.  They are when the scan comes to the second one as it begins:
at a counter of 0 and outside of a script (`Closes`).  In valid HTML it need not,
since a `>` in text and a bracket in the value of an attribute count.

So much can be said of every text without NUL where each `<` has a `>` behind it
(`Complete`), as is so in all complete fragments of HTML.  The scan goes over it
whatever is behind it, or hides the links behind it, or takes what is behind it
along for an attribute (`exists_reading`).  A fragment that the scan does not
close hides or changes the links of one of a few others (`probes`), so it
composes with all fragments of a kind that these are of if and only if the scan
closes it (`genericGetLinks_append_iff`).
-/

namespace ZimTools

open Bytes
open Relation (ReflTransGen)

/-! ## Fragments -/

/-- No NUL, and behind each `<` a `>`. -/
structure Complete (a : Bytes) : Prop where
  noNul : (0 : UInt8) ∉ a
  closed : ∀ u v, a = u ++ char '<' :: v → char '>' ∈ v

theorem Complete.of_append {u v : Bytes} (h : Complete (u ++ v)) : Complete v where
  noNul := fun hmem => h.noNul (List.mem_append_right u hmem)
  closed := fun x y hv => h.closed (u ++ x) y (by rw [hv, List.append_assoc])

theorem complete_of_noLess {t : Bytes} (hnul : (0 : UInt8) ∉ t) (hless : char '<' ∉ t) :
    Complete t where
  noNul := hnul
  closed := fun u _ ht => absurd (ht ▸ List.mem_append_right u List.mem_cons_self) hless

theorem complete_concat {t : Bytes} (hnul : (0 : UInt8) ∉ t) : Complete (t ++ [char '>']) where
  noNul := fun hmem => (List.mem_append.mp hmem).elim hnul (by decide)
  closed := fun u v ht => by
    rcases List.eq_nil_or_concat' v with rfl | ⟨v, c, rfl⟩
    · exact absurd (List.singleton_inj.mp (List.append_inj' ht rfl).2) (by decide)
    · rw [← List.cons_append, ← List.append_assoc] at ht
      rw [← List.singleton_inj.mp (List.append_inj' ht rfl).2]
      exact List.mem_append_right v (List.mem_singleton_self _)

/-- Whatever is behind the fragment, the scan comes to it at a counter of 0 and
outside of a script. -/
def Closes (a : Bytes) : Prop :=
  ∃ links, ∀ p, Visits (a ++ p) ⟨p ++ [0], 0, false, links⟩

/-- `<img src='x' alt=''>`. -/
def img : Bytes := str "<img src='x' alt=''>"

/-- Fragments whose links a fragment in front of them may hide or change. -/
def probes : List Bytes := [img, img ++ img, str "x", str "'", str "\""]

/-- The links of two pages behind one another are those of the one and those of
the other. -/
def Composes (a b : Bytes) : Prop :=
  genericGetLinks (a ++ b) = (genericGetLinks a).bind fun x => (genericGetLinks b).map (x ++ ·)

instance (a b : Bytes) : Decidable (Composes a b) :=
  inferInstanceAs (Decidable (_ = _))

theorem Closes.composes {a : Bytes} (h : Closes a) (p : Bytes) : Composes a p := by
  obtain ⟨links, hvisits⟩ := h
  have hself := hvisits []
  rw [List.append_nil] at hself
  rw [Composes, LinkScan.genericGetLinks_append (hvisits p),
    LinkScan.genericGetLinks_of_steps hself rfl, Option.bind_some]

/-! ## Where strings occur -/

/-- A string that has a character at its start at most does not go over it. -/
theorem infix_append_cons {s x y : Bytes} {c : UInt8} (hc : c ∉ s.tail)
    (h : s <:+: x ++ c :: y) : s <:+: x ∨ s <:+: c :: y := by
  induction x with
  | nil => exact Or.inr h
  | cons d x ih =>
      rcases List.infix_cons_iff.mp h with hpre | h
      · refine Or.inl (List.IsPrefix.isInfix ?_)
        cases s with
        | nil => exact List.nil_prefix
        | cons e s =>
            obtain ⟨rfl, htail⟩ := List.cons_prefix_cons.mp hpre
            exact List.cons_prefix_cons.mpr ⟨rfl, prefix_of_notMem hc htail⟩
      · exact (ih h).imp_left List.infix_cons

/-- The first place where a string occurs. -/
theorem exists_first_infix {s l : Bytes} (hs : s ≠ []) (h : s <:+: l) :
    ∃ a r, l = a ++ (s ++ r) ∧ ¬ s <:+: a := by
  induction l with
  | nil => exact absurd (List.eq_nil_of_infix_nil h) hs
  | cons c l ih =>
      by_cases hpre : s <+: c :: l
      · obtain ⟨r, hr⟩ := hpre
        exact ⟨[], r, hr.symm, fun hnil => hs (List.eq_nil_of_infix_nil hnil)⟩
      · obtain ⟨a, r, rfl, ha⟩ := ih ((List.infix_cons_iff.mp h).resolve_left hpre)
        refine ⟨c :: a, r, rfl, fun hin => ?_⟩
        rcases List.infix_cons_iff.mp hin with hin | hin
        · refine hpre (hin.trans ?_)
          rw [← List.cons_append]
          exact List.prefix_append ..
        · exact ha hin

/-! ## The end of a scan -/

namespace LinkScan

/-- What a scan ends with. -/
def Ends (s : LinkScan) (r : Option (List HtmlLink)) : Prop := ∃ n, Loop.run pass n s = some r

theorem Ends.head {s s' : LinkScan} {r : Option (List HtmlLink)} (hpass : s.pass = .inl s')
    (h : s'.Ends r) : s.Ends r := by
  obtain ⟨n, hn⟩ := h
  exact ⟨n + 1, (Loop.run_succ_inl n hpass).trans hn⟩

theorem Ends.of_steps {s s' : LinkScan} {r : Option (List HtmlLink)} (h : s.Steps s')
    (hends : s'.Ends r) : s.Ends r := by
  induction h using ReflTransGen.head_induction_on with
  | refl => exact hends
  | head hpass _ ih => exact ih.head hpass

theorem ends_nul {p : Bytes} {balance : Int32} {script : Bool} {links : List HtmlLink} :
    Ends ⟨0 :: p, balance, script, links⟩ (some links) := ⟨1, rfl⟩

theorem genericGetLinks_of_ends {page : Bytes} {r : Option (List HtmlLink)}
    (h : (start page).Ends r) : genericGetLinks page = r := by
  obtain ⟨n, hn⟩ := h
  have hrun : Loop.run pass (page.length + 2) (start page) = some (genericGetLinks page) :=
    (Option.some_get _).symm
  have hboth := Loop.run_mono hrun (Nat.le_max_left _ n)
  rw [Loop.run_mono hn (Nat.le_max_right ..)] at hboth
  exact (Option.some.inj hboth).symm

theorem Stuck.ends {s : LinkScan} (h : s.Stuck) : s.Ends none := by
  rcases pass_of_stuck h with hpass | ⟨s', hpass, hempty⟩
  · exact ⟨1, Loop.run_succ_inr 0 hpass⟩
  · exact .head hpass ⟨1, Loop.run_succ_inr 0 (by rw [pass, hempty]; rfl)⟩

/-! ## An image behind a fragment -/

/-- What a scan of an image has in front of it behind the `<`. -/
def imgRest (p : Bytes) : Bytes :=
  str "img" ++ (AttributeKind.src.name ++ (spaces 0 ++ char '=' :: (spaces 0 ++
    char '\'' :: (str "x" ++ char '\'' :: (str " alt=''" ++ char '>' :: p)))))

theorem img_append (p : Bytes) : img ++ p = char '<' :: imgRest p := by
  have himg : img = char '<' :: (str "img" ++ (AttributeKind.src.name ++ (spaces 0 ++ char '=' ::
      (spaces 0 ++ char '\'' :: (str "x" ++ char '\'' :: (str " alt=''" ++ str ">")))))) := by decide
  have hend : str ">" = [char '>'] := by decide
  rw [himg, hend, imgRest]
  simp only [List.cons_append, List.append_assoc, List.nil_append]

theorem goes_img {p : Bytes} {balance : Int32} {script : Bool} {links : List HtmlLink} :
    Goes ⟨img ++ p, balance, script, links⟩ ⟨imgRest p, balance + 1, script, links⟩ := by
  have hcomment (r : Bytes) : ¬ str "!--" <+: str "img" ++ r := fun h =>
    absurd (List.cons_prefix_cons.mp h).1 (by decide)
  have hscript (r : Bytes) : ¬ IsScript (str "img" ++ r) := fun h => by
    obtain ⟨c, q, hq, -⟩ := isScript_iff.mp h
    exact absurd (List.cons_eq_cons.mp hq).1 (by decide)
  rw [img_append]
  exact .less (hcomment _) (hscript _)

/-- The link of an image is found at a counter of 0 only. -/
theorem ends_img {balance : Int32} (hbalance : balance ≠ 0) (script : Bool)
    (links : List HtmlLink) : Ends ⟨img ++ [0], balance, script, links⟩ (some links) := by
  have hne : balance + 1 ≠ 1 := fun h => hbalance (Int32.add_eq_right.mp h)
  have hrest : imgRest [0] = str "img src='x' alt=''" ++ char '>' :: [0] := by decide
  have hsteps : Steps ⟨imgRest [0], balance + 1, script, links⟩
      ⟨char '>' :: [0], balance + 1, script, links⟩ := hrest ▸ steps_plain (by decide) hne
  have hend : Terminated (char '>' :: [0]) := ⟨[char '>'], rfl⟩
  refine .head (pass_of_goes ⟨img, rfl⟩ goes_img) (.of_steps hsteps ?_)
  cases script with
  | false => exact .head (pass_of_goes hend .greater) ends_nul
  | true => exact .head (pass_of_goes hend (.endScript rfl)) ends_nul

theorem steps_img {p : Bytes} {script : Bool} {links : List HtmlLink} (hterm : Terminated p) :
    Steps ⟨img ++ p, 0, script, links⟩
      ⟨char '>' :: p, 1, script, links ++ [⟨.src, decodeHtmlEntities (str "x")⟩]⟩ := by
  have himg : Harmless (str "img") := ⟨by decide, fun attr => by cases attr <;> decide⟩
  have halt : Harmless (str " alt=''") := ⟨by decide, fun attr => by cases attr <;> decide +kernel⟩
  have hspace (r : Bytes) : SafeHead (AttributeKind.src.name ++ r) := ⟨_, _, rfl, Or.inl rfl⟩
  have hname : Terminated (imgRest p) := by
    have hwhole := hterm.append img
    rw [img_append] at hwhole
    exact hwhole.of_cons (by decide)
  have hvalue := hname.of_append (by decide)
  have hbehind : Terminated (char '>' :: p) := hterm.append (str ">")
  refine .head (pass_of_goes (hterm.append img) goes_img) ?_
  refine (steps_harmless himg (hspace _) hname).trans ?_
  refine .head (pass_of_goes hvalue (.link .src 0 0 (Or.inl rfl) (by decide))) ?_
  exact steps_harmless halt ⟨_, _, rfl, Or.inr (Or.inl rfl)⟩ (hbehind.append _)

/-- In a script only the first link is found. -/
theorem ends_img_script (links : List HtmlLink) :
    Ends ⟨img ++ (img ++ [0]), 0, true, links⟩
      (some (links ++ [⟨.src, decodeHtmlEntities (str "x")⟩])) := by
  have hterm : Terminated (img ++ [0]) := ⟨img, rfl⟩
  have hskip : strSkipTillRightAfter (str "</script>") (char '>' :: img ++ [0]) = some [0] :=
    strSkip_nul (by decide) (by decide) (by decide +kernel) ⟨[], rfl⟩
  exact .of_steps (steps_img hterm)
    (.head (pass_of_goes (hterm.append (str ">")) (.endScript hskip)) ends_nul)

/-! ## Readings -/

/-- How a scan reads a text that is followed by others. -/
inductive Reading (u : Bytes) (balance : Int32) (script : Bool) : Prop where
  /-- It goes over the text. -/
  | passes (balance' : Int32) (script' : Bool) (added : List HtmlLink)
      (h : ∀ p links, Terminated p →
        Steps ⟨u ++ p, balance, script, links⟩ ⟨p, balance', script', links ++ added⟩)
  /-- It does not find the link of a tag behind the text. -/
  | hides (added : List HtmlLink)
      (h : ∀ p ∈ [[], img], ∀ links,
        Ends ⟨u ++ (p ++ [0]), balance, script, links⟩ (some (links ++ added)))
  /-- It comes to an attribute that goes on behind the text. -/
  | cuts (t : Bytes) (ht : t ∈ probes)
      (hcut : ∀ links, Ends ⟨u ++ [0], balance, script, links⟩ none)
      (h : ∀ links, ∃ found, Ends ⟨u ++ (t ++ [0]), balance, script, links⟩ (some found))

/-- A pass that stays within the text. -/
theorem Reading.head {u u' : Bytes} {balance balance' : Int32} {script script' : Bool}
    (added : List HtmlLink)
    (hgoes : ∀ p links, Terminated p →
      Goes ⟨u ++ p, balance, script, links⟩ ⟨u' ++ p, balance', script', links ++ added⟩)
    (h : Reading u' balance' script') : Reading u balance script := by
  have hpass (p : Bytes) (links : List HtmlLink) (hterm : Terminated p) :
      pass ⟨u ++ p, balance, script, links⟩ =
        .inl ⟨u' ++ p, balance', script', links ++ added⟩ :=
    pass_of_goes (hterm.append u) (hgoes p links hterm)
  cases h with
  | passes balance'' script'' added' h =>
      refine .passes balance'' script'' (added ++ added') fun p links hterm => ?_
      rw [← List.append_assoc]
      exact .head (hpass p links hterm) (h p (links ++ added) hterm)
  | hides added' h =>
      refine .hides (added ++ added') fun p hp links => ?_
      rw [← List.append_assoc links]
      exact .head (hpass _ links ⟨p, rfl⟩) (h p hp (links ++ added))
  | cuts t ht hcut h =>
      refine .cuts t ht (fun links => ?_) fun links => ?_
      · exact .head (hpass _ links ⟨[], rfl⟩) (hcut (links ++ added))
      · obtain ⟨found, hfound⟩ := h (links ++ added)
        exact ⟨found, .head (hpass _ links ⟨t, rfl⟩) hfound⟩

theorem Reading.head_nil {u u' : Bytes} {balance balance' : Int32} {script script' : Bool}
    (hgoes : ∀ p links, Terminated p →
      Goes ⟨u ++ p, balance, script, links⟩ ⟨u' ++ p, balance', script', links⟩)
    (h : Reading u' balance' script') : Reading u balance script :=
  .head [] (fun p links hterm => by rw [List.append_nil]; exact hgoes p links hterm) h

/-! ## Comments and scripts -/

/-- A string that is not in a text is not found up to the NUL, with a tag behind the
text or not. -/
theorem strSkip_hides {s u : Bytes} (hless : char '<' ∉ s.tail) (hnul : (0 : UInt8) ∉ s)
    (himg : ¬ s <:+: img) (hu : (0 : UInt8) ∉ u) (h : ¬ s <:+: u) {p : Bytes}
    (hp : p ∈ [[], img]) : strSkipTillRightAfter s (u ++ (p ++ [0])) = some [0] := by
  have hin : (0 : UInt8) ∉ u ++ p ∧ ¬ s <:+: u ++ p := by
    rcases List.mem_pair.mp hp with rfl | rfl
    · rw [List.append_nil]
      exact ⟨hu, h⟩
    · refine ⟨fun hmem => (List.mem_append.mp hmem).elim hu (by decide), fun hin => ?_⟩
      exact (infix_append_cons hless hin).elim h himg
  rw [← List.append_assoc]
  exact strSkip_nul hnul hin.1 hin.2 ⟨[], rfl⟩

/-- A comment that begins in the text. -/
theorem reading_comment {w : Bytes} {balance : Int32} {script : Bool}
    (hnul : (0 : UInt8) ∉ str "<!--" ++ w)
    (ih : ∀ a r, str "<!--" ++ w = a ++ (str "-->" ++ r) → Reading r balance script) :
    Reading (str "<!--" ++ w) balance script := by
  by_cases hin : str "-->" <:+: str "<!--" ++ w
  · obtain ⟨a, r, hsplit, hfirst⟩ := exists_first_infix (by decide) hin
    refine .head_nil (fun p links hterm => ?_) (ih a r hsplit)
    have ha : (0 : UInt8) ∉ a := fun hmem => hnul (hsplit ▸ List.mem_append_left _ hmem)
    have hskip := strSkip_find (s := str "--") (z := char '>') (by decide) (by decide) ha hfirst
      (hterm.append r)
    rw [List.append_assoc]
    refine .comment ?_
    rw [← List.append_assoc, hsplit, List.append_assoc, List.append_assoc]
    exact hskip
  · refine .hides [] fun p hp links => ?_
    have hskip := strSkip_hides (by decide) (by decide) (by decide +kernel) hnul hin hp
    rw [List.append_nil, List.append_assoc] at *
    exact .head (pass_comment hskip) ends_nul

/-- The end of the start tag of a script. -/
theorem reading_endScript {w : Bytes} {balance : Int32} (hnul : (0 : UInt8) ∉ char '>' :: w)
    (ih : ∀ a r, char '>' :: w = a ++ (str "</script>" ++ r) → Reading r (balance - 1) false) :
    Reading (char '>' :: w) balance true := by
  by_cases hin : str "</script>" <:+: char '>' :: w
  · obtain ⟨a, r, hsplit, hfirst⟩ := exists_first_infix (by decide) hin
    refine .head_nil (fun p links hterm => ?_) (ih a r hsplit)
    have ha : (0 : UInt8) ∉ a := fun hmem => hnul (hsplit ▸ List.mem_append_left _ hmem)
    have hskip := strSkip_find (s := str "</script") (z := char '>') (by decide) (by decide) ha hfirst
      (hterm.append r)
    have hwhole : char '>' :: (w ++ p) = a ++ (str "</script" ++ [char '>'] ++ (r ++ p)) := by
      rw [← List.cons_append, hsplit, List.append_assoc, List.append_assoc]
      rfl
    exact .endScript (hwhole ▸ hskip)
  · refine .hides [] fun p hp links => ?_
    rw [List.append_nil]
    exact .head (pass_endScript (strSkip_hides (by decide) (by decide) (by decide +kernel) hnul hin hp))
      ends_nul

/-! ## Attributes -/

/-- An attribute that is cut off by the end of the text. -/
theorem reading_cutOff {u : Bytes} {script : Bool} (h : CutOff (u ++ [0])) :
    Reading u 1 script := by
  have hcut (links : List HtmlLink) : Ends ⟨u ++ [0], 1, script, links⟩ none :=
    Stuck.ends ⟨rfl, h⟩
  -- What is behind the text is read as the next character of the attribute.
  suffices hnext : ∃ t ∈ probes, ∀ links, ∃ found,
      Goes ⟨u ++ (t ++ [0]), 1, script, links⟩ ⟨[0], 1, script, found⟩ by
    obtain ⟨t, ht, hgoes⟩ := hnext
    refine .cuts t ht hcut fun links => ?_
    obtain ⟨found, hfound⟩ := hgoes links
    exact ⟨found, .head (pass_of_goes (Terminated.append ⟨t, rfl⟩ u) hfound) ends_nul⟩
  obtain ⟨attr, rest, hu, hrest⟩ := h
  cases hrest with
  | equals n =>
      rw [← List.append_assoc] at hu
      obtain ⟨rfl, -⟩ := List.append_inj' hu rfl
      refine ⟨str "x", by decide, fun links => ⟨links, ?_⟩⟩
      rw [List.append_assoc]
      exact .valueless attr n (by decide) (by decide)
  | quote n m =>
      have hu' : u ++ [0] = attr.name ++ (spaces n ++ char '=' :: spaces m) ++ [0] := by
        rw [hu, List.append_assoc, List.append_assoc, List.cons_append]
      obtain ⟨rfl, -⟩ := List.append_inj' hu' rfl
      refine ⟨str "x", by decide, fun links => ⟨links, ?_⟩⟩
      rw [List.append_assoc, List.append_assoc, List.cons_append]
      exact .unquoted attr n m (by decide) (by unfold IsQuote; decide)
  | @value n m q v hq hv =>
      have hu' : u ++ [0] =
          attr.name ++ (spaces n ++ char '=' :: (spaces m ++ q :: v)) ++ [0] := by
        rw [hu]
        simp only [List.append_assoc, List.cons_append]
      obtain ⟨rfl, -⟩ := List.append_inj' hu' rfl
      have hprobe : [q] ∈ probes := by rcases hq with rfl | rfl <;> decide
      refine ⟨[q], hprobe, fun links => ⟨links ++ [⟨attr, decodeHtmlEntities v⟩], ?_⟩⟩
      simp only [List.append_assoc, List.cons_append, List.nil_append]
      exact .link attr n m hq hv

/-- The beginning of a name has no name in it. -/
theorem harmless_of_prefix {u : Bytes} {attr : AttributeKind} (hu : u <+: attr.name)
    (hname : u ≠ attr.name) : Harmless u where
  plain := fun c hc => by
    have hplain : Plain attr.name := by cases attr <;> decide
    exact hplain c (hu.subset hc)
  nameless := fun other hin => by
    have hspace : char ' ' ∈ other.name := by
      rw [other.name_cons]
      exact List.mem_cons_self
    cases u with
    | nil => exact List.not_mem_nil (hin.subset hspace)
    | cons c u =>
        rcases List.infix_cons_iff.mp hin with hpre | hin
        · have hsame : other.name <+: attr.name := hpre.trans hu
          obtain rfl : other = attr := by
            cases other <;> cases attr <;> first | rfl | exact absurd hsame (by decide)
          exact hname (hu.eq_of_length (hu.length_le.antisymm hpre.length_le))
        · -- The only space of a name is at its start.
          rw [attr.name_cons, List.cons_prefix_cons] at hu
          have htail : char ' ' ∈ attr.name.tail := hu.2.subset (hin.subset hspace)
          cases attr <;> exact absurd htail (by decide)

/-- The name of a link attribute that the end of the text breaks off. -/
theorem reading_broken {u : Bytes} {script : Bool} {attr : AttributeKind}
    (hu : u <+: attr.name) (hname : u ≠ attr.name) : Reading u 1 script := by
  have hharmless := harmless_of_prefix hu hname
  refine .hides [] fun p hp links => ?_
  rw [List.append_nil]
  rcases List.mem_pair.mp hp with rfl | rfl
  · have hsteps : Steps ⟨u ++ [0], 1, script, links⟩ ⟨[0], 1, script, links⟩ :=
      steps_nameless hharmless (fun attr => by cases attr <;> decide) ⟨u, rfl⟩
    exact .of_steps hsteps ends_nul
  · have hterm : Terminated (u ++ (img ++ [0])) := Terminated.append ⟨img, rfl⟩ u
    have hsteps : Steps ⟨u ++ (img ++ [0]), 1, script, links⟩ ⟨img ++ [0], 1, script, links⟩ := by
      rw [img_append] at hterm ⊢
      exact steps_nameless hharmless (fun attr => by cases attr <;> decide) hterm
    exact .of_steps hsteps (ends_img (by decide) script links)

/-- An attribute in the text. -/
theorem reading_name {attr : AttributeKind} {rest : Bytes} {script : Bool}
    (hnul : (0 : UInt8) ∉ rest) (hcut : ¬ CutOff (attr.name ++ rest ++ [0]))
    (ih : ∀ a r, rest = a ++ r → a ≠ [] → Reading r 1 script) :
    Reading (attr.name ++ rest) 1 script := by
  have hcut' (h : Cut (rest ++ [0])) : False := hcut ⟨attr, _, List.append_assoc .., h⟩
  rcases spaces_split rest with ⟨n, rfl⟩ | ⟨n, c, y, rfl, hspace⟩
  · exact (hcut' (.equals n)).elim
  · by_cases hc : c = char '='
    · subst hc
      rcases spaces_split y with ⟨m, rfl⟩ | ⟨m, d, z, rfl, hspace'⟩
      · refine (hcut' ?_).elim
        rw [List.append_assoc]
        exact .quote n m
      · by_cases hd : IsQuote d
        · rcases mem_split d z with hopen | ⟨v, r, rfl, hv⟩
          · refine (hcut' ?_).elim
            simpa only [List.append_assoc, List.cons_append] using Cut.value n m hd hopen
          · refine .head [⟨attr, decodeHtmlEntities v⟩] (fun p links _ => ?_)
              (ih (spaces n ++ char '=' :: (spaces m ++ d :: (v ++ [d]))) r ?_ ?_)
            · simpa only [List.append_assoc, List.cons_append] using Goes.link attr n m hd hv
            · simp only [List.append_assoc, List.cons_append, List.nil_append]
            · simp
        · refine .head_nil (fun p links _ => ?_)
            (ih (spaces n ++ char '=' :: (spaces m ++ [d])) z ?_ ?_)
          · simpa only [List.append_assoc, List.cons_append] using Goes.unquoted attr n m hspace' hd
          · simp only [List.append_assoc, List.cons_append, List.nil_append]
          · simp
    · refine .head_nil (fun p links _ => ?_) (ih (spaces n ++ [c]) y ?_ ?_)
      · simpa only [List.append_assoc, List.cons_append] using Goes.valueless attr n hspace hc
      · simp only [List.append_assoc, List.cons_append, List.nil_append]
      · simp

/-! ## A text -/

/-- A `<` in the text is what it is whatever is behind the text. -/
theorem goes_less {w p : Bytes} {balance : Int32} {script : Bool} {links : List HtmlLink}
    (hgreater : char '>' ∈ w) (hcomment : ¬ str "!--" <+: w) (hscript : ¬ IsScript w) :
    Goes ⟨char '<' :: (w ++ p), balance, script, links⟩ ⟨w ++ p, balance + 1, script, links⟩ := by
  obtain ⟨x, y, rfl, -⟩ := (mem_split (char '>') w).resolve_left (not_not_intro hgreater)
  refine .less (fun h => hcomment ?_) fun h => hscript ?_
  · rw [List.append_assoc, List.cons_append] at h
    exact (prefix_of_notMem (by decide) h).trans (List.prefix_append ..)
  · have hsplit : x ++ char '>' :: y ++ p = x ++ str ">" ++ (y ++ p) := by
      rw [List.append_assoc, List.append_assoc]
      rfl
    rw [hsplit] at h
    have hpre : x ++ str ">" <+: x ++ char '>' :: y := ⟨y, by rw [List.append_assoc]; rfl⟩
    exact h.of_append.imp (·.trans hpre) (·.trans hpre)

theorem exists_reading (u : Bytes) (hu : Complete u) (balance : Int32) (script : Bool) :
    Reading u balance script := by
  have hrest {a r : Bytes} (hsplit : u = a ++ r) (ha : a ≠ []) (balance : Int32) (script : Bool) :
      Reading r balance script := by
    have hlt : r.length < u.length := by
      have hpos := List.length_pos_iff.mpr ha
      rw [hsplit, List.length_append]
      omega
    exact exists_reading r (Complete.of_append (hsplit ▸ hu)) balance script
  cases u with
  | nil => exact .passes balance script [] fun p links _ => by rw [List.append_nil]; exact .refl
  | cons c w =>
      have hc : c ≠ 0 := fun h => hu.noNul (h ▸ List.mem_cons_self)
      have hnext := hrest (a := [c]) (r := w) rfl (List.cons_ne_nil c [])
      by_cases hless : c = char '<'
      · subst hless
        by_cases hcomment : str "!--" <+: w
        · obtain ⟨w, rfl⟩ := hcomment
          exact reading_comment hu.noNul fun a r h =>
            hrest (a := a ++ str "-->") (h.trans (List.append_assoc ..).symm)
              (fun hnil => absurd (List.append_eq_nil_iff.mp hnil).2 (by decide)) _ _
        by_cases hscript : IsScript w
        · obtain ⟨d, w, rfl, hd⟩ := isScript_iff.mp hscript
          have hopen := hrest (a := str "<script") (r := d :: w) rfl (by decide) (balance + 1) true
          have hgoes (p : Bytes) (links : List HtmlLink) :
              Goes ⟨char '<' :: (str "script" ++ d :: w) ++ p, balance, script, links⟩
                ⟨d :: w ++ p, balance + 1, true, links⟩ := Goes.script (p := w ++ p) hd
          exact .head_nil (fun p links _ => hgoes p links) hopen
        · exact .head_nil (fun p links _ => goes_less (hu.closed [] w rfl) hcomment hscript)
            (hnext _ _)
      by_cases hgreater : c = char '>'
      · subst hgreater
        cases script with
        | false => exact .head_nil (fun p links _ => .greater) (hnext _ _)
        | true =>
            exact reading_endScript hu.noNul fun a r h =>
              hrest (a := a ++ str "</script>") (h.trans (List.append_assoc ..).symm)
                (fun hnil => absurd (List.append_eq_nil_iff.mp hnil).2 (by decide)) _ _
      by_cases hbalance : balance = 1
      · subst hbalance
        by_cases hcut : CutOff (c :: w ++ [0])
        · exact reading_cutOff hcut
        by_cases hname : ∃ attr : AttributeKind, attr.name <+: c :: w
        · obtain ⟨attr, rest, hattr⟩ := hname
          rw [← hattr] at hcut hu hrest ⊢
          refine reading_name (fun h => hu.noNul (List.mem_append_right _ h)) hcut fun a r h ha => ?_
          exact hrest (a := attr.name ++ a) (by rw [h, List.append_assoc]) (by simp [ha]) _ _
        by_cases hbroken : ∃ attr : AttributeKind, c :: w <+: attr.name
        · obtain ⟨attr, hattr⟩ := hbroken
          exact reading_broken hattr fun h => hname ⟨attr, h ▸ List.prefix_rfl⟩
        · refine .head_nil (fun p links _ => .skip ⟨hless, hgreater, hc⟩ fun attr h => ?_) (hnext _ _)
          rcases List.prefix_or_prefix_of_prefix h (List.prefix_append (c :: w) p) with h | h
          · exact hname ⟨attr, h⟩
          · exact hbroken ⟨attr, h⟩
      · exact .head_nil (fun p links _ => .outside ⟨hless, hgreater, hc⟩ hbalance) (hnext _ _)
termination_by u.length

end LinkScan

/-! ## Composition -/

theorem genericGetLinks_probes :
    genericGetLinks img = some [⟨.src, str "x"⟩] ∧
      genericGetLinks (img ++ img) = some [⟨.src, str "x"⟩, ⟨.src, str "x"⟩] := by
  decide +kernel

/-- A fragment that the scan does not close does not compose with one of the probes. -/
theorem closes_or_probe {a : Bytes} (ha : Complete a) : Closes a ∨ ∃ b ∈ probes, ¬ Composes a b := by
  have hlinks {b : Bytes} {r : Option (List HtmlLink)}
      (h : LinkScan.Ends ⟨a ++ (b ++ [0]), 0, false, []⟩ r) : genericGetLinks (a ++ b) = r := by
    rw [← List.append_assoc] at h
    exact LinkScan.genericGetLinks_of_ends h
  have hself {r : Option (List HtmlLink)} (h : LinkScan.Ends ⟨a ++ [0], 0, false, []⟩ r) :
      genericGetLinks a = r := LinkScan.genericGetLinks_of_ends h
  cases LinkScan.exists_reading a ha 0 false with
  | passes balance script added hover =>
      have hone := hself (.of_steps (hover [0] [] ⟨[], rfl⟩) LinkScan.ends_nul)
      by_cases hbalance : balance = 0
      · subst hbalance
        cases script with
        | false =>
            refine Or.inl ⟨added, fun p => ?_⟩
            have hsteps := hover (p ++ [0]) [] ⟨p, rfl⟩
            rwa [← List.append_assoc] at hsteps
        | true =>
            refine Or.inr ⟨img ++ img, by decide, fun h => ?_⟩
            have hboth := hover (img ++ img ++ [0]) [] ⟨img ++ img, rfl⟩
            have hends := LinkScan.ends_img_script ([] ++ added)
            rw [← List.append_assoc img] at hends
            rw [Composes, hlinks (.of_steps hboth hends), hone, genericGetLinks_probes.2] at h
            simp at h
      · refine Or.inr ⟨img, by decide, fun h => ?_⟩
        have hends := hlinks (.of_steps (hover (img ++ [0]) [] ⟨img, rfl⟩)
          (LinkScan.ends_img hbalance script ([] ++ added)))
        rw [Composes, hends, hone, genericGetLinks_probes.1] at h
        simp at h
  | hides added hends =>
      refine Or.inr ⟨img, by decide, fun h => ?_⟩
      have hone := hself (hends [] (by decide) [])
      rw [Composes, hlinks (hends img (by decide) []), hone, genericGetLinks_probes.1] at h
      simp at h
  | cuts t ht hcut hends =>
      refine Or.inr ⟨t, ht, fun h => ?_⟩
      obtain ⟨found, hfound⟩ := hends []
      rw [Composes, hlinks hfound, hself (hcut [])] at h
      exact absurd h (Option.some_ne_none found)

/-- Among fragments of a kind that has the probes, as valid HTML has, a complete one
composes with all if and only if the scan closes it. -/
theorem genericGetLinks_append_iff {IsFragment : Bytes → Prop} {a : Bytes} (ha : Complete a)
    (hprobes : ∀ b ∈ probes, IsFragment b) : (∀ b, IsFragment b → Composes a b) ↔ Closes a := by
  constructor
  · intro h
    rcases closes_or_probe ha with hcloses | ⟨b, hb, hnot⟩
    · exact hcloses
    · exact absurd (h b (hprobes b hb)) hnot
  · exact fun h b _ => h.composes b

/-- The scan closes a page of texts, comments, scripts and tags that are well formed
and have brackets in the values of links only. -/
theorem closes_pieces {pieces : List Piece} (h : ∀ piece ∈ pieces, ¬ piece.HasNul) :
    Closes (pieces.flatMap Piece.page) := by
  suffices hsteps : ∀ p links, Terminated p →
      LinkScan.Steps ⟨pieces.flatMap Piece.page ++ p, 0, false, links⟩
        ⟨p, 0, false, links ++ pieces.flatMap Piece.links⟩ by
    refine ⟨pieces.flatMap Piece.links, fun p => ?_⟩
    have hpage := hsteps (p ++ [0]) [] ⟨p, rfl⟩
    rwa [← List.append_assoc] at hpage
  induction pieces with
  | nil => exact fun p links _ => by simpa using .refl
  | cons piece pieces ih =>
      intro p links hterm
      have hfirst : LinkScan.Steps ⟨piece.page ++ (pieces.flatMap Piece.page ++ p), 0, false, links⟩
          ⟨pieces.flatMap Piece.page ++ p, 0, false, links ++ piece.links⟩ :=
        LinkScan.steps_piece piece (hterm.append _) (h piece List.mem_cons_self)
      have hrest := ih (fun other hother => h other (List.mem_cons_of_mem _ hother)) p
        (links ++ piece.links) hterm
      rw [List.flatMap_cons, List.flatMap_cons, List.append_assoc, ← List.append_assoc links]
      exact hfirst.trans hrest

/-- `<a href='x'>`. -/
def anchor : Bytes := str "<a href='x'>"

/-- A text with a child combinator. -/
def childText : Bytes := str "x > y"

theorem complete_anchor : Complete anchor := complete_concat (t := str "<a href='x'") (by decide)

theorem complete_childText : Complete childText := complete_of_noLess (by decide) (by decide)

theorem complete_probes : ∀ b ∈ probes, Complete b := by
  intro b hb
  simp only [probes, List.mem_cons, List.not_mem_nil, or_false] at hb
  rcases hb with rfl | rfl | rfl | rfl | rfl
  · exact complete_concat (t := str "<img src='x' alt=''") (by decide)
  · exact complete_concat (t := img ++ str "<img src='x' alt=''") (by decide)
  · exact complete_of_noLess (by decide) (by decide)
  · exact complete_of_noLess (by decide) (by decide)
  · exact complete_of_noLess (by decide) (by decide)

/-- A tag is closed, and a text with a `>` is not. -/
theorem genericGetLinks_append_iff_sample :
    (∀ b, Complete b → Composes anchor b) ∧ ¬ Closes childText := by
  have hanchor : Closes ([anchorTag].flatMap Piece.page) := closes_pieces (by decide)
  refine ⟨(genericGetLinks_append_iff complete_anchor complete_probes).mpr hanchor, fun h => ?_⟩
  have hall := (genericGetLinks_append_iff complete_childText complete_probes).mpr h
  exact absurd (hall anchor complete_anchor) (by decide +kernel)

/-- The `>` of a text hides the links of the tags behind it. -/
theorem links_hidden : ¬ ∀ a b, Complete a → Complete b → Composes a b := by
  intro h
  exact absurd (h childText anchor complete_childText complete_anchor) (by decide +kernel)

end ZimTools
