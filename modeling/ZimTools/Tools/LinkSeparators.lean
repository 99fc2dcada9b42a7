import ZimTools.Tools.LinkLayout

/-!
# The separators of attributes

Attributes are separated by any white space.  The scan knows them by a space: the
name of a link attribute and that of a script need one, and around a `=` only
spaces are skipped.  `Place` says where in a page a run of spaces is, as the scan
of the page comes to it, and `Place.Allows` which runs of white space may stand
there for it.  Every run of spaces has a place (`exists_place`), a run that its
place allows leaves the links as they were, and one that a place does not allow
changes those of a page with that place (`genericGetLinks_replace_iff`).
-/

namespace ZimTools

open Bytes
open Relation (ReflTransGen)

/-! ## Places -/

/-- Where a run of spaces is. -/
inductive Place where
  /-- The scan goes over it: in front of the name of a link attribute or not. -/
  | between (link : Bool)
  /-- Directly behind `<script`. -/
  | script (link : Bool)
  /-- Behind the name or the `=` of a link attribute, in front of a character that
  is taken along: the first one of another link attribute or not. -/
  | taken (link : Bool)
  /-- In front of the `=`. -/
  | equals
  /-- Between the `=` and the quoted value. -/
  | quote
  /-- Behind the name or the `=`, in front of a bracket or the end of the page. -/
  | stop
  /-- In what the scan takes for the quoted value of a link. -/
  | value
  /-- In what is skipped, or where the scan does not come to. -/
  | unread

/-- With a space in front of it, `b` begins with the name of a link attribute. -/
def Named (b : Bytes) : Prop := ∃ attr : AttributeKind, attr.name <+: char ' ' :: b

namespace Place

open LinkScan

/-- The page is `a`, `n + 1` spaces and `b`, and the spaces are at the place. -/
inductive At (a : Bytes) (n : Nat) (b : Bytes) : Place → Prop where
  | between {balance : Int32} {script : Bool} {links : List HtmlLink} {link : Bool}
      (h : Reaches a (spaces (n + 1)) b [] balance script links)
      (hscript : ¬ ∃ balance script links,
        Reaches a (spaces (n + 1)) b (str "<script") balance script links)
      (hlink : link = true ↔ balance = 1 ∧ Named b) : At a n b (.between link)
  | script {balance : Int32} {script : Bool} {links : List HtmlLink} {link : Bool}
      (h : Reaches a (spaces (n + 1)) b (str "<script") balance script links)
      (hlink : link = true ↔ balance = 0 ∧ Named b) : At a n b (.script link)
  | taken {u : Bytes} {c : UInt8} {script : Bool} {links : List HtmlLink} {link : Bool}
      (h : Reaches a (spaces (n + 1)) b u 1 script links) (hu : Takes u c)
      (hb : b.head? = some c) (hc : c ≠ char '<' ∧ c ≠ char '>' ∧ c ≠ 0)
      (hlink : link = true ↔ Named b) : At a n b (.taken link)
  | equals {u : Bytes} {script : Bool} {links : List HtmlLink}
      (h : Reaches a (spaces (n + 1)) b u 1 script links) (hu : BehindName u)
      (hb : b.head? = some (char '=')) : At a n b .equals
  | quote {u : Bytes} {q : UInt8} {script : Bool} {links : List HtmlLink}
      (h : Reaches a (spaces (n + 1)) b u 1 script links) (hu : BehindEquals u) (hq : IsQuote q)
      (hb : b.head? = some q) : At a n b .quote
  | stop {u : Bytes} {script : Bool} {links : List HtmlLink}
      (h : Reaches a (spaces (n + 1)) b u 1 script links) (hu : BehindName u ∨ BehindEquals u)
      (hb : ∀ c ∈ b.head?, c = char '<' ∨ c = char '>' ∨ c = 0) : At a n b .stop
  | value {u v : Bytes} {q : UInt8} {script : Bool} {links : List HtmlLink}
      (h : Reaches a (spaces (n + 1)) b (u ++ q :: v) 1 script links) (hu : BehindEquals u)
      (hq : IsQuote q) (hv : q ∉ v) (hb : q ∈ b) : At a n b .value
  | unclosed {u v : Bytes} {q : UInt8} {script : Bool} {links : List HtmlLink}
      (h : Reaches a (spaces (n + 1)) b (u ++ q :: v) 1 script links) (hu : BehindEquals u)
      (hq : IsQuote q) (hv : q ∉ v) (hb : q ∉ b) : At a n b .unread
  | comment {x : Bytes} {balance : Int32} {script : Bool} {links : List HtmlLink}
      (h : Reaches a (spaces (n + 1)) b (str "<!--" ++ x) balance script links)
      (hx : Absent (str "-->") (str "<!--" ++ x)) : At a n b .unread
  | endScript {x : Bytes} {balance : Int32} {links : List HtmlLink}
      (h : Reaches a (spaces (n + 1)) b (char '>' :: x) balance true links)
      (hx : Absent (str "</script>") (char '>' :: x)) : At a n b .unread
  | behind {x : Bytes} {balance : Int32} {script : Bool} {links : List HtmlLink}
      (h : Reaches a (spaces (n + 1)) b (0 :: x) balance script links) : At a n b .unread

/-- Only spaces. -/
def Blank (w : Bytes) : Prop := ∀ c ∈ w, c = char ' '

instance (w : Bytes) : Decidable (Blank w) := List.decidableBAll (fun c => c = char ' ') w

/-- The white space that may stand at a place. -/
def Allows (w : Bytes) : Place → Prop
  | between link => link = true → w.getLast? = some (char ' ')
  | script link =>
      w.head? = some (char ' ') ∧ (link = true → w.getLast? = some (char ' '))
  | taken link => Blank w ∨ (link = true → w.getLast? ≠ some (char ' '))
  | equals => Blank w
  | quote => Blank w
  | stop => Blank w
  | value => False
  | unread => True

end Place

/-! ## What a place allows -/

theorem named_iff {b : Bytes} {attr : AttributeKind} :
    attr.name <+: char ' ' :: (b ++ [0]) ↔ attr.name <+: char ' ' :: b := by
  have hnul : (0 : UInt8) ∉ attr.name := by cases attr <;> decide
  rw [← List.cons_append, List.prefix_concat_iff, or_iff_right]
  intro h
  exact hnul (h ▸ List.mem_append_right _ (List.mem_singleton_self 0))

theorem Place.Blank.exists_spaces {w : Bytes} (h : Place.Blank w) : ∃ j, w = spaces j :=
  ⟨w.length, List.eq_replicate_of_mem h⟩

/-- White space that is not blank, up to its first character other than a space. -/
theorem exists_white_of_not_blank {w : Bytes} (hw : ∀ c ∈ w, IsWhite c) (h : ¬ Place.Blank w) :
    ∃ j t w', w = spaces j ++ t :: w' ∧ IsWhite t ∧ t ≠ char ' ' := by
  induction w with
  | nil => exact absurd (fun c hc => absurd hc List.not_mem_nil) h
  | cons c w ih =>
      by_cases hc : c = char ' '
      · subst hc
        have hrest : ¬ Place.Blank w := fun hblank => h fun d hd =>
          (List.mem_cons.mp hd).elim id (hblank d)
        obtain ⟨j, t, w', rfl, ht⟩ := ih (fun d hd => hw d (List.mem_cons_of_mem _ hd)) hrest
        exact ⟨j + 1, t, w', rfl, ht⟩
      · exact ⟨0, c, w, rfl, hw c (List.mem_cons_self ..), hc⟩

namespace LinkScan

variable {a b : Bytes} {n : Nat} {w : WhiteRun} {balance : Int32} {script : Bool}
  {links : List HtmlLink}

/-- In front of the name of a link attribute the scan goes up to the last space. -/
theorem visits_over_link {page w : Bytes}
    (h : Visits page ⟨w ++ (b ++ [0]), balance, script, links⟩) (hw : ∀ c ∈ w, IsWhite c)
    (hlast : w.getLast? = some (char ' ')) :
    Visits page ⟨char ' ' :: (b ++ [0]), balance, script, links⟩ := by
  obtain ⟨w, rfl⟩ := List.getLast?_eq_some_iff.mp hlast
  have hterm : Terminated (char ' ' :: (b ++ [0])) := ⟨char ' ' :: b, rfl⟩
  have hwhite : ∀ c ∈ w, IsWhite c := fun c hc => hw c (List.mem_append_left _ hc)
  rw [List.append_assoc w [char ' '] (b ++ [0])] at h
  exact h.trans (steps_white hwhite hterm fun _ _ _ => not_name_of_white (Or.inl rfl))

/-- Else it goes over all of it. -/
theorem visits_over {page w : Bytes} (h : Visits page ⟨w ++ (b ++ [0]), balance, script, links⟩)
    (hw : ∀ c ∈ w, IsWhite c) (hname : balance = 1 → Named b → w.getLast? ≠ some (char ' ')) :
    Visits page ⟨b ++ [0], balance, script, links⟩ :=
  h.trans (steps_white hw ⟨b, rfl⟩ fun hbalance hlast attr hattr =>
    hname hbalance ⟨attr, named_iff.mp hattr⟩ hlast)

theorem Reaches.behind_script (h : Reaches a w.text b (str "<script") balance script links)
    (hhead : w.text.head? = some (char ' ')) :
    Reaches a w.text b [] (balance + 1) true links := by
  obtain ⟨t, ht⟩ := List.head?_eq_some_iff.mp hhead
  rw [Reaches, ht] at h ⊢
  exact h.tail (pass_script (Or.inr rfl))

theorem takes_white {u : Bytes} {t : UInt8} (hu : BehindName u ∨ BehindEquals u) (ht : IsWhite t)
    (hspace : t ≠ char ' ') : Takes u t := by
  refine ⟨hspace, hu.imp (fun h => ⟨h, ?_⟩) fun h => ⟨h, ?_⟩⟩
  · rcases ht with rfl | rfl | rfl <;> decide
  · unfold IsQuote
    rcases ht with rfl | rfl | rfl <;> decide

/-- Around a `=` the scan takes the first character along that is no space. -/
theorem Reaches.gap {u : Bytes} (h : Reaches a w.text b u 1 script links)
    (hu : BehindName u ∨ BehindEquals u) (hw : ¬ Place.Blank w.text) :
    ∃ w', (∀ c ∈ w', IsWhite c) ∧
      (w'.getLast? = some (char ' ') ↔ w.text.getLast? = some (char ' ')) ∧
        Visits (a ++ (w.text ++ b)) ⟨w' ++ (b ++ [0]), 1, script, links⟩ := by
  obtain ⟨j, t, w', hw', ht, hspace⟩ := exists_white_of_not_blank w.white hw
  have hterm : Terminated (w' ++ (b ++ [0])) := Terminated.append ⟨b, rfl⟩ w'
  refine ⟨w', fun c hc => w.white c ?_, ?_, ?_⟩
  · rw [hw']
    exact List.mem_append_right _ (List.mem_cons_of_mem t hc)
  · rw [hw', List.getLast?_append_of_ne_nil _ (List.cons_ne_nil t w')]
    cases w' with
    | nil =>
        refine iff_of_false (fun h => Option.some_ne_none _ h.symm) fun h => hspace ?_
        exact Option.some.inj h
    | cons d w' => rw [List.getLast?_cons_cons]
  · have hend : Terminated (u ++ (spaces j ++ t :: (w' ++ (b ++ [0])))) :=
      ((hterm.append [t]).append (spaces j)).append u
    rw [Reaches, hw', List.append_assoc (spaces j) (t :: w') (b ++ [0])] at h
    rw [hw']
    exact h.tail (pass_of_goes hend (goes_takes (takes_white hu ht hspace) j _))

/-- Two runs that are gone over leave the same links. -/
theorem links_over {v w : WhiteRun} (hv : Reaches a v.text b [] balance script links)
    (hw : Reaches a w.text b [] balance script links)
    (hlast : balance = 1 ∧ Named b → w.text.getLast? = some (char ' '))
    (hlast' : balance = 1 ∧ Named b → v.text.getLast? = some (char ' ')) :
    genericGetLinks (a ++ (w.text ++ b)) = genericGetLinks (a ++ (v.text ++ b)) := by
  by_cases hlink : balance = 1 ∧ Named b
  · exact genericGetLinks_of_pass (visits_over_link hw w.white (hlast hlink))
      (visits_over_link hv v.white (hlast' hlink)) rfl
  · have hname (u : Bytes) : balance = 1 → Named b → u.getLast? ≠ some (char ' ') :=
      fun hbalance hnamed => absurd ⟨hbalance, hnamed⟩ hlink
    exact genericGetLinks_of_pass (visits_over hw w.white (hname w.text))
      (visits_over hv v.white (hname v.text)) rfl

theorem gap_ne_nil {u : Bytes} (hu : BehindName u ∨ BehindEquals u) : u ≠ [] := by
  rcases hu with ⟨attr, m, rfl⟩ | ⟨attr, k, m, rfl⟩ <;> cases attr <;> exact List.cons_ne_nil _ _

/-- Around a `=` it does not matter how many spaces there are. -/
theorem links_gap {u : Bytes} (h : Reaches a (spaces (n + 1)) b u 1 script links)
    (hu : BehindName u ∨ BehindEquals u) (hw : Place.Blank w.text) :
    genericGetLinks (a ++ (w.text ++ b)) = genericGetLinks (a ++ (spaces (n + 1) ++ b)) := by
  obtain ⟨j, hj⟩ := hw.exists_spaces
  have hreach := h.replace w fun hnil => absurd hnil (gap_ne_nil hu)
  rw [hj] at hreach ⊢
  exact genericGetLinks_of_pass hreach h (pass_gap hu j (n + 1) (b ++ [0]))

/-- A character that is taken along behind spaces is gone over behind other white
space, as long as it does not begin a name there. -/
theorem links_taken {u : Bytes} {c : UInt8} (h : Reaches a (spaces (n + 1)) b u 1 script links)
    (hu : Takes u c) (hb : b.head? = some c) (hc : c ≠ char '<' ∧ c ≠ char '>' ∧ c ≠ 0)
    (hw : ¬ Place.Blank w.text) (hlast : Named b → w.text.getLast? ≠ some (char ' ')) :
    genericGetLinks (a ++ (w.text ++ b)) = genericGetLinks (a ++ (spaces (n + 1) ++ b)) := by
  have hgap : BehindName u ∨ BehindEquals u := hu.2.imp And.left And.left
  obtain ⟨r, rfl⟩ := List.head?_eq_some_iff.mp hb
  have hterm : Terminated (c :: (r ++ [0])) := ⟨c :: r, rfl⟩
  have htaken : Visits (a ++ (spaces (n + 1) ++ c :: r)) ⟨r ++ [0], 1, script, links⟩ :=
    h.tail (pass_of_goes ((hterm.append (spaces (n + 1))).append u) (goes_takes hu (n + 1) _))
  have hreach := h.replace w fun hnil => absurd hnil (gap_ne_nil hgap)
  obtain ⟨w', hwhite, hlast', hleft⟩ := hreach.gap hgap hw
  have hover := visits_over hleft hwhite fun _ hnamed hspace => hlast hnamed (hlast'.mp hspace)
  have hskip : Goes ⟨c :: (r ++ [0]), 1, script, links⟩ ⟨r ++ [0], 1, script, links⟩ :=
    .skip hc fun attr hattr => hu.1 (eq_space_of_name hattr)
  exact genericGetLinks_of_pass (hover.tail (pass_of_goes hterm hskip)) htaken rfl

/-- A search that goes over the white space does not see it. -/
theorem strSkip_over {s x : Bytes} (hs : Searched s) (hx : Absent s x) (w : WhiteRun) (b : Bytes) :
    strSkipTillRightAfter s (x ++ (w.text ++ (b ++ [0]))) =
      strSkipTillRightAfter s (b ++ [0]) := by
  have hterm : Terminated (b ++ [0]) := ⟨b, rfl⟩
  obtain ⟨d, t, hw⟩ := List.exists_cons_of_ne_nil w.nonempty
  have hd : IsWhite d := w.white d (hw ▸ List.mem_cons_self ..)
  rw [← strSkip_white hs w.white hterm, hw]
  exact strSkip_absent hs hx hd (hterm.append (d :: t))

theorem pass_comment_over {x : Bytes} (hx : Absent (str "-->") (str "<!--" ++ x)) (v w : WhiteRun) :
    pass ⟨str "<!--" ++ x ++ (w.text ++ (b ++ [0])), balance, script, links⟩ =
      pass ⟨str "<!--" ++ x ++ (v.text ++ (b ++ [0])), balance, script, links⟩ := by
  obtain ⟨q, hq, -⟩ := strSkip_terminated (s := str "-->") (by decide) (⟨b, rfl⟩ : Terminated (b ++ [0]))
  have hskip (w : WhiteRun) := (strSkip_over ⟨by decide, by decide, by decide⟩ hx w b).trans hq
  simp only [List.append_assoc] at hskip ⊢
  rw [pass_comment (hskip v), pass_comment (hskip w)]

theorem pass_endScript_over {x : Bytes} (hx : Absent (str "</script>") (char '>' :: x))
    (v w : WhiteRun) :
    pass ⟨char '>' :: x ++ (w.text ++ (b ++ [0])), balance, true, links⟩ =
      pass ⟨char '>' :: x ++ (v.text ++ (b ++ [0])), balance, true, links⟩ := by
  obtain ⟨q, hq, -⟩ := strSkip_terminated (s := str "</script>") (by decide)
    (⟨b, rfl⟩ : Terminated (b ++ [0]))
  have hskip (w : WhiteRun) := (strSkip_over ⟨by decide, by decide, by decide⟩ hx w b).trans hq
  simp only [List.cons_append] at hskip ⊢
  rw [pass_endScript (hskip v), pass_endScript (hskip w)]

theorem pass_unclosed {u v p : Bytes} {q : UInt8} (hu : BehindEquals u) (hq : IsQuote q)
    (hv : q ∉ v ++ p) : pass ⟨u ++ q :: (v ++ p), 1, script, links⟩ = .inr none := by
  obtain ⟨attr, k, m, rfl⟩ := hu
  simp only [List.append_assoc, List.cons_append]
  rw [pass_name, value_of_open attr k m rfl hq hv]

end LinkScan

open LinkScan

namespace Place

/-- A run that its place allows leaves the links. -/
theorem At.links_eq {place : Place} {a b : Bytes} {n : Nat} {w : WhiteRun} (h : At a n b place)
    (hw : place.Allows w.text) :
    genericGetLinks (a ++ (w.text ++ b)) = genericGetLinks (a ++ (spaces (n + 1) ++ b)) := by
  have hspaces : (WhiteRun.spaces n).text.getLast? = some (char ' ') := by
    simp [WhiteRun.spaces, ZimTools.spaces, List.getLast?_replicate]
  cases h with
  | between h hscript hlink =>
      have hreach := h.replace w fun _ hs => absurd hs hscript
      exact links_over (v := WhiteRun.spaces n) h hreach (fun hb => hw (hlink.mpr hb)) fun _ => hspaces
  | @script balance script links link h hlink =>
      have hreach := (h.replace w fun hnil => absurd hnil (by decide)).behind_script hw.1
      have hzero (hb : balance + 1 = 1 ∧ Named b) : link = true :=
        hlink.mpr ⟨Int32.add_eq_right.mp hb.1, hb.2⟩
      exact links_over (Reaches.behind_script (w := WhiteRun.spaces n) h rfl) hreach
        (fun hb => hw.2 (hzero hb)) fun _ => hspaces
  | taken h hu hb hc hlink =>
      by_cases hblank : Blank w.text
      · exact links_gap h (hu.2.imp And.left And.left) hblank
      · exact links_taken h hu hb hc hblank fun hnamed =>
          hw.resolve_left hblank (hlink.mpr hnamed)
  | equals h hu hb => exact links_gap h (Or.inl hu) hw
  | quote h hu hq hb => exact links_gap h (Or.inr hu) hw
  | stop h hu hb => exact links_gap h hu hw
  | value h hu hq hv hb => exact absurd hw id
  | @unclosed u v q script links h hu hq hv hb =>
      have hreach := h.replace w fun hnil => absurd hnil (List.append_ne_nil_of_right_ne_nil u
        (List.cons_ne_nil q v))
      have hopen (w : WhiteRun) : q ∉ v ++ (w.text ++ (b ++ [0])) := by
        simp only [List.mem_append, List.mem_singleton, not_or]
        refine ⟨hv, fun hmem => ?_, hb, hq.ne_zero⟩
        have hwhite := w.white q hmem
        unfold IsWhite at hwhite
        rcases hq with rfl | rfl <;> exact absurd hwhite (by decide)
      rw [Reaches, List.append_assoc, List.cons_append] at h hreach
      exact genericGetLinks_of_pass hreach h
        ((pass_unclosed hu hq (hopen w)).trans (pass_unclosed hu hq (hopen (WhiteRun.spaces n))).symm)
  | comment h hx =>
      have hreach := h.replace w fun hnil => absurd hnil (List.cons_ne_nil _ _)
      exact genericGetLinks_of_pass hreach h (pass_comment_over hx (WhiteRun.spaces n) w)
  | endScript h hx =>
      have hreach := h.replace w fun hnil => absurd hnil (List.cons_ne_nil _ _)
      exact genericGetLinks_of_pass hreach h (pass_endScript_over hx (WhiteRun.spaces n) w)
  | behind h =>
      have hreach := h.replace w fun hnil => absurd hnil (List.cons_ne_nil _ _)
      exact genericGetLinks_of_pass hreach h rfl

end Place

/-! ## Every run has a place -/

namespace LinkScan

variable {a b x : Bytes} {n : Nat} {balance : Int32} {script : Bool} {links : List HtmlLink}

/-- The scan comes from `x` to `x'`. -/
theorem Reaches.goes {w x' : Bytes} {balance' : Int32} {script' : Bool} {links' : List HtmlLink}
    (h : Reaches a w b x balance script links)
    (hgoes : Goes ⟨x ++ (w ++ (b ++ [0])), balance, script, links⟩
      ⟨x' ++ (w ++ (b ++ [0])), balance', script', links'⟩) :
    Reaches a w b x' balance' script' links' :=
  h.tail (pass_of_goes (Terminated.append (Terminated.append ⟨b, rfl⟩ w) x) hgoes)

/-- At the run itself. -/
theorem exists_place_nil (h : Reaches a (spaces (n + 1)) b [] balance script links) :
    ∃ place : Place, place.At a n b := by
  by_cases hscript : ∃ balance script links,
      Reaches a (spaces (n + 1)) b (str "<script") balance script links
  · obtain ⟨balance, script, links, h⟩ := hscript
    by_cases hlink : balance = 0 ∧ Named b
    · exact ⟨.script true, .script h (iff_of_true rfl hlink)⟩
    · exact ⟨.script false, .script h (iff_of_false Bool.false_ne_true hlink)⟩
  · by_cases hlink : balance = 1 ∧ Named b
    · exact ⟨.between true, .between h hscript (iff_of_true rfl hlink)⟩
    · exact ⟨.between false, .between h hscript (iff_of_false Bool.false_ne_true hlink)⟩

/-- Around the `=` of a link attribute. -/
theorem exists_place_gap (h : Reaches a (spaces (n + 1)) b x 1 script links)
    (hx : BehindName x ∨ BehindEquals x) (hb : b.head? ≠ some (char ' ')) :
    ∃ place : Place, place.At a n b := by
  by_cases hstop : ∀ c ∈ b.head?, c = char '<' ∨ c = char '>' ∨ c = 0
  · exact ⟨.stop, .stop h hx hstop⟩
  · simp only [not_forall, not_or] at hstop
    obtain ⟨c, hc, hplain⟩ := hstop
    have hspace : c ≠ char ' ' := fun hspace => hb (hspace ▸ hc)
    have htaken (hu : Takes x c) : ∃ place : Place, place.At a n b := by
      by_cases hlink : Named b
      · exact ⟨.taken true, .taken h hu hc hplain (iff_of_true rfl hlink)⟩
      · exact ⟨.taken false, .taken h hu hc hplain (iff_of_false Bool.false_ne_true hlink)⟩
    rcases hx with hname | hequals
    · by_cases heq : c = char '='
      · exact ⟨.equals, .equals h hname (heq ▸ hc)⟩
      · exact htaken ⟨hspace, Or.inl ⟨hname, heq⟩⟩
    · by_cases hq : IsQuote c
      · exact ⟨.quote, .quote h hequals hq hc⟩
      · exact htaken ⟨hspace, Or.inr ⟨hequals, hq⟩⟩

/-- Behind the name of a link attribute. -/
theorem exists_place_name {attr : AttributeKind}
    (h : Reaches a (spaces (n + 1)) b (attr.name ++ x) 1 script links)
    (hb : b.head? ≠ some (char ' '))
    (ih : ∀ x' links', x'.length < x.length →
      Reaches a (spaces (n + 1)) b x' 1 script links' → ∃ place : Place, place.At a n b) :
    ∃ place : Place, place.At a n b := by
  rcases spaces_split x with ⟨m, rfl⟩ | ⟨m, c, y, rfl, hspace⟩
  · exact exists_place_gap h (Or.inl ⟨attr, m, rfl⟩) hb
  · by_cases hc : c = char '='
    · subst hc
      rcases spaces_split y with ⟨k, rfl⟩ | ⟨k, d, z, rfl, hspace'⟩
      · exact exists_place_gap h (Or.inr ⟨attr, m, k, rfl⟩) hb
      · by_cases hq : IsQuote d
        · rcases mem_split d z with hz | ⟨v, z', rfl, hv⟩
          · have hu : BehindEquals (attr.name ++ (spaces m ++ char '=' :: spaces k)) :=
              ⟨attr, m, k, rfl⟩
            have hreach : Reaches a (spaces (n + 1)) b
                (attr.name ++ (spaces m ++ char '=' :: spaces k) ++ d :: z) 1 script links := by
              simpa using h
            by_cases hd : d ∈ b
            · exact ⟨.value, .value hreach hu hq hz hd⟩
            · exact ⟨.unread, .unclosed hreach hu hq hz hd⟩
          · refine ih z' (links ++ [⟨attr, decodeHtmlEntities v⟩]) (by simp; omega) (h.goes ?_)
            simpa using Goes.link attr m k hq hv
        · refine ih z links (by simp; omega) (h.goes ?_)
          simpa using Goes.unquoted attr m k hspace' hq
    · refine ih y links (by simp; omega) (h.goes ?_)
      simpa using Goes.valueless attr m hspace hc

/-- In front of a character that the run is behind. -/
theorem cons_split {c : UInt8} {p t : Bytes} (hx : x ≠ []) (h : c :: p = x ++ t) :
    ∃ x', x = c :: x' ∧ p = x' ++ t := by
  cases x with
  | nil => exact absurd rfl hx
  | cons d x =>
      obtain ⟨rfl, hp⟩ := List.cons_eq_cons.mp h
      exact ⟨x, rfl, hp⟩

/-- Where a pass does not come to the run, it skips it. -/
theorem exists_place_of_goes {s' : LinkScan} (hx : x ≠ [])
    (h : Reaches a (spaces (n + 1)) b x balance script links)
    (hname : ¬ (balance = 1 ∧ ∃ attr : AttributeKind,
      attr.name <+: x ++ (spaces (n + 1) ++ (b ++ [0]))))
    (hgoes : Goes ⟨x ++ (spaces (n + 1) ++ (b ++ [0])), balance, script, links⟩ s')
    (hnext : ∀ x', s'.p = x' ++ (spaces (n + 1) ++ (b ++ [0])) →
      ∃ place : Place, place.At a n b) : ∃ place : Place, place.At a n b := by
  have hd : IsWhite (char ' ') := Or.inl rfl
  have hterm : Terminated (spaces (n + 1) ++ (b ++ [0])) := Terminated.append ⟨b, rfl⟩ _
  generalize ht : x ++ (spaces (n + 1) ++ (b ++ [0])) = t at hgoes hname
  cases hgoes with
  | @comment p q balance script links hskip =>
      have hsolid : Solid (str "<!--") := by decide
      obtain ⟨z, rfl⟩ := (hsolid.prefix_iff hd).mp ⟨p, ht.symm⟩
      by_cases habsent : Absent (str "-->") (str "<!--" ++ z)
      · exact ⟨.unread, .comment h habsent⟩
      · obtain ⟨y, x', -, hfound⟩ :=
          strSkip_present ⟨by decide, by decide, by decide⟩ habsent
        rw [← ht] at hskip
        exact hnext x' (Option.some.inj (hskip.symm.trans (hfound _ _ hd hterm)))
  | @less p balance script links hcomment hscript =>
      obtain ⟨x', -, hp⟩ := cons_split hx ht.symm
      exact hnext x' hp
  | @script c p balance script links hc =>
      have hsolid : Solid (str "<script") := by decide
      obtain ⟨z, rfl⟩ := (hsolid.prefix_iff hd).mp ⟨c :: p, ht.symm⟩
      rw [List.append_assoc] at ht
      exact hnext z (List.append_cancel_left ht).symm
  | @greater p balance links =>
      obtain ⟨x', -, hp⟩ := cons_split hx ht.symm
      exact hnext x' hp
  | @endScript p q balance links hskip =>
      obtain ⟨z, rfl, -⟩ := cons_split hx ht.symm
      by_cases habsent : Absent (str "</script>") (char '>' :: z)
      · exact ⟨.unread, .endScript h habsent⟩
      · obtain ⟨y, x', -, hfound⟩ :=
          strSkip_present ⟨by decide, by decide, by decide⟩ habsent
        rw [← ht] at hskip
        exact hnext x' (Option.some.inj (hskip.symm.trans (hfound _ _ hd hterm)))
  | @outside c p balance script links hc hbalance =>
      obtain ⟨x', -, hp⟩ := cons_split hx ht.symm
      exact hnext x' hp
  | @skip c p script links hc hskip =>
      obtain ⟨x', -, hp⟩ := cons_split hx ht.symm
      exact hnext x' hp
  | valueless attr m hspace hc => exact absurd ⟨rfl, attr, List.prefix_append _ _⟩ hname
  | unquoted attr m k hspace hc => exact absurd ⟨rfl, attr, List.prefix_append _ _⟩ hname
  | link attr m k hq hv => exact absurd ⟨rfl, attr, List.prefix_append _ _⟩ hname

/-- From wherever the scan is in front of the run. -/
theorem exists_place_of_reaches (hb : b.head? ≠ some (char ' '))
    (h : Reaches a (spaces (n + 1)) b x balance script links) :
    ∃ place : Place, place.At a n b := by
  induction hlen : x.length using Nat.strong_induction_on generalizing x balance script links with
  | _ k ih =>
  subst hlen
  have hend : Terminated (x ++ (spaces (n + 1) ++ (b ++ [0]))) :=
    Terminated.append (Terminated.append ⟨b, rfl⟩ _) x
  cases x with
  | nil => exact exists_place_nil h
  | cons c x =>
      by_cases hname : balance = 1 ∧ ∃ attr : AttributeKind,
          attr.name <+: c :: x ++ (spaces (n + 1) ++ (b ++ [0]))
      · obtain ⟨rfl, attr, hattr⟩ := hname
        obtain ⟨y, hy⟩ : attr.name <+: c :: x := by
          rw [attr.name_cons, List.cons_append, List.cons_prefix_cons] at hattr
          rw [attr.name_cons, List.cons_prefix_cons]
          exact ⟨hattr.1, (attr.solid_letters.prefix_iff (Or.inl rfl)).mp hattr.2⟩
        rw [← hy] at h ih
        refine exists_place_name h hb fun x' links' hlt h' => ih _ ?_ h' rfl
        rw [List.length_append]
        omega
      · have hstuck : ¬ Stuck ⟨c :: x ++ (spaces (n + 1) ++ (b ++ [0])), balance, script, links⟩ := by
          rintro ⟨hbalance, attr, rest, hrest, -⟩
          exact hname ⟨hbalance, attr, rest, hrest.symm⟩
        rcases pass_terminated hend hstuck with ⟨l, hexit⟩ | ⟨s', hpass, -⟩
        · have hc : c = 0 := by
            by_contra hc
            exact Option.some_ne_none l (pass_exit hc hexit)
          subst hc
          exact ⟨.unread, .behind h⟩
        · refine exists_place_of_goes (List.cons_ne_nil c x) h hname (goes_of_pass hend hpass) ?_
          intro x' hx'
          have hlt : s'.p.length < (c :: x ++ (spaces (n + 1) ++ (b ++ [0]))).length :=
            pass_length hpass
          have hreach : Reaches a (spaces (n + 1)) b x' s'.ltgtBalance s'.processingAScriptTag
              s'.links := by
            rw [Reaches, ← hx']
            exact h.tail hpass
          rw [hx'] at hlt
          simp only [List.length_append] at hlt
          exact ih x'.length (by omega) hreach rfl

end LinkScan

/-- Every run of spaces that the next character ends has a place. -/
theorem exists_place (a : Bytes) (n : Nat) (b : Bytes) (hb : b.head? ≠ some (char ' ')) :
    ∃ place : Place, place.At a n b :=
  LinkScan.exists_place_of_reaches hb (LinkScan.reaches_start a (spaces (n + 1)) b)

/-! ## What a place does not allow -/

/-- The links of a page are those with which its scan ends from anywhere on. -/
theorem genericGetLinks_of_run {page : Bytes} {s : LinkScan} {k : Nat}
    {r : Option (List HtmlLink)} (h : Visits page s)
    (hrun : Loop.run LinkScan.pass k s = some r) : genericGetLinks page = r := by
  obtain ⟨s', r', hsteps, hexit⟩ := LinkScan.exists_exit s
  rw [Loop.run_of_steps hsteps hexit hrun]
  exact LinkScan.genericGetLinks_of_steps (.trans h hsteps) hexit

namespace LinkScan

theorem visits_length {page : Bytes} {s : LinkScan} (h : Visits page s) :
    s.p.length ≤ page.length + 1 := by
  induction h with
  | refl => simp [start]
  | tail hsteps hpass ih =>
      have hlt := pass_length hpass
      omega

theorem Reaches.length_le {a w b x : Bytes} {balance : Int32} {script : Bool} {links : List HtmlLink}
    (h : Reaches a w b x balance script links) : x.length ≤ a.length := by
  have hle := visits_length h
  simp only [List.length_append, List.length_singleton] at hle
  omega

end LinkScan

open Place

/-- On some page with the place the run changes the links. -/
def Place.Breaks (place : Place) (w : WhiteRun) : Prop := ∃ a n b,
  place.At a n b ∧
    genericGetLinks (a ++ (w.text ++ b)) ≠ genericGetLinks (a ++ (spaces (n + 1) ++ b))

section

variable {w : WhiteRun}

theorem breaks_of_visits {place : Place} {a b : Bytes} {s : LinkScan} (l l' : List HtmlLink)
    (hplace : place.At a 0 b) (hspace : genericGetLinks (a ++ (spaces 1 ++ b)) = some l)
    (h : Visits (a ++ (w.text ++ b)) s) (hrun : Loop.run LinkScan.pass 50 s = some (some l'))
    (hne : l' ≠ l) : place.Breaks w := by
  refine ⟨a, 0, b, hplace, ?_⟩
  rw [hspace, genericGetLinks_of_run h hrun]
  exact fun heq => hne (Option.some.inj heq)

theorem reaches_tag (w b : Bytes) : Reaches (str "<a") w b [] 1 false [] :=
  (reaches_start (str "<a") w b).tail rfl |>.tail rfl

theorem at_between : (between true).At (str "<a") 0 (str "href='x'>") := by
  refine .between (reaches_tag _ _) ?_ (iff_of_true rfl ⟨rfl, .href, by decide⟩)
  rintro ⟨balance, script, links, h⟩
  exact absurd h.length_le (by decide)

/-- Other white space in front of a name hides it. -/
theorem breaks_between (hw : w.text.getLast? ≠ some (char ' ')) : (between true).Breaks w :=
  breaks_of_visits [⟨.href, str "x"⟩] [] at_between (by decide)
    (visits_over (reaches_tag w.text (str "href='x'>")) w.white fun _ _ => hw) (by decide)
    (by decide)

/-- Behind `<script` and white space that is no space the scan is in a tag like any
other. -/
theorem visits_no_script (hw : w.text.head? ≠ some (char ' ')) (b : Bytes) :
    Reaches (str "<script") w.text b [] 1 false [] := by
  have hterm : Terminated (w.text ++ (b ++ [0])) := Terminated.append ⟨b, rfl⟩ w.text
  have hscript : ¬ IsScript (str "script" ++ (w.text ++ (b ++ [0]))) := by
    intro hscript
    obtain ⟨c, q, hq, hc⟩ := isScript_iff.mp hscript
    obtain ⟨d, t, ht⟩ := List.exists_cons_of_ne_nil w.nonempty
    rw [ht] at hq hw
    obtain rfl : d = c := (List.cons_eq_cons.mp (List.append_cancel_left hq)).1
    rcases hc with rfl | rfl
    · exact (w.white (char '>') (ht ▸ List.mem_cons_self ..)).plain.2.1 rfl
    · exact hw rfl
  have hless : LinkScan.pass ⟨str "<script" ++ (w.text ++ (b ++ [0])), 0, false, []⟩ =
      .inl ⟨str "script" ++ (w.text ++ (b ++ [0])), 1, false, []⟩ :=
    pass_less (hterm.append (str "<script"))
      (fun hpre => absurd (List.cons_prefix_cons.mp hpre).1 (by decide)) hscript
  exact ((reaches_start (str "<script") w.text b).tail hless).trans
    (steps_letters (forall_mem_of_all (by decide)) hterm)

/-- Without a space behind `<script` the body of a script is scanned. -/
theorem breaks_script (hw : w.text.head? ≠ some (char ' ')) : (script false).Breaks w := by
  have hplace : (script false).At (str "<script") 0 (str "x><a href='y'></script>") := by
    refine .script (reaches_start _ _ _) (iff_of_false Bool.false_ne_true ?_)
    rintro ⟨-, attr, hattr⟩
    cases attr <;> exact absurd hattr (by decide)
  refine breaks_of_visits [] [⟨.href, str "y"⟩] hplace (by decide)
    (visits_over (visits_no_script hw _) w.white ?_) (by decide) (by decide)
  rintro - ⟨attr, hattr⟩
  cases attr <;> exact absurd hattr (by decide)

/-- With the `src` of the script behind the run, either that is missed or the body
is scanned. -/
theorem breaks_script_link
    (hw : w.text.head? ≠ some (char ' ') ∨ w.text.getLast? ≠ some (char ' ')) :
    (script true).Breaks w := by
  have hplace : (script true).At (str "<script") 0 (str "src='x'><a href='y'></script>") :=
    .script (reaches_start _ _ _) (iff_of_true rfl ⟨rfl, .src, by decide⟩)
  have hspace : genericGetLinks (str "<script" ++ (spaces 1 ++
      str "src='x'><a href='y'></script>")) = some [⟨.src, str "x"⟩] := by decide
  by_cases hhead : w.text.head? = some (char ' ')
  · have hlast := hw.resolve_left (not_not_intro hhead)
    have hscript := (reaches_start (str "<script") w.text
      (str "src='x'><a href='y'></script>")).behind_script hhead
    exact breaks_of_visits _ [] hplace hspace (visits_over hscript w.white fun _ _ => hlast)
      (by decide) (by decide)
  · by_cases hlast : w.text.getLast? = some (char ' ')
    · exact breaks_of_visits _ [⟨.src, str "x"⟩, ⟨.href, str "y"⟩] hplace hspace
        (visits_over_link (visits_no_script hhead _) w.white hlast) (by decide) (by decide)
    · exact breaks_of_visits _ [⟨.href, str "y"⟩] hplace hspace
        (visits_over (visits_no_script hhead _) w.white fun _ _ => hlast) (by decide) (by decide)

theorem reaches_name (w b : Bytes) : Reaches (str "<a href") w b (str " href") 1 false [] :=
  (reaches_start (str "<a href") w b).tail rfl |>.tail rfl

theorem reaches_equals (w b : Bytes) : Reaches (str "<a href=") w b (str " href=") 1 false [] :=
  (reaches_start (str "<a href=") w b).tail rfl |>.tail rfl

theorem behindName_href : BehindName (str " href") := ⟨.href, 0, rfl⟩

theorem behindEquals_href : BehindEquals (str " href=") := ⟨.href, 0, 0, rfl⟩

/-- A link behind a `href` without a value is found only behind a second space. -/
theorem breaks_taken (hw : ¬ Blank w.text) (hlast : w.text.getLast? = some (char ' ')) :
    (taken true).Breaks w := by
  have hplace : (taken true).At (str "<a href") 0 (str "src='x'>") :=
    .taken (reaches_name _ _) ⟨by decide, Or.inl ⟨behindName_href, by decide⟩⟩ rfl (by decide)
      (iff_of_true rfl ⟨.src, by decide⟩)
  obtain ⟨w', hwhite, hlast', h⟩ := (reaches_name w.text (str "src='x'>")).gap
    (Or.inl behindName_href) hw
  exact breaks_of_visits [] [⟨.src, str "x"⟩] hplace (by decide)
    (visits_over_link h hwhite (hlast'.mpr hlast)) (by decide) (by decide)

/-- Around a `=` other white space takes the place of the `=`, the quote or the
bracket. -/
theorem breaks_gap {place : Place} {a b u : Bytes} (l l' : List HtmlLink)
    (hplace : place.At a 0 b) (hspace : genericGetLinks (a ++ (spaces 1 ++ b)) = some l)
    (h : Reaches a w.text b u 1 false []) (hu : BehindName u ∨ BehindEquals u)
    (hw : ¬ Blank w.text) (hb : ∀ attr : AttributeKind, ¬ attr.name <+: char ' ' :: b)
    (hrun : Loop.run LinkScan.pass 50 ⟨b ++ [0], 1, false, []⟩ = some (some l'))
    (hne : l' ≠ l) : place.Breaks w := by
  obtain ⟨w', hwhite, -, hleft⟩ := h.gap hu hw
  refine breaks_of_visits l l' hplace hspace (visits_over hleft hwhite ?_) hrun hne
  rintro - ⟨attr, hattr⟩
  exact absurd hattr (hb attr)

theorem breaks_equals (hw : ¬ Blank w.text) : equals.Breaks w :=
  breaks_gap [⟨.href, str "x"⟩] [] (.equals (b := str "='x'>") (reaches_name _ _) behindName_href rfl)
    (by decide) (reaches_name _ _) (Or.inl behindName_href) hw
    (fun attr => by cases attr <;> decide) (by decide) (by decide)

theorem breaks_quote (hw : ¬ Blank w.text) : quote.Breaks w :=
  breaks_gap [⟨.href, str "x"⟩] []
    (.quote (b := str "'x'>") (reaches_equals _ _) behindEquals_href (Or.inl rfl) rfl) (by decide)
    (reaches_equals _ _) (Or.inr behindEquals_href) hw (fun attr => by cases attr <;> decide)
    (by decide) (by decide)

/-- The `>` behind the run is no longer taken along, and the next tag is read. -/
theorem breaks_stop (hw : ¬ Blank w.text) : stop.Breaks w := by
  have hplace : stop.At (str "<a href=") 0 (str "><a src='x'>") := by
    refine .stop (reaches_equals _ _) (Or.inr behindEquals_href) fun c hc => ?_
    exact Or.inr (Or.inl (Option.some.inj hc).symm)
  exact breaks_gap [] [⟨.src, str "x"⟩] hplace (by decide) (reaches_equals _ _)
    (Or.inr behindEquals_href) hw (fun attr => by cases attr <;> decide) (by decide) (by decide)

/-- What is between two attributes is part of a link when the value of the first
one ends in `href=`, and no run is as good there as one space and as two. -/
theorem breaks_value : value.Breaks w := by
  have hreach (w : Bytes) : Reaches (str "<a b=' href='") w (str "c='d'>") (str " href='") 1 false [] :=
    (reaches_start (str "<a b=' href='") w _).tail rfl |>.tail rfl |>.tail rfl |>.tail rfl
      |>.tail rfl |>.tail rfl
  have hplace (n : Nat) : value.At (str "<a b=' href='") n (str "c='d'>") :=
    .value (u := str " href=") (v := []) (hreach _) behindEquals_href (Or.inl rfl)
      List.not_mem_nil (by decide)
  have hone : genericGetLinks (str "<a b=' href='" ++ (spaces 1 ++ str "c='d'>")) =
      some [⟨.href, str " c="⟩] := by decide
  have htwo : genericGetLinks (str "<a b=' href='" ++ (spaces 2 ++ str "c='d'>")) =
      some [⟨.href, str "  c="⟩] := by decide
  by_cases hlinks : genericGetLinks (str "<a b=' href='" ++ (w.text ++ str "c='d'>")) =
      some [⟨.href, str " c="⟩]
  · refine ⟨_, 1, _, hplace 1, ?_⟩
    rw [hlinks, htwo]
    decide
  · refine ⟨_, 0, _, hplace 0, ?_⟩
    rw [hone]
    exact hlinks

/-- A run that its place does not allow changes the links of some page. -/
theorem breaks_of_not_allows (place : Place) (hw : ¬ place.Allows w.text) : place.Breaks w := by
  cases place with
  | between link =>
      cases link with
      | true => exact breaks_between fun hlast => hw fun _ => hlast
      | false => exact absurd (fun hlink => absurd hlink Bool.false_ne_true) hw
  | script link =>
      cases link with
      | true =>
          refine breaks_script_link (not_and_or.mp fun h => hw ⟨h.1, fun _ => h.2⟩)
      | false =>
          refine breaks_script fun hhead => hw ⟨hhead, fun hlink => ?_⟩
          exact absurd hlink Bool.false_ne_true
  | taken link =>
      obtain ⟨hblank, hlink⟩ := not_or.mp hw
      cases link with
      | true => exact breaks_taken hblank (not_not.mp fun hlast => hlink fun _ => hlast)
      | false => exact absurd (fun hlink => absurd hlink Bool.false_ne_true) hlink
  | equals => exact breaks_equals hw
  | quote => exact breaks_quote hw
  | stop => exact breaks_stop hw
  | value => exact breaks_value
  | unread => exact absurd trivial hw

end

/-- Every run of spaces has a place, and a run of white space may stand for it
without a change of the links, whatever the page, if and only if the place allows
it. -/
theorem genericGetLinks_replace_iff (place : Place) (w : WhiteRun) :
    (∀ (a : Bytes) (n : Nat) (b : Bytes), b.head? ≠ some (char ' ') →
      ∃ place : Place, place.At a n b) ∧
    ((∀ a n b, place.At a n b →
      genericGetLinks (a ++ (w.text ++ b)) = genericGetLinks (a ++ (spaces (n + 1) ++ b))) ↔
        place.Allows w.text) := by
  refine ⟨exists_place, fun h => ?_, fun hw a n b hplace => hplace.links_eq hw⟩
  by_contra hw
  obtain ⟨a, n, b, hplace, hne⟩ := breaks_of_not_allows place hw
  exact hne (h a n b hplace)

/-- A tab and a space. -/
def tabSpace : WhiteRun := ⟨str "\t ", by decide, forall_mem_of_all (by decide)⟩

/-- With both in front of it, a `href` is found as with a space. -/
theorem genericGetLinks_replace_iff_sample :
    (∃ place : Place, place.At (str "<a") 0 (str "href='x'>")) ∧
      genericGetLinks (str "<a" ++ (str "\t " ++ str "href='x'>")) =
        genericGetLinks (str "<a" ++ (spaces 1 ++ str "href='x'>")) := by
  obtain ⟨hplaces, hlinks⟩ := genericGetLinks_replace_iff (.between true) tabSpace
  refine ⟨hplaces (str "<a") 0 (str "href='x'>") (by decide), ?_⟩
  exact hlinks.mpr (fun _ => rfl) (str "<a") 0 (str "href='x'>") at_between

/-- With a tab alone it is not. -/
theorem link_behind_tab :
    genericGetLinks (str "<a" ++ (spaces 1 ++ str "href='x'>")) = some [⟨.href, str "x"⟩] ∧
      genericGetLinks (str "<a" ++ (str "\t" ++ str "href='x'>")) = some [] := by
  decide

end ZimTools
