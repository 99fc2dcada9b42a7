import ZimTools.Tools.LinkGrammar

/-!
# White space and the scan

A pass looks at no white space behind the text that it goes over, except at the
character behind `<script`.  So the scan of a page comes to a run of spaces as it
comes to any other run of white space in the same place (`LinkScan.visits_replace`).
What it does with a run depends on where the run is: it goes over it
(`LinkScan.steps_white`), it is in front of or behind the `=` of an attribute, where
only spaces are skipped (`LinkScan.pass_gap`), or it is inside what a comment or a
script skips (`strSkip_white`).
-/

namespace ZimTools

open Bytes
open Relation (ReflTransGen)

/-! ## White space -/

def IsWhite (c : UInt8) : Prop := c = char ' ' ∨ c = char '\t' ∨ c = char '\n'

instance : DecidablePred IsWhite := fun _ => inferInstanceAs (Decidable (_ ∨ _))

/-- A run of white space. -/
structure WhiteRun where
  text : Bytes
  nonempty : text ≠ []
  white : ∀ c ∈ text, IsWhite c

theorem white_spaces (n : Nat) : ∀ c ∈ spaces n, IsWhite c :=
  fun _ hc => Or.inl (List.mem_replicate.mp hc).2

def WhiteRun.spaces (n : Nat) : WhiteRun where
  text := ZimTools.spaces (n + 1)
  nonempty := by simp [ZimTools.spaces]
  white := white_spaces (n + 1)

theorem IsWhite.plain {c : UInt8} (h : IsWhite c) : c ≠ char '<' ∧ c ≠ char '>' ∧ c ≠ 0 := by
  rcases h with rfl | rfl | rfl <;> decide

/-- No white space. -/
def Solid (s : Bytes) : Prop := ∀ c ∈ s, ¬ IsWhite c

instance (s : Bytes) : Decidable (Solid s) := List.decidableBAll (fun c => ¬ IsWhite c) s

theorem AttributeKind.solid_letters (attr : AttributeKind) : Solid attr.name.tail := by
  cases attr <;> decide

/-- What is without white space ends in front of it. -/
theorem Solid.prefix_iff {s x t : Bytes} {d : UInt8} (hs : Solid s) (hd : IsWhite d) :
    s <+: x ++ d :: t ↔ s <+: x := by
  constructor
  · intro h
    rcases List.prefix_or_prefix_of_prefix h (List.prefix_append x (d :: t)) with hin | ⟨w, rfl⟩
    · exact hin
    · rw [List.prefix_append_right_inj] at h
      cases w with
      | nil => simp
      | cons c w =>
          obtain rfl : c = d := (List.cons_prefix_cons.mp h).1
          exact absurd hd (hs c (List.mem_append_right x (List.mem_cons_self ..)))
  · exact fun h => h.trans (List.prefix_append x (d :: t))

/-! ## Searches -/

/-- Neither what is looked for is in the text, nor a NUL. -/
def Absent (s x : Bytes) : Prop := 0 ∉ x ∧ ¬ s <:+: x

/-- A string that a page can be searched for: without white space and without NUL. -/
structure Searched (s : Bytes) : Prop where
  nonempty : s ≠ []
  solid : Solid s
  nul : 0 ∉ s

theorem strSkip_absent {s x t : Bytes} {d : UInt8} (hs : Searched s) (hx : Absent s x)
    (hd : IsWhite d) (hterm : Terminated (d :: t)) :
    strSkipTillRightAfter s (x ++ d :: t) = strSkipTillRightAfter s (d :: t) := by
  induction x with
  | nil => rfl
  | cons c x ih =>
      have hc : c ≠ 0 := fun hc => hx.1 (hc ▸ List.mem_cons_self ..)
      have htail : Absent s x :=
        ⟨fun hmem => hx.1 (List.mem_cons_of_mem c hmem), fun hin => hx.2 (List.infix_cons hin)⟩
      have hpre : ¬ s <+: (c :: x) ++ d :: t := fun hpre =>
        hx.2 ((hs.solid.prefix_iff hd).mp hpre).isInfix
      rw [← ih htail]
      exact strSkip_ne hc hs.nul (hterm.append (c :: x)) hpre

theorem strSkip_white {s w p : Bytes} (hs : Searched s) (hw : ∀ c ∈ w, IsWhite c)
    (hp : Terminated p) : strSkipTillRightAfter s (w ++ p) = strSkipTillRightAfter s p := by
  induction w with
  | nil => rfl
  | cons d w ih =>
      have hd := hw d (List.mem_cons_self ..)
      have hpre : ¬ s <+: d :: (w ++ p) := by
        intro hpre
        have hnil : s <+: [] := (hs.solid.prefix_iff (x := []) hd).mp hpre
        exact hs.nonempty (List.prefix_nil.mp hnil)
      rw [List.cons_append, ← ih fun c hc => hw c (List.mem_cons_of_mem d hc)]
      exact strSkip_ne hd.plain.2.2 hs.nul (hp.append (d :: w)) hpre

/-- What is found in a text is found whatever is behind that, from white space on. -/
theorem strSkip_present {s x : Bytes} (hs : Searched s) (hx : ¬ Absent s x) :
    ∃ y x', x = y ++ x' ∧ ∀ d t, IsWhite d → Terminated (d :: t) →
      strSkipTillRightAfter s (x ++ d :: t) = some (x' ++ d :: t) := by
  induction x with
  | nil =>
      refine absurd ⟨List.not_mem_nil, fun hin => hs.nonempty ?_⟩ hx
      exact List.infix_nil.mp hin
  | cons c x ih =>
      by_cases hc : c = 0
      · subst hc
        exact ⟨[], 0 :: x, rfl, fun d t _ _ => if_pos rfl⟩
      · by_cases hpre : s <+: c :: x
        · obtain ⟨x', hx'⟩ := hpre
          refine ⟨s, x', hx'.symm, fun d t _ _ => ?_⟩
          have hcmp : strncmp (c :: (x ++ d :: t)) s = some true := by
            rw [← List.cons_append, ← hx', List.append_assoc]
            exact strncmp_append s _
          rw [List.cons_append, strSkipTillRightAfter, if_neg hc, hcmp, ← List.cons_append, ← hx',
            List.append_assoc]
          simp
        · have htail : ¬ Absent s x := by
            intro htail
            refine hx ⟨fun hmem => ?_, fun hin => ?_⟩
            · exact htail.1 ((List.mem_cons.mp hmem).resolve_left fun h => hc h.symm)
            · exact htail.2 ((List.infix_cons_iff.mp hin).resolve_left hpre)
          obtain ⟨y, x', rfl, hfound⟩ := ih htail
          refine ⟨c :: y, x', rfl, fun d t hd hterm => ?_⟩
          rw [← hfound d t hd hterm]
          refine strSkip_ne hc hs.nul (hterm.append (c :: (y ++ x'))) fun h => hpre ?_
          exact (hs.solid.prefix_iff hd).mp h

/-- A search that ends in front of white space does so in front of any other. -/
theorem strSkip_replace {s u x t t' : Bytes} {d d' : UInt8} (hs : Searched s) (hd : IsWhite d)
    (hd' : IsWhite d') (hterm : Terminated (d :: t)) (hterm' : Terminated (d' :: t'))
    (h : strSkipTillRightAfter s (u ++ (x ++ d :: t)) = some (x ++ d :: t)) :
    strSkipTillRightAfter s (u ++ (x ++ d' :: t')) = some (x ++ d' :: t') := by
  rw [← List.append_assoc] at h ⊢
  by_cases hx : Absent s (u ++ x)
  · have ht : Terminated t := hterm.of_cons hd.plain.2.2
    have hskip : strSkipTillRightAfter s (d :: t) = strSkipTillRightAfter s t :=
      strSkip_white (w := [d]) hs (fun c hc => (List.mem_singleton.mp hc) ▸ hd) ht
    rw [strSkip_absent hs hx hd hterm, hskip] at h
    have hlength := strSkip_length h
    rw [List.length_append, List.length_cons] at hlength
    omega
  · obtain ⟨y, x', hsplit, hfound⟩ := strSkip_present hs hx
    rw [hfound d t hd hterm] at h
    obtain rfl := List.append_cancel_right (Option.some.inj h)
    exact hfound d' t' hd' hterm'

/-- A search that starts at a word without white space starts there for another
run as well. -/
theorem Solid.exists_strSkip_replace {w s p u x t t' : Bytes} {d d' : UInt8} (hw : Solid w)
    (hs : Searched s) (hd : IsWhite d) (hd' : IsWhite d') (hterm : Terminated (d :: t))
    (hterm' : Terminated (d' :: t')) (hsplit : w ++ p = u ++ (x ++ d :: t))
    (h : strSkipTillRightAfter s (w ++ p) = some (x ++ d :: t)) :
    ∃ z, u ++ (x ++ d' :: t') = w ++ z ∧
      strSkipTillRightAfter s (w ++ z) = some (x ++ d' :: t') := by
  have hin : w <+: (u ++ x) ++ d :: t := by
    rw [List.append_assoc, ← hsplit]
    exact List.prefix_append w p
  obtain ⟨z, hz⟩ := (hw.prefix_iff hd).mp hin
  have hrun : u ++ (x ++ d' :: t') = w ++ (z ++ d' :: t') := by
    rw [← List.append_assoc, ← hz, List.append_assoc]
  rw [hsplit] at h
  exact ⟨z ++ d' :: t', hrun, hrun ▸ strSkip_replace hs hd hd' hterm hterm' h⟩

theorem strSkip_suffix {s p q : Bytes} (h : strSkipTillRightAfter s p = some q) : q <:+ p := by
  induction p with
  | nil => exact absurd h.symm (Option.some_ne_none q)
  | cons c p ih =>
      rw [strSkipTillRightAfter] at h
      split at h
      · obtain rfl := Option.some.inj h
        exact List.suffix_rfl
      · obtain ⟨found, -, h⟩ := Option.bind_eq_some_iff.mp h
        split at h
        · rw [← Option.some.inj h]
          exact List.drop_suffix _ _
        · exact (ih h).trans (List.suffix_cons c p)

/-! ## A pass in front of white space -/

/-- Whether a tag is a script is decided by the character behind `script`, and a
space there makes it one. -/
theorem IsScript.of_white {x t t' : Bytes} {d : UInt8} (hd : IsWhite d)
    (h : IsScript (x ++ d :: t)) : IsScript (x ++ char ' ' :: t') := by
  obtain ⟨c, q, hq, hc⟩ := LinkScan.isScript_iff.mp h
  have hsolid : Solid (str "script") := by decide
  obtain ⟨z, rfl⟩ := (hsolid.prefix_iff hd).mp ⟨c :: q, hq.symm⟩
  rw [List.append_assoc] at hq ⊢
  cases z with
  | nil => exact LinkScan.isScript_iff.mpr ⟨char ' ', t', rfl, Or.inr rfl⟩
  | cons b z =>
      obtain rfl : b = c := (List.cons_eq_cons.mp (List.append_cancel_left hq)).1
      exact LinkScan.isScript_iff.mpr ⟨b, z ++ char ' ' :: t', rfl, hc⟩

theorem name_of_white {x t t' : Bytes} {c d d' : UInt8} {attr : AttributeKind} (hd : IsWhite d)
    (hd' : IsWhite d') (h : attr.name <+: c :: (x ++ d :: t)) :
    attr.name <+: c :: (x ++ d' :: t') := by
  rw [attr.name_cons, List.cons_prefix_cons] at h ⊢
  exact ⟨h.1, (attr.solid_letters.prefix_iff hd').mpr ((attr.solid_letters.prefix_iff hd).mp h.2)⟩

theorem eq_space_of_name {c : UInt8} {p : Bytes} {attr : AttributeKind}
    (h : attr.name <+: c :: p) : c = char ' ' := by
  rw [attr.name_cons] at h
  exact (List.cons_prefix_cons.mp h).1.symm

/-- No name has white space behind its space. -/
theorem not_name_of_white {c d : UInt8} {p : Bytes} {attr : AttributeKind} (hd : IsWhite d) :
    ¬ attr.name <+: c :: d :: p := by
  intro h
  rw [attr.name_cons] at h
  have hletters : attr.name.tail <+: [] :=
    (attr.solid_letters.prefix_iff (x := []) hd).mp (List.cons_prefix_cons.mp h).2
  cases attr <;> exact absurd (List.prefix_nil.mp hletters) (by decide)

namespace LinkScan

/-- A pass up to a run of white space, or to what is in front of it, is the same
for another run, unless it goes over `<script`. -/
theorem Goes.replace {s s' : LinkScan} {u x t t' : Bytes} {d' : UInt8} (h : Goes s s')
    (hs : s.p = u ++ (x ++ char ' ' :: t)) (hs' : s'.p = x ++ char ' ' :: t)
    (hterm : Terminated (char ' ' :: t)) (hterm' : Terminated (d' :: t')) (hd' : IsWhite d')
    (hscript : u = str "<script" → x = [] → d' = char ' ') :
    Goes { s with p := u ++ (x ++ d' :: t') } { s' with p := x ++ d' :: t' } := by
  have hd : IsWhite (char ' ') := Or.inl rfl
  cases h with
  | @comment p q balance script links h =>
      dsimp only at hs hs' ⊢
      subst hs'
      have hsolid : Solid (str "<!--") := by decide
      obtain ⟨z, hz, hskip⟩ := hsolid.exists_strSkip_replace ⟨by decide, by decide, by decide⟩
        hd hd' hterm hterm' hs h
      rw [hz]
      exact .comment hskip
  | @less p balance script links hcomment hscript' =>
      dsimp only at hs hs' ⊢
      subst hs'
      obtain rfl : [char '<'] = u := List.append_cancel_right hs
      have hsolid : Solid (str "!--") := by decide
      refine .less (fun hpre => hcomment ?_) fun hpre => hscript' (hpre.of_white hd')
      exact (hsolid.prefix_iff hd).mpr ((hsolid.prefix_iff hd').mp hpre)
  | @script c p balance script links hc =>
      dsimp only at hs hs' ⊢
      rw [hs'] at hs
      obtain rfl : str "<script" = u := List.append_cancel_right hs
      cases x with
      | nil => exact .script (Or.inr (hscript rfl rfl))
      | cons b x =>
          obtain rfl : c = b := (List.cons_eq_cons.mp hs').1
          exact .script hc
  | @greater p balance links =>
      dsimp only at hs hs' ⊢
      subst hs'
      obtain rfl : [char '>'] = u := List.append_cancel_right hs
      exact .greater
  | @endScript p q balance links h =>
      dsimp only at hs hs' ⊢
      subst hs'
      have hsolid : Solid (str ">") := by decide
      obtain ⟨z, hz, hskip⟩ := hsolid.exists_strSkip_replace ⟨by decide, by decide, by decide⟩
        hd hd' hterm hterm' hs h
      rw [hz]
      exact .endScript hskip
  | @outside c p balance script links hc hbalance =>
      dsimp only at hs hs' ⊢
      subst hs'
      obtain rfl : [c] = u := List.append_cancel_right hs
      exact .outside hc hbalance
  | @skip c p script links hc hname =>
      dsimp only at hs hs' ⊢
      subst hs'
      obtain rfl : [c] = u := List.append_cancel_right hs
      exact .skip hc fun attr hattr => hname attr (name_of_white hd' hd hattr)
  | @valueless attr n c p script links hspace hc =>
      dsimp only at hs hs' ⊢
      subst hs'
      obtain rfl : attr.name ++ (spaces n ++ [c]) = u := by
        refine List.append_cancel_right (Eq.trans ?_ hs)
        simp
      simpa using Goes.valueless attr n hspace hc
  | @unquoted attr n m c p script links hspace hc =>
      dsimp only at hs hs' ⊢
      subst hs'
      obtain rfl : attr.name ++ (spaces n ++ char '=' :: (spaces m ++ [c])) = u := by
        refine List.append_cancel_right (Eq.trans ?_ hs)
        simp
      simpa using Goes.unquoted attr n m hspace hc
  | @link attr n m q v p script links hq hv =>
      dsimp only at hs hs' ⊢
      subst hs'
      obtain rfl : attr.name ++ (spaces n ++ char '=' :: (spaces m ++ q :: (v ++ [q]))) = u := by
        refine List.append_cancel_right (Eq.trans ?_ hs)
        simp
      simpa using Goes.link attr n m hq hv

theorem Goes.suffix {s s' : LinkScan} (h : Goes s s') : s'.p <:+ s.p := by
  cases h with
  | comment h => exact strSkip_suffix h
  | less hcomment hscript => exact List.suffix_cons _ _
  | script hc => exact List.suffix_append _ _
  | greater => exact List.suffix_cons _ _
  | endScript h => exact strSkip_suffix h
  | outside hc hbalance => exact List.suffix_cons _ _
  | skip hc hname => exact List.suffix_cons _ _
  | @valueless attr n c p script links hspace hc =>
      exact ⟨attr.name ++ (spaces n ++ [c]), by simp⟩
  | @unquoted attr n m c p script links hspace hc =>
      exact ⟨attr.name ++ (spaces n ++ char '=' :: (spaces m ++ [c])), by simp⟩
  | @link attr n m q v p script links hq hv =>
      exact ⟨attr.name ++ (spaces n ++ char '=' :: (spaces m ++ q :: (v ++ [q]))), by simp⟩

/-! ## A scan up to white space -/

/-- Where the page is `a`, `w` and `b`, the scan comes to `x` in front of `w`. -/
def Reaches (a w b x : Bytes) (balance : Int32) (script : Bool) (links : List HtmlLink) : Prop :=
  Visits (a ++ (w ++ b)) ⟨x ++ (w ++ (b ++ [0])), balance, script, links⟩

theorem reaches_start (a w b : Bytes) : Reaches a w b a 0 false [] := by
  have hstart : start (a ++ (w ++ b)) = ⟨a ++ (w ++ (b ++ [0])), 0, false, []⟩ := by
    simp [start]
  rw [Reaches, ← hstart]
  exact .refl

/-- The scan comes to another run of white space as it comes to spaces, unless
these are directly behind `<script`. -/
theorem visits_replace {a b : Bytes} {n : Nat} {w : WhiteRun} {s : LinkScan}
    (h : Visits (a ++ (spaces (n + 1) ++ b)) s) (x : Bytes)
    (hx : s.p = x ++ (spaces (n + 1) ++ (b ++ [0])))
    (hscript : x = [] → (∃ balance script links,
      Reaches a (spaces (n + 1)) b (str "<script") balance script links) →
        w.text.head? = some (char ' ')) :
    Visits (a ++ (w.text ++ b)) { s with p := x ++ (w.text ++ (b ++ [0])) } := by
  obtain ⟨d, t, hw⟩ := List.exists_cons_of_ne_nil w.nonempty
  have hd : IsWhite d := w.white d (hw ▸ List.mem_cons_self ..)
  have hspaces : Terminated (spaces (n + 1) ++ (b ++ [0])) := Terminated.append ⟨b, rfl⟩ _
  have hwhite : Terminated (d :: (t ++ (b ++ [0]))) := Terminated.append ⟨b, rfl⟩ (d :: t)
  induction h generalizing x with
  | refl =>
      obtain rfl : a = x := by
        refine List.append_cancel_right (Eq.trans ?_ hx)
        simp [start]
      exact reaches_start a w.text b
  | @tail s s' hsteps hpass ih =>
      have hgoes : Goes s s' := goes_of_visits hsteps hpass
      obtain ⟨u, hu⟩ := hgoes.suffix
      have hlt := pass_length hpass
      have hne : u ++ x ≠ [] := by
        intro hnil
        rw [← hu, (List.append_eq_nil_iff.mp hnil).1] at hlt
        exact absurd hlt (Nat.lt_irrefl _)
      have hspace : spaces (n + 1) ++ (b ++ [0]) = char ' ' :: (spaces n ++ (b ++ [0])) := rfl
      have hvisit := ih (u ++ x) (by rw [← hu, hx, List.append_assoc]) fun hnil => absurd hnil hne
      rw [List.append_assoc] at hvisit
      refine hvisit.tail (pass_of_goes (Terminated.append ?_ u) ?_)
      · exact Terminated.append (Terminated.append ⟨b, rfl⟩ w.text) x
      · rw [hw]
        rw [hspace] at hx hspaces
        refine hgoes.replace (hu.symm.trans (by rw [hx])) hx hspaces hwhite hd ?_
        intro hu' hx'
        subst hu' hx'
        have hfront : Reaches a (spaces (n + 1)) b (str "<script") s.ltgtBalance
            s.processingAScriptTag s.links := by
          rw [Reaches, hspace, ← List.nil_append (char ' ' :: _), ← hx, hu]
          exact hsteps
        have hhead := hscript rfl ⟨_, _, _, hfront⟩
        rw [hw] at hhead
        exact Option.some.inj hhead

theorem Reaches.replace {a b x : Bytes} {n : Nat} {balance : Int32} {script : Bool}
    {links : List HtmlLink} (h : Reaches a (spaces (n + 1)) b x balance script links)
    (w : WhiteRun) (hscript : x = [] → (∃ balance script links,
      Reaches a (spaces (n + 1)) b (str "<script") balance script links) →
        w.text.head? = some (char ' ')) :
    Reaches a w.text b x balance script links :=
  visits_replace h x rfl hscript

/-! ## Over white space -/

/-- At white space the scan goes on, unless the name of an attribute is behind it. -/
theorem steps_white {w p : Bytes} {balance : Int32} {script : Bool} {links : List HtmlLink}
    (hw : ∀ c ∈ w, IsWhite c) (hterm : Terminated p)
    (hname : balance = 1 → w.getLast? = some (char ' ') →
      ∀ attr : AttributeKind, ¬ attr.name <+: char ' ' :: p) :
    Steps ⟨w ++ p, balance, script, links⟩ ⟨p, balance, script, links⟩ := by
  induction w with
  | nil => exact .refl
  | cons d w ih =>
      have hd := hw d (List.mem_cons_self ..)
      have htail : ∀ c ∈ w, IsWhite c := fun c hc => hw c (List.mem_cons_of_mem d hc)
      have hend : Terminated (d :: (w ++ p)) := hterm.append (d :: w)
      have hgoes : Goes ⟨d :: (w ++ p), balance, script, links⟩ ⟨w ++ p, balance, script, links⟩ := by
        by_cases hbalance : balance = 1
        · subst hbalance
          refine .skip hd.plain fun attr hattr => ?_
          cases w with
          | nil =>
              obtain rfl := eq_space_of_name hattr
              exact hname rfl rfl attr hattr
          | cons e w => exact not_name_of_white (htail e (List.mem_cons_self ..)) hattr
        · exact .outside hd.plain hbalance
      refine .head (pass_of_goes hend hgoes) (ih htail fun hbalance hlast => hname hbalance ?_)
      cases w with
      | nil => exact absurd hlast.symm (Option.some_ne_none _)
      | cons e w =>
          rw [List.getLast?_cons_cons]
          exact hlast

/-- Letters that are not a name behind a space are gone over. -/
theorem steps_letters {t p : Bytes} {script : Bool} {links : List HtmlLink}
    (ht : ∀ c ∈ t, c ≠ char '<' ∧ c ≠ char '>' ∧ c ≠ 0 ∧ c ≠ char ' ') (hterm : Terminated p) :
    Steps ⟨t ++ p, 1, script, links⟩ ⟨p, 1, script, links⟩ := by
  induction t with
  | nil => exact .refl
  | cons c t ih =>
      obtain ⟨hless, hgreater, hnul, hspace⟩ := ht c (List.mem_cons_self ..)
      have hend : Terminated (c :: (t ++ p)) := hterm.append (c :: t)
      have hskip : Goes ⟨c :: (t ++ p), 1, script, links⟩ ⟨t ++ p, 1, script, links⟩ :=
        .skip ⟨hless, hgreater, hnul⟩ fun attr hattr => hspace (eq_space_of_name hattr)
      exact .head (pass_of_goes hend hskip) (ih fun d hd => ht d (List.mem_cons_of_mem c hd))

/-! ## Around the `=` -/

/-- Behind the name of an attribute, in front of its `=`. -/
def BehindName (u : Bytes) : Prop := ∃ (attr : AttributeKind) (m : Nat), u = attr.name ++ spaces m

/-- Behind the `=`, in front of the value. -/
def BehindEquals (u : Bytes) : Prop := ∃ (attr : AttributeKind) (n m : Nat),
  u = attr.name ++ (spaces n ++ char '=' :: spaces m)

/-- The character is taken along with the name or the `=` in front of it. -/
def Takes (u : Bytes) (c : UInt8) : Prop :=
  c ≠ char ' ' ∧ (BehindName u ∧ c ≠ char '=' ∨ BehindEquals u ∧ ¬ IsQuote c)

theorem spaces_add (m n : Nat) : spaces (m + n) = spaces m ++ spaces n :=
  (List.replicate_append_replicate).symm

theorem skipWhitespace_append (n : Nat) (p : Bytes) :
    skipWhitespace (spaces n ++ p) = skipWhitespace p := by
  induction n with
  | zero => rfl
  | succ n ih =>
      have hcons : spaces (n + 1) ++ p = char ' ' :: (spaces n ++ p) := rfl
      rw [hcons, skipWhitespace, if_pos rfl, ih]

theorem value_congr {p p' : Bytes} {script : Bool} {links : List HtmlLink} (attr : AttributeKind)
    (h : skipWhitespace p = skipWhitespace p') :
    value ⟨p, 1, script, links⟩ attr = value ⟨p', 1, script, links⟩ attr := by
  rw [value, value]
  dsimp only
  rw [h]

theorem value_equals_congr {p p' : Bytes} {script : Bool} {links : List HtmlLink}
    (attr : AttributeKind) (n : Nat) (h : skipWhitespace p = skipWhitespace p') :
    value ⟨spaces n ++ char '=' :: p, 1, script, links⟩ attr =
      value ⟨spaces n ++ char '=' :: p', 1, script, links⟩ attr := by
  have hequals : char '=' ≠ char ' ' := by decide
  rw [value, value]
  dsimp only
  rw [skipWhitespace_spaces n hequals, skipWhitespace_spaces n hequals]
  simp only [Option.bind_eq_bind, Option.bind_some, List.head?_cons, List.tail_cons, h]
  rw [if_neg (not_not_intro rfl), if_neg (not_not_intro rfl)]

theorem pass_gap {u : Bytes} (hu : BehindName u ∨ BehindEquals u) (i j : Nat) (p : Bytes)
    {script : Bool} {links : List HtmlLink} :
    pass ⟨u ++ (spaces i ++ p), 1, script, links⟩ = pass ⟨u ++ (spaces j ++ p), 1, script, links⟩ := by
  rcases hu with ⟨attr, m, rfl⟩ | ⟨attr, k, m, rfl⟩
  · simp only [List.append_assoc]
    have hskip : skipWhitespace (spaces m ++ (spaces i ++ p)) =
        skipWhitespace (spaces m ++ (spaces j ++ p)) := by
      simp only [skipWhitespace_append]
    rw [pass_name, pass_name, value_congr attr hskip]
  · simp only [List.append_assoc, List.cons_append]
    have hskip : skipWhitespace (spaces m ++ (spaces i ++ p)) =
        skipWhitespace (spaces m ++ (spaces j ++ p)) := by
      simp only [skipWhitespace_append]
    rw [pass_name, pass_name, value_equals_congr attr k hskip]

theorem goes_takes {u : Bytes} {c : UInt8} (h : Takes u c) (j : Nat) (p : Bytes) {script : Bool}
    {links : List HtmlLink} :
    Goes ⟨u ++ (spaces j ++ c :: p), 1, script, links⟩ ⟨p, 1, script, links⟩ := by
  obtain ⟨hspace, ⟨⟨attr, m, rfl⟩, hc⟩ | ⟨⟨attr, k, m, rfl⟩, hc⟩⟩ := h
  · have htext : attr.name ++ spaces m ++ (spaces j ++ c :: p) =
        attr.name ++ (spaces (m + j) ++ c :: p) := by
      simp only [List.append_assoc, spaces_add]
    rw [htext]
    exact .valueless attr (m + j) hspace hc
  · have htext : attr.name ++ (spaces k ++ char '=' :: spaces m) ++ (spaces j ++ c :: p) =
        attr.name ++ (spaces k ++ char '=' :: (spaces (m + j) ++ c :: p)) := by
      simp only [List.append_assoc, List.cons_append, spaces_add]
    rw [htext]
    exact .unquoted attr k (m + j) hspace hc

end LinkScan

/-! ## Pages with the same links -/

theorem genericGetLinks_of_pass {page page' : Bytes} {s s' : LinkScan} (h : Visits page s)
    (h' : Visits page' s') (hpass : s.pass = s'.pass) :
    genericGetLinks page = genericGetLinks page' := by
  cases hs : s.pass with
  | inr r =>
      rw [LinkScan.genericGetLinks_of_steps h hs,
        LinkScan.genericGetLinks_of_steps h' (hpass.symm.trans hs)]
  | inl s₁ =>
      obtain ⟨s₂, r, hsteps, hexit⟩ := LinkScan.exists_exit s₁
      rw [LinkScan.genericGetLinks_of_steps (.trans h (.head hs hsteps)) hexit,
        LinkScan.genericGetLinks_of_steps (.trans h' (.head (hpass.symm.trans hs) hsteps)) hexit]

end ZimTools
