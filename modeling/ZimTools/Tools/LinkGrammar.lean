import ZimTools.Tools.LinkPasses

/-!
# The links of a well-formed page

A page is a sequence of texts, comments, script elements and other tags
(`Piece`), each of which carries what makes it well formed.  The scan takes
exactly the `href` and `src` attributes of its tags, in their order
(`genericGetLinks_pieces`).  A NUL in a comment or in the body of a script is
where the page ends for the code, and nothing behind it is seen.

Between two pieces the counts of `<` and `>` are equal and no script is open.
Each piece is taken from such a state to the next one, whatever is behind it.
-/

namespace ZimTools

open Bytes
open Relation (ReflTransGen)

/-! ## Pages -/

/-- No bracket and no NUL. -/
def Plain (t : Bytes) : Prop := ∀ c ∈ t, c ≠ char '<' ∧ c ≠ char '>' ∧ c ≠ 0

instance (t : Bytes) : Decidable (Plain t) :=
  List.decidableBAll (fun c => c ≠ char '<' ∧ c ≠ char '>' ∧ c ≠ 0) t

/-- No bracket, no NUL, and no name of a link attribute behind a space. -/
structure Harmless (t : Bytes) : Prop where
  plain : Plain t
  nameless : ∀ attr : AttributeKind, ¬ attr.name <:+: t

/-- An attribute with the spaces before it. -/
inductive TagAttribute where
  /-- `href` or `src`, with its spaces around the `=` and its quotes. -/
  | link (attr : AttributeKind) (before n m : Nat) (q : UInt8) (v : Bytes) (hq : IsQuote q)
      (hv : q ∉ v)
  /-- Another name, which may begin with `href` or `src`, and what is behind it
  up to the next attribute: nothing, or its `=` and its value. -/
  | other (before : Nat) (name value : Bytes) (hname : ∀ c ∈ name, c ≠ char ' ' ∧ c ≠ char '=')
      (hother : ∀ attr : AttributeKind, char ' ' :: name ≠ attr.name)
      (hvalue : ∀ c ∈ value.head?, c = char ' ' ∨ c = char '=') (harmless : Harmless (name ++ value))

namespace TagAttribute

def text : TagAttribute → Bytes
  | link attr before n m q v _ _ =>
      spaces before ++ (attr.name ++ (spaces n ++ char '=' :: (spaces m ++ q :: (v ++ [q]))))
  | other before name value _ _ _ _ => spaces before ++ char ' ' :: (name ++ value)

def links : TagAttribute → List HtmlLink
  | link attr _ _ _ _ v _ _ => [⟨attr, decodeHtmlEntities v⟩]
  | other .. => []

end TagAttribute

/-- What is between the name of a tag and its `>`. -/
structure TagRest where
  attributes : List TagAttribute
  after : Nat
  slash : Bool

namespace TagRest

def close (rest : TagRest) : Bytes := spaces rest.after ++ if rest.slash then str "/" else []

def text (rest : TagRest) : Bytes := rest.attributes.flatMap TagAttribute.text ++ rest.close

def links (rest : TagRest) : List HtmlLink := rest.attributes.flatMap TagAttribute.links

end TagRest

inductive Piece where
  | text (t : Bytes) (plain : Plain t)
  | comment (body : Bytes) (hstart : ¬ str ">" <+: body ∧ ¬ str "->" <+: body)
      (hbody : ¬ str "-->" <:+: body)
  | script (rest : TagRest) (hscript : IsScript (str "script" ++ rest.text ++ str ">"))
      (body : Bytes) (hbody : ¬ str "</script>" <:+: body)
  | tag (name : Bytes) (rest : TagRest) (harmless : Harmless name) (hcomment : ¬ str "!--" <+: name)
      (hscript : ¬ IsScript (name ++ rest.text ++ str ">"))

namespace Piece

def page : Piece → Bytes
  | text t _ => t
  | comment body _ _ => str "<!--" ++ body ++ str "-->"
  | script rest _ body _ => str "<script" ++ rest.text ++ str ">" ++ body ++ str "</script>"
  | tag name rest _ _ _ => str "<" ++ name ++ rest.text ++ str ">"

def links : Piece → List HtmlLink
  | text _ _ => []
  | comment _ _ _ => []
  | script rest _ _ _ => rest.links
  | tag _ rest _ _ _ => rest.links

/-- A NUL in a comment or in the body of a script. -/
def HasNul : Piece → Prop
  | comment body _ _ => 0 ∈ body
  | script _ _ body _ => 0 ∈ body
  | _ => False

instance : DecidablePred HasNul
  | comment body _ _ => inferInstanceAs (Decidable (0 ∈ body))
  | script _ _ body _ => inferInstanceAs (Decidable (0 ∈ body))
  | text _ _ => inferInstanceAs (Decidable False)
  | tag _ _ _ _ _ => inferInstanceAs (Decidable False)

/-- The pieces up to the first with such a NUL, and that one. -/
def upToNul : List Piece → List Piece
  | [] => []
  | piece :: pieces => piece :: if piece.HasNul then [] else upToNul pieces

end Piece

/-! ## Skips -/

/-- A string that ends in its only `z` and is not in `a` does not begin in `a`. -/
theorem not_prefix_of_absent {s a rest : Bytes} {z : UInt8} (hs : z ∉ s) (hne : a ≠ [])
    (h : ¬ s ++ [z] <:+: a) : ¬ s ++ [z] <+: a ++ (s ++ [z] ++ rest) := by
  intro hprefix
  rcases List.prefix_or_prefix_of_prefix hprefix (List.prefix_append a _) with hin | ⟨w, hw⟩
  · exact h hin.isInfix
  · rw [← hw, List.prefix_append_right_inj, hw, List.append_assoc] at hprefix
    rcases List.eq_nil_or_concat' w with rfl | ⟨w, d, rfl⟩
    · rw [List.append_nil] at hw
      exact h (hw ▸ List.infix_rfl)
    · have hlength := congrArg List.length hw
      have hpos := List.length_pos_iff.mpr hne
      simp only [List.length_append, List.length_singleton] at hlength
      have hws : w ++ [d] <+: s := by
        refine List.prefix_of_prefix_length_le hprefix (List.prefix_append s _) ?_
        simp only [List.length_append, List.length_singleton]
        omega
      rw [← List.append_assoc] at hw
      obtain ⟨-, hd⟩ := List.append_inj' hw rfl
      obtain rfl : d = z := List.singleton_inj.mp hd
      exact hs (hws.subset (List.mem_append_right w (List.mem_singleton_self d)))

theorem strSkip_ne {s p : Bytes} {c : UInt8} (hc : c ≠ 0) (hnul : 0 ∉ s)
    (hterm : Terminated (c :: p)) (h : ¬ s <+: c :: p) :
    strSkipTillRightAfter s (c :: p) = strSkipTillRightAfter s p := by
  rw [strSkipTillRightAfter, if_neg hc, strncmp_of_not_prefix hterm hnul h]
  rfl

/-- The string is found where it first occurs. -/
theorem strSkip_find {s a rest : Bytes} {z : UInt8} (hs : z ∉ s) (hnul : 0 ∉ s ++ [z])
    (ha : 0 ∉ a) (h : ¬ s ++ [z] <:+: a) (hterm : Terminated rest) :
    strSkipTillRightAfter (s ++ [z]) (a ++ (s ++ [z] ++ rest)) = some rest := by
  induction a with
  | nil =>
      obtain ⟨c, t, hct⟩ := List.exists_cons_of_ne_nil (List.concat_ne_nil z s)
      have hc : c ≠ 0 := fun hc => hnul (by rw [hct, hc]; exact List.mem_cons_self ..)
      have hcmp := strncmp_append (s ++ [z]) rest
      rw [List.nil_append, hct, List.cons_append] at *
      rw [strSkipTillRightAfter, if_neg hc, hcmp]
      simp
  | cons c a ih =>
      have hc : c ≠ 0 := fun hc => ha (hc ▸ List.mem_cons_self ..)
      have htail : ¬ s ++ [z] <:+: a := fun hin => h (List.infix_cons hin)
      rw [← ih (fun hmem => ha (List.mem_cons_of_mem c hmem)) htail, List.cons_append]
      refine strSkip_ne hc hnul ?_ (not_prefix_of_absent hs (List.cons_ne_nil c a) h)
      exact (hterm.append (s ++ [z])).append (c :: a)

/-- A NUL in front of it ends the search. -/
theorem strSkip_nul {s a rest : Bytes} (hnul : 0 ∉ s) (ha : 0 ∉ a) (h : ¬ s <:+: a)
    (hterm : Terminated (0 :: rest)) :
    strSkipTillRightAfter s (a ++ 0 :: rest) = some (0 :: rest) := by
  induction a with
  | nil => rw [List.nil_append, strSkipTillRightAfter, if_pos rfl]
  | cons c a ih =>
      have hc : c ≠ 0 := fun hc => ha (hc ▸ List.mem_cons_self ..)
      have htail : ¬ s <:+: a := fun hin => h (List.infix_cons hin)
      rw [← ih (fun hmem => ha (List.mem_cons_of_mem c hmem)) htail, List.cons_append]
      refine strSkip_ne hc hnul (hterm.append (c :: a)) fun hprefix => ?_
      rcases List.prefix_or_prefix_of_prefix hprefix (List.prefix_append (c :: a) (0 :: rest)) with
        hin | ⟨w, hw⟩
      · exact h hin.isInfix
      · rw [← hw, ← List.cons_append, List.prefix_append_right_inj] at hprefix
        cases w with
        | nil =>
            rw [List.append_nil] at hw
            exact h (hw ▸ List.infix_rfl)
        | cons d w =>
            obtain rfl := (List.cons_prefix_cons.mp hprefix).1
            exact hnul (hw ▸ List.mem_append_right _ (List.mem_cons_self ..))

/-! ## Inside a tag -/

/-- What the attributes of a tag may be followed by. -/
def SafeHead (p : Bytes) : Prop := ∃ c r, p = c :: r ∧ (c = char ' ' ∨ c = char '>' ∨ c = char '/')

theorem Harmless.of_append {a b : Bytes} (h : Harmless (a ++ b)) : Harmless b where
  plain := fun c hc => h.plain c (List.mem_append_right _ hc)
  nameless := fun attr hpart => h.nameless attr (hpart.trans (List.suffix_append a b).isInfix)

theorem harmless_of_spaces_slashes {t : Bytes} (h : ∀ c ∈ t, c = char ' ' ∨ c = char '/') :
    Harmless t where
  plain := by
    intro c hc
    rcases h c hc with rfl | rfl <;> decide
  nameless := by
    intro attr hpart
    have hall : ∀ c ∈ attr.name, c = char ' ' ∨ c = char '/' := fun c hc => h c (hpart.subset hc)
    cases attr <;> exact absurd hall (by decide)

theorem harmless_spaces (n : Nat) : Harmless (spaces n) :=
  harmless_of_spaces_slashes fun _ hc => Or.inl (List.mem_replicate.mp hc).2

theorem TagRest.harmless_close (rest : TagRest) : Harmless rest.close := by
  refine harmless_of_spaces_slashes fun c hc => ?_
  rcases List.mem_append.mp hc with hspace | hslash
  · exact Or.inl (List.mem_replicate.mp hspace).2
  · split at hslash
    · exact Or.inr (List.mem_singleton.mp hslash)
    · exact nomatch hslash

theorem TagRest.safeHead_close (rest : TagRest) (p : Bytes) :
    SafeHead (rest.close ++ char '>' :: p) := by
  obtain ⟨as, after, slash⟩ := rest
  cases after with
  | zero => cases slash <;> exact ⟨_, _, rfl, by decide⟩
  | succ after => exact ⟨_, _, rfl, Or.inl rfl⟩

/-- A string does not go over a character that it does not have. -/
theorem prefix_of_notMem {s t p : Bytes} {c : UInt8} (hc : c ∉ s) (h : s <+: t ++ c :: p) :
    s <+: t := by
  rcases List.prefix_or_prefix_of_prefix h (List.prefix_append t (c :: p)) with hin | ⟨w, rfl⟩
  · exact hin
  · rw [List.prefix_append_right_inj] at h
    cases w with
    | nil => simp
    | cons d w =>
        obtain rfl : d = c := (List.cons_prefix_cons.mp h).1
        exact absurd (List.mem_append_right t (List.mem_cons_self ..)) hc

/-- A name does not begin in a text without names and end behind it. -/
theorem not_prefix_of_nameless {c d : UInt8} {t p : Bytes} {attr : AttributeKind}
    (h : ¬ attr.name <:+: d :: t) (hc : c ∉ attr.name.tail) :
    ¬ attr.name <+: d :: t ++ c :: p := by
  intro hname
  rw [attr.name_cons, List.cons_append, List.cons_prefix_cons] at hname
  refine h (List.IsPrefix.isInfix ?_)
  rw [attr.name_cons, List.cons_prefix_cons]
  exact ⟨hname.1, prefix_of_notMem hc hname.2⟩

namespace LinkScan

/-- Inside a tag the scan goes over a text without names up to a character that no
name has behind its space. -/
theorem steps_nameless {t p : Bytes} {c : UInt8} {script : Bool} {links : List HtmlLink}
    (ht : Harmless t) (hc : ∀ attr : AttributeKind, c ∉ attr.name.tail)
    (hterm : Terminated (t ++ c :: p)) :
    Steps ⟨t ++ c :: p, 1, script, links⟩ ⟨c :: p, 1, script, links⟩ := by
  induction t with
  | nil => exact .refl
  | cons d t ih =>
      have hd := ht.plain d (List.mem_cons_self ..)
      have htail : Harmless t := Harmless.of_append (a := [d]) ht
      exact .head (pass_skip hterm hd fun attr => not_prefix_of_nameless (ht.nameless attr) (hc attr))
        (ih htail (hterm.of_cons hd.2.2))

theorem steps_harmless {t p : Bytes} {script : Bool} {links : List HtmlLink} (ht : Harmless t)
    (hp : SafeHead p) (hterm : Terminated (t ++ p)) :
    Steps ⟨t ++ p, 1, script, links⟩ ⟨p, 1, script, links⟩ := by
  obtain ⟨c, r, rfl, hc⟩ := hp
  refine steps_nameless ht (fun attr => ?_) hterm
  rcases hc with rfl | rfl | rfl <;> cases attr <;> decide

/-- A link attribute whose name is read at another attribute only begins the name
of that one, since no letter of a name opens a value or what follows a tag's
attributes. -/
theorem name_of_prefix {attr : AttributeKind} {name value p : Bytes}
    (hother : char ' ' :: name ≠ attr.name)
    (hvalue : ∀ c ∈ value.head?, c = char ' ' ∨ c = char '=') (hp : SafeHead p)
    (hattr : attr.name <+: char ' ' :: (name ++ value ++ p)) :
    ∃ c w, char ' ' :: name = attr.name ++ c :: w := by
  have hin : attr.name <+: (char ' ' :: name) ++ (value ++ p) := by
    rwa [List.append_assoc] at hattr
  rcases List.prefix_or_prefix_of_prefix hin (List.prefix_append _ (value ++ p)) with
    ⟨w, hw⟩ | ⟨w, hw⟩
  · cases w with
    | nil =>
        rw [List.append_nil] at hw
        exact absurd hw.symm hother
    | cons c w => exact ⟨c, w, hw.symm⟩
  · cases w with
    | nil =>
        rw [List.append_nil] at hw
        exact absurd hw hother
    | cons d w =>
        have hmem : d ∈ attr.name.tail := by
          rw [← hw]
          exact List.mem_append_right name (List.mem_cons_self ..)
        have hbehind : d = char ' ' ∨ d = char '=' ∨ d = char '>' ∨ d = char '/' := by
          rw [← hw, List.prefix_append_right_inj] at hin
          cases value with
          | nil =>
              obtain ⟨c, r, rfl, hc⟩ := hp
              obtain rfl : d = c := (List.cons_prefix_cons.mp hin).1
              exact hc.imp_right Or.inr
          | cons c value =>
              obtain rfl : d = c := (List.cons_prefix_cons.mp hin).1
              exact (hvalue d rfl).imp_right Or.inl
        rcases hbehind with rfl | rfl | rfl | rfl <;> cases attr <;> exact absurd hmem (by decide)

/-- A name that only begins like that of a link attribute is skipped, together
with the character behind that beginning. -/
theorem steps_other {name value p : Bytes} {script : Bool} {links : List HtmlLink}
    (hname : ∀ c ∈ name, c ≠ char ' ' ∧ c ≠ char '=')
    (hother : ∀ attr : AttributeKind, char ' ' :: name ≠ attr.name)
    (hvalue : ∀ c ∈ value.head?, c = char ' ' ∨ c = char '=') (harmless : Harmless (name ++ value))
    (hp : SafeHead p) (hterm : Terminated p) :
    Steps ⟨char ' ' :: (name ++ value ++ p), 1, script, links⟩ ⟨p, 1, script, links⟩ := by
  by_cases hstart : ∃ attr : AttributeKind, attr.name <+: char ' ' :: (name ++ value ++ p)
  · obtain ⟨attr, hattr⟩ := hstart
    obtain ⟨c, w, hw⟩ := name_of_prefix (hother attr) hvalue hp hattr
    obtain rfl : name = attr.name.tail ++ c :: w := by
      rw [attr.name_cons] at hw
      exact (List.cons_eq_cons.mp hw).2
    have hc := hname c (List.mem_append_right _ (List.mem_cons_self ..))
    have hstep : LinkScan.value ⟨c :: (w ++ value ++ p), 1, script, links⟩ attr =
        some ⟨w ++ value ++ p, 1, script, links⟩ :=
      value_of_ne_equals attr 0 rfl hc.1 hc.2
    have hrest : Harmless (w ++ value) := by
      refine Harmless.of_append (a := attr.name.tail ++ [c]) ?_
      simpa using harmless
    have htext : char ' ' :: (attr.name.tail ++ c :: w ++ value ++ p) =
        attr.name ++ c :: (w ++ value ++ p) := by
      conv_rhs => rw [attr.name_cons]
      simp
    rw [htext]
    exact .head (pass_attribute hstep) (steps_harmless hrest hp (hterm.append _))
  · have hnone : ∀ attr : AttributeKind, ¬ attr.name <+: char ' ' :: (name ++ value ++ p) :=
      fun attr h => hstart ⟨attr, h⟩
    exact .head (pass_skip (hterm.append (char ' ' :: (name ++ value))) (by decide) hnone)
      (steps_harmless harmless hp (hterm.append _))

theorem steps_tagAttribute (a : TagAttribute) {p : Bytes} {script : Bool}
    {links : List HtmlLink} (hp : SafeHead p) (hterm : Terminated p) :
    Steps ⟨a.text ++ p, 1, script, links⟩ ⟨p, 1, script, links ++ a.links⟩ := by
  cases a with
  | link attr before n m q v hq hv =>
      rw [TagAttribute.text, List.append_assoc]
      have hhead : SafeHead (attr.name ++ (spaces n ++ char '=' :: (spaces m ++ q :: (v ++ [q]))) ++
          p) := by
        cases attr <;> exact ⟨char ' ', _, rfl, Or.inl rfl⟩
      refine (steps_harmless (harmless_spaces before) hhead ?_).trans ?_
      · rw [← List.append_assoc]
        exact hterm.append _
      · rw [List.append_assoc]
        refine .single (pass_attribute (value_of_quoted attr n m ?_ hq hv))
        simp
  | other before name value hname hother hvalue harmless =>
      rw [TagAttribute.text, List.append_assoc, List.cons_append, TagAttribute.links,
        List.append_nil]
      refine (steps_harmless (harmless_spaces before) ⟨char ' ', _, rfl, Or.inl rfl⟩ ?_).trans ?_
      · exact (hterm.append (char ' ' :: (name ++ value))).append _
      · exact steps_other hname hother hvalue harmless hp hterm

theorem safeHead_text (a : TagAttribute) (p : Bytes) : SafeHead (a.text ++ p) := by
  cases a with
  | link attr before n m q v hq hv =>
      cases before with
      | zero => cases attr <;> exact ⟨char ' ', _, rfl, Or.inl rfl⟩
      | succ before => exact ⟨char ' ', _, rfl, Or.inl rfl⟩
  | other before name value hname hother hvalue harmless =>
      cases before <;> exact ⟨char ' ', _, rfl, Or.inl rfl⟩

theorem safeHead_texts (as : List TagAttribute) {p : Bytes} (hp : SafeHead p) :
    SafeHead (as.flatMap TagAttribute.text ++ p) := by
  cases as with
  | nil => exact hp
  | cons a as =>
      rw [List.flatMap_cons, List.append_assoc]
      exact safeHead_text a _

theorem steps_attributes (as : List TagAttribute) {p : Bytes} {script : Bool}
    {links : List HtmlLink} (hp : SafeHead p) (hterm : Terminated p) :
    Steps ⟨as.flatMap TagAttribute.text ++ p, 1, script, links⟩
      ⟨p, 1, script, links ++ as.flatMap TagAttribute.links⟩ := by
  induction as generalizing links with
  | nil =>
      rw [List.flatMap_nil, List.flatMap_nil, List.append_nil]
      exact .refl
  | cons a as ih =>
      rw [List.flatMap_cons, List.append_assoc, List.flatMap_cons, ← List.append_assoc links]
      exact (steps_tagAttribute a (safeHead_texts as hp) (hterm.append _)).trans ih

/-- Behind the name of a tag the scan comes to its `>` with its links. -/
theorem steps_rest (rest : TagRest) {p : Bytes} (script : Bool) (links : List HtmlLink)
    (hterm : Terminated p) :
    Steps ⟨rest.text ++ char '>' :: p, 1, script, links⟩
      ⟨char '>' :: p, 1, script, links ++ rest.links⟩ := by
  rw [TagRest.text, List.append_assoc]
  have hend : Terminated (char '>' :: p) := hterm.append [char '>']
  exact (steps_attributes rest.attributes (rest.safeHead_close p) (hend.append _)).trans
    (steps_harmless rest.harmless_close ⟨_, _, rfl, Or.inr (Or.inl rfl)⟩ (hend.append _))

/-! ## Between the tags -/

/-- Outside a tag a text is gone over. -/
theorem steps_plain {t p : Bytes} {balance : Int32} {script : Bool} {links : List HtmlLink}
    (ht : Plain t) (hbalance : balance ≠ 1) :
    Steps ⟨t ++ p, balance, script, links⟩ ⟨p, balance, script, links⟩ := by
  induction t with
  | nil => exact .refl
  | cons c t ih =>
      obtain ⟨hless, hgreater, hnul⟩ := ht c (List.mem_cons_self ..)
      have hnext : next ⟨c :: (t ++ p), balance, script, links⟩ c =
          some ⟨t ++ p, balance, script, links⟩ := by
        rw [next, if_neg hless, if_neg hgreater, if_pos hbalance]
        rfl
      exact .head (pass_cons.mpr ⟨hnul, hnext⟩) (ih fun d hd => ht d (List.mem_cons_of_mem c hd))

end LinkScan

/-! ## A piece -/

/-- What does not occur in an unfinished tag begins before its end. -/
theorem prefix_of_safeHead {s t p : Bytes} (hp : SafeHead p) (h : s <+: t ++ p)
    (hs : char ' ' ∉ s ∧ char '>' ∉ s ∧ char '/' ∉ s) : s <+: t := by
  obtain ⟨c, r, rfl, hc⟩ := hp
  refine prefix_of_notMem ?_ h
  rcases hc with rfl | rfl | rfl
  · exact hs.1
  · exact hs.2.1
  · exact hs.2.2

theorem prefix_of_mem {s t p : Bytes} {c z : UInt8} (hs : z ∉ s)
    (h : s ++ [c] <+: t ++ [z] ++ p) : s ++ [c] <+: t ++ [z] := by
  rcases List.prefix_or_prefix_of_prefix h (List.prefix_append (t ++ [z]) p) with hin | ⟨w, hw⟩
  · exact hin
  · rcases List.eq_nil_or_concat' w with rfl | ⟨w, d, rfl⟩
    · rw [List.append_nil] at hw
      exact hw ▸ List.prefix_rfl
    · rw [← List.append_assoc] at hw
      obtain ⟨rfl, -⟩ := List.append_inj' hw rfl
      exact absurd (List.mem_append_left w (List.mem_append_right t (List.mem_singleton_self z))) hs

/-- Whether a tag is a script is decided up to its `>`. -/
theorem IsScript.of_append {t p : Bytes} (h : IsScript (t ++ str ">" ++ p)) :
    IsScript (t ++ str ">") := by
  have hname : char '>' ∉ str "script" := by decide
  rcases h with h | h
  · exact Or.inl (prefix_of_mem (c := char '>') hname h)
  · exact Or.inr (prefix_of_mem (c := char ' ') hname h)

theorem not_infix_comment {body : Bytes} (hstart : ¬ str ">" <+: body ∧ ¬ str "->" <+: body)
    (hbody : ¬ str "-->" <:+: body) : ¬ str "-->" <:+: str "<!--" ++ body := by
  change ¬ str "-->" <:+: char '<' :: char '!' :: char '-' :: char '-' :: body
  intro h
  rcases List.infix_cons_iff.mp h with hpre | h
  · exact absurd (List.cons_prefix_cons.mp hpre).1 (by decide)
  · rcases List.infix_cons_iff.mp h with hpre | h
    · exact absurd (List.cons_prefix_cons.mp hpre).1 (by decide)
    · rcases List.infix_cons_iff.mp h with hpre | h
      · exact hstart.1 (List.cons_prefix_cons.mp (List.cons_prefix_cons.mp hpre).2).2
      · rcases List.infix_cons_iff.mp h with hpre | h
        · exact hstart.2 (List.cons_prefix_cons.mp hpre).2
        · exact hbody h

/-- The end of a script does not begin at the `>` of its tag. -/
theorem not_infix_script {body : Bytes} (hbody : ¬ str "</script>" <:+: body) :
    ¬ str "</script>" <:+: char '>' :: body := by
  intro h
  rcases List.infix_cons_iff.mp h with hpre | h
  · exact absurd (List.cons_prefix_cons.mp hpre).1 (by decide)
  · exact hbody h

namespace LinkScan

/-- A script up to the `>` of its tag. -/
theorem steps_script {rest : TagRest} {p : Bytes} (links : List HtmlLink) (hterm : Terminated p)
    (hscript : IsScript (str "script" ++ (rest.text ++ str ">"))) :
    Steps ⟨str "<script" ++ (rest.text ++ str ">" ++ p), 0, false, links⟩
      ⟨char '>' :: p, 1, true, links ++ rest.links⟩ := by
  obtain ⟨c, r, hname, hc⟩ := isScript_iff.mp hscript
  have hr := List.append_cancel_left hname
  have hstep : pass ⟨str "<script" ++ c :: (r ++ p), 0, false, links⟩ =
      .inl ⟨c :: (r ++ p), 1, true, links⟩ := pass_script hc
  rw [← List.cons_append, ← hr] at hstep
  have hrest := steps_rest rest true links hterm
  rw [List.append_assoc] at hstep ⊢
  exact .head hstep hrest

/-- A tag that is not a script is taken with its links. -/
theorem steps_tag {name : Bytes} {rest : TagRest} {p : Bytes} {links : List HtmlLink}
    (harmless : Harmless name) (hcomment : ¬ str "!--" <+: name)
    (hscript : ¬ IsScript (name ++ rest.text ++ str ">")) (hterm : Terminated p) :
    Steps ⟨str "<" ++ name ++ rest.text ++ str ">" ++ p, 0, false, links⟩
      ⟨p, 0, false, links ++ rest.links⟩ := by
  have hhead : SafeHead (rest.text ++ char '>' :: p) := by
    rw [TagRest.text, List.append_assoc]
    exact safeHead_texts rest.attributes (rest.safeHead_close p)
  have hend : Terminated (rest.text ++ char '>' :: p) :=
    Terminated.append (Terminated.append hterm [char '>']) rest.text
  have hname : Terminated (name ++ (rest.text ++ char '>' :: p)) := hend.append name
  have hcomment' : ¬ str "!--" <+: name ++ (rest.text ++ char '>' :: p) := fun h =>
    hcomment (prefix_of_safeHead hhead h (by decide))
  have hscript' : ¬ IsScript (name ++ (rest.text ++ char '>' :: p)) := by
    intro h
    refine hscript (IsScript.of_append (p := p) ?_)
    simpa [str, char] using h
  have heq : str "<" ++ name ++ rest.text ++ str ">" ++ p =
      char '<' :: (name ++ (rest.text ++ char '>' :: p)) := by
    simp [str, char]
  rw [heq]
  have hless : pass ⟨char '<' :: (name ++ (rest.text ++ char '>' :: p)), 0, false, links⟩ =
      .inl ⟨name ++ (rest.text ++ char '>' :: p), 1, false, links⟩ :=
    pass_less (hname.append [char '<']) hcomment' hscript'
  have hgreater : pass ⟨char '>' :: p, 1, false, links ++ rest.links⟩ =
      .inl ⟨p, 0, false, links ++ rest.links⟩ :=
    pass_of_goes (Terminated.append hterm [char '>'])
      (.greater : Goes ⟨char '>' :: p, 1, false, _⟩ ⟨p, 1 - 1, false, _⟩)
  exact .head hless ((steps_harmless harmless hhead hname).trans
    ((steps_rest rest false links hterm).tail hgreater))

/-- A piece is taken with its links. -/
theorem steps_piece (piece : Piece) {p : Bytes} {links : List HtmlLink} (hterm : Terminated p)
    (hnul : ¬ piece.HasNul) :
    Steps ⟨piece.page ++ p, 0, false, links⟩ ⟨p, 0, false, links ++ piece.links⟩ := by
  cases piece with
  | text t plain =>
      rw [Piece.links, List.append_nil]
      exact steps_plain plain (by decide)
  | comment body hstart hbody =>
      rw [Piece.links, List.append_nil, Piece.page, List.append_assoc, List.append_assoc]
      have hbefore : (0 : UInt8) ∉ str "<!--" ++ body := fun hmem =>
        (List.mem_append.mp hmem).elim (by decide) hnul
      refine .single (pass_comment ?_)
      rw [← List.append_assoc]
      exact strSkip_find (s := str "--") (z := char '>') (by decide) (by decide) hbefore
        (not_infix_comment hstart hbody) hterm
  | script rest hscript body hbody =>
      have hbefore : (0 : UInt8) ∉ char '>' :: body := fun hmem =>
        (List.mem_cons.mp hmem).elim (by decide) hnul
      have hskip := strSkip_find (s := str "</script") (z := char '>') (by decide) (by decide)
        hbefore (not_infix_script hbody) hterm
      rw [List.append_assoc] at hscript
      have hstart := steps_script links (hterm.append (body ++ str "</script>")) hscript
      rw [Piece.page]
      simp only [List.append_assoc] at hstart ⊢
      exact hstart.tail (pass_endScript hskip)
  | tag name rest harmless hcomment hscript =>
      exact steps_tag harmless hcomment hscript hterm

/-- A piece that the scan takes for the end of the page. -/
theorem steps_piece_nul (piece : Piece) {p : Bytes} {links : List HtmlLink}
    (hterm : Terminated p) (hnul : piece.HasNul) :
    ∃ r, Steps ⟨piece.page ++ p, 0, false, links⟩ ⟨0 :: r, 0, false, links ++ piece.links⟩ := by
  cases piece with
  | text t plain => exact hnul.elim
  | comment body hstart hbody =>
      obtain ⟨v, r, rfl, hv⟩ := (mem_split 0 body).resolve_left (not_not.mpr hnul)
      rw [Piece.links, List.append_nil, Piece.page, List.append_assoc, List.append_assoc]
      have hbefore : (0 : UInt8) ∉ str "<!--" ++ v := fun hmem =>
        (List.mem_append.mp hmem).elim (by decide) hv
      have hin : ¬ str "-->" <:+: str "<!--" ++ v := fun hin =>
        not_infix_comment hstart hbody (hin.trans ⟨[], 0 :: r, List.append_assoc ..⟩)
      refine ⟨r ++ (str "-->" ++ p), .single (pass_comment ?_)⟩
      have hend : Terminated (0 :: (r ++ (str "-->" ++ p))) :=
        (hterm.append (str "-->")).append (0 :: r)
      have hskip := strSkip_nul (by decide) hbefore hin hend
      simpa using hskip
  | script rest hscript body hbody =>
      obtain ⟨v, r, rfl, hv⟩ := (mem_split 0 body).resolve_left (not_not.mpr hnul)
      have hbefore : (0 : UInt8) ∉ char '>' :: v := fun hmem =>
        (List.mem_cons.mp hmem).elim (by decide) hv
      have hin : ¬ str "</script>" <:+: char '>' :: v := fun hin =>
        not_infix_script hbody (hin.trans ⟨[], 0 :: r, rfl⟩)
      have hend : Terminated (0 :: (r ++ (str "</script>" ++ p))) :=
        (hterm.append (str "</script>")).append (0 :: r)
      have hskip := strSkip_nul (by decide) hbefore hin hend
      rw [List.append_assoc] at hscript
      have hstart := steps_script links (hend.append v) hscript
      refine ⟨r ++ (str "</script>" ++ p), ?_⟩
      rw [Piece.page]
      simp only [List.append_assoc, List.cons_append] at hstart hskip ⊢
      exact hstart.tail (pass_endScript hskip)
  | tag name rest harmless hcomment hscript => exact hnul.elim

/-- The scan goes over the pieces to a NUL. -/
theorem steps_pieces (pieces : List Piece) (links : List HtmlLink) :
    ∃ r, Steps ⟨pieces.flatMap Piece.page ++ [0], 0, false, links⟩
      ⟨0 :: r, 0, false, links ++ (Piece.upToNul pieces).flatMap Piece.links⟩ := by
  induction pieces generalizing links with
  | nil => exact ⟨[], by simpa [Piece.upToNul] using .refl⟩
  | cons piece pieces ih =>
      have hterm : Terminated (pieces.flatMap Piece.page ++ [0]) := ⟨_, rfl⟩
      rw [List.flatMap_cons, List.append_assoc, Piece.upToNul, List.flatMap_cons]
      by_cases hnul : piece.HasNul
      · rw [if_pos hnul, List.flatMap_nil, List.append_nil]
        exact steps_piece_nul piece hterm hnul
      · rw [if_neg hnul, ← List.append_assoc links]
        obtain ⟨r, hr⟩ := ih (links ++ piece.links)
        exact ⟨r, (steps_piece piece hterm hnul).trans hr⟩

end LinkScan

/-! ## The page -/

/-- On every page made of pieces, the links are those of the tags and scripts up
to the first comment or script body with a NUL, in their order. -/
theorem genericGetLinks_pieces (pieces : List Piece) :
    genericGetLinks (pieces.flatMap Piece.page) =
      some ((Piece.upToNul pieces).flatMap Piece.links) := by
  obtain ⟨r, hr⟩ := LinkScan.steps_pieces pieces []
  rw [List.nil_append] at hr
  exact LinkScan.genericGetLinks_of_steps hr rfl

/-- The comment of a single NUL. -/
def nulComment : Piece := .comment [0] (by decide) (by decide)

/-- `<a href='x'>`. -/
def anchorTag : Piece :=
  .tag (str "a") ⟨[.link .href 0 0 0 (char '\'') (str "x") (Or.inl rfl) (by decide)], 0, false⟩
    ⟨by decide, fun attr => by cases attr <;> decide⟩ (by decide)
    (by unfold IsScript; decide)

/-- The link of a tag behind a NUL is missed. -/
theorem links_missed : ¬ ∀ pieces : List Piece,
    genericGetLinks (pieces.flatMap Piece.page) = some (pieces.flatMap Piece.links) := by
  intro h
  exact absurd (h [nulComment, anchorTag]) (by decide)

end ZimTools
