import Mathlib.Logic.Basic
import ZimTools.Tools.LinkPasses

/-!
# The counter of brackets

The comment in `generic_getLinks` calls `ltgtBalance` the difference of the
counts of `<` and `>` in front of the pointer.  `Reads` runs the scan along with
the text that it has gone over, without comments, the bodies of scripts and the
quoted values of links, and `bracketBalance` is that difference.

A `href` or `src` without a value takes the character behind it along, and so
does a value without quotes with its first one.  A bracket that is taken along
is not counted (`Swallows`).  That is the only way to lose one, unless there are
more brackets than an `int` can count (`Overflows`, `ltgtBalance_eq_iff`).
-/

namespace ZimTools

open Bytes
open Relation (ReflTransGen)

/-! ## Counting -/

/-- How many `<` a text has more than `>`. -/
def bracketBalance (t : Bytes) : Int := t.count (char '<') - t.count (char '>')

@[simp] theorem bracketBalance_append (a b : Bytes) :
    bracketBalance (a ++ b) = bracketBalance a + bracketBalance b := by
  simp only [bracketBalance, List.count_append]
  omega

def IsBracket (c : UInt8) : Prop := c = char '<' ∨ c = char '>'

theorem bracketBalance_single_ne {c : UInt8} (h : IsBracket c) : bracketBalance [c] ≠ 0 := by
  rcases h with rfl | rfl <;> decide

theorem bracketBalance_of_not {t : Bytes} (h : ∀ c ∈ t, ¬ IsBracket c) : bracketBalance t = 0 := by
  have hless : t.count (char '<') = 0 := List.count_eq_zero.mpr fun hmem => h _ hmem (Or.inl rfl)
  have hgreater : t.count (char '>') = 0 := List.count_eq_zero.mpr fun hmem => h _ hmem (Or.inr rfl)
  rw [bracketBalance, hless, hgreater]
  rfl

theorem bracketBalance_single_of_not {c : UInt8} (h : ¬ IsBracket c) : bracketBalance [c] = 0 :=
  bracketBalance_of_not fun _ hd => (List.mem_singleton.mp hd) ▸ h

theorem toInt_add_one_iff {x : Int32} : (x + 1).toInt = x.toInt + 1 ↔ x ≠ Int32.maxValue := by
  have hlow := x.le_toInt
  have hhigh := x.toInt_lt
  rw [Int32.toInt_add, Int32.toInt_one, ne_eq, ← Int32.toInt_inj, Int32.toInt_maxValue,
    Int.bmod_def]
  omega

theorem toInt_sub_one_iff {x : Int32} : (x - 1).toInt = x.toInt - 1 ↔ x ≠ Int32.minValue := by
  have hlow := x.le_toInt
  have hhigh := x.toInt_lt
  rw [Int32.toInt_sub, Int32.toInt_one, ne_eq, ← Int32.toInt_inj, Int32.toInt_minValue,
    Int.bmod_def]
  omega

namespace LinkScan

/-! ## The text that is gone over -/

/-- The characters that a pass goes over. -/
def passed (s s' : LinkScan) : Bytes := s.p.take (s.p.length - s'.p.length)

/-- Those of them that count: none of a comment, only the `>` of a script, and
of a link what is in front of its quotes. -/
def counted (s s' : LinkScan) : Bytes :=
  if str "<!--" <+: s.p then []
  else if s.processingAScriptTag ∧ s.p.head? = some (char '>') then str ">"
  else if s'.links ≠ s.links then
    (s.passed s').takeWhile fun c => c ≠ char '\'' ∧ c ≠ char '"'
  else s.passed s'

/-- The scan of a page comes to a state, and this text is counted on the way. -/
inductive Reads (page : Bytes) : LinkScan → Bytes → Prop where
  | start : Reads page (.start page) []
  | pass {s s' : LinkScan} {t : Bytes} (h : Reads page s t) (hpass : s.pass = .inl s') :
      Reads page s' (t ++ s.counted s')

/-- A bracket is taken for the character behind a name or for the first one of a
value without quotes. -/
inductive Swallows : LinkScan → Prop where
  | valueless (attr : AttributeKind) (n : Nat) {c : UInt8} {p : Bytes} {script : Bool}
      {links : List HtmlLink} (hc : IsBracket c) :
      Swallows ⟨attr.name ++ (spaces n ++ c :: p), 1, script, links⟩
  | unquoted (attr : AttributeKind) (n m : Nat) {c : UInt8} {p : Bytes} {script : Bool}
      {links : List HtmlLink} (hc : IsBracket c) :
      Swallows ⟨attr.name ++ (spaces n ++ char '=' :: (spaces m ++ c :: p)), 1, script, links⟩

/-- A bracket is counted at a bound of the counter. -/
inductive Overflows : LinkScan → Prop where
  | less {p : Bytes} {script : Bool} {links : List HtmlLink} (hcomment : ¬ str "!--" <+: p) :
      Overflows ⟨char '<' :: p, Int32.maxValue, script, links⟩
  | greater {p : Bytes} {script : Bool} {links : List HtmlLink} :
      Overflows ⟨char '>' :: p, Int32.minValue, script, links⟩

/-! ## A pass -/

theorem passed_eq {s s' : LinkScan} {u : Bytes} (h : s.p = u ++ s'.p) : s.passed s' = u := by
  rw [passed, h, List.length_append, Nat.add_sub_cancel, List.take_left]

/-- In front of anything but a comment, the end of a script or a link, all that
is gone over counts. -/
theorem counted_eq {s s' : LinkScan} {u : Bytes} (h : s.p = u ++ s'.p)
    (hcomment : ¬ str "<!--" <+: s.p)
    (hscript : ¬ (s.processingAScriptTag ∧ s.p.head? = some (char '>')))
    (hlinks : s'.links = s.links) : s.counted s' = u := by
  rw [counted, if_neg hcomment, if_neg hscript, if_neg (not_not_intro hlinks), passed_eq h]

theorem not_comment {c : UInt8} {p : Bytes} (hc : c ≠ char '<') : ¬ str "<!--" <+: c :: p := by
  intro h
  exact hc (List.cons_prefix_cons.mp h).1.symm

theorem not_greater {c : UInt8} {p : Bytes} {script : Bool} (hc : c ≠ char '>') :
    ¬ (script = true ∧ (c :: p).head? = some (char '>')) := by
  rintro ⟨-, h⟩
  exact hc (Option.some.inj h)

theorem attribute_clean (attr : AttributeKind) :
    ∀ c ∈ attr.name, ¬ IsBracket c ∧ ¬ IsQuote c := by
  unfold IsBracket IsQuote
  cases attr <;> exact forall_mem_of_all (by decide)

/-- Behind a name without a value all that is gone over counts. -/
theorem counted_valueless (attr : AttributeKind) (n : Nat) {c : UInt8} {p : Bytes} {script : Bool}
    {links : List HtmlLink} :
    counted ⟨attr.name ++ (spaces n ++ c :: p), 1, script, links⟩ ⟨p, 1, script, links⟩ =
      attr.name ++ spaces n ++ [c] := by
  rw [attr.name_cons]
  exact counted_eq (by simp) (not_comment (by decide)) (not_greater (by decide)) rfl

theorem counted_unquoted (attr : AttributeKind) (n m : Nat) {c : UInt8} {p : Bytes} {script : Bool}
    {links : List HtmlLink} :
    counted ⟨attr.name ++ (spaces n ++ char '=' :: (spaces m ++ c :: p)), 1, script, links⟩
        ⟨p, 1, script, links⟩ =
      attr.name ++ spaces n ++ (char '=' :: spaces m) ++ [c] := by
  rw [attr.name_cons]
  exact counted_eq (by simp) (not_comment (by decide)) (not_greater (by decide)) rfl

/-- In front of a value there is neither a bracket nor a quote. -/
theorem name_clean (attr : AttributeKind) (n : Nat) :
    ∀ c ∈ attr.name ++ spaces n, ¬ IsBracket c ∧ ¬ IsQuote c := by
  have hspace : ¬ IsBracket (char ' ') ∧ ¬ IsQuote (char ' ') := by
    unfold IsBracket IsQuote
    decide
  intro c hc
  rcases List.mem_append.mp hc with hname | hspaces
  · exact attribute_clean attr c hname
  · rw [(List.mem_replicate.mp hspaces).2]
    exact hspace

theorem equals_clean (attr : AttributeKind) (n m : Nat) :
    ∀ c ∈ attr.name ++ spaces n ++ (char '=' :: spaces m), ¬ IsBracket c ∧ ¬ IsQuote c := by
  have hequals : ¬ IsBracket (char '=') ∧ ¬ IsQuote (char '=') := by
    unfold IsBracket IsQuote
    decide
  intro c hc
  rcases List.mem_append.mp hc with hname | hvalue
  · exact name_clean attr n c hname
  · rcases List.mem_cons.mp hvalue with rfl | hspaces
    · exact hequals
    · exact name_clean attr m c (List.mem_append_right _ hspaces)

theorem bracketBalance_counted_plain {c : UInt8} {p : Bytes} {balance balance' : Int32}
    {script script' : Bool} {links : List HtmlLink} (hless : c ≠ char '<') (hgreater : c ≠ char '>') :
    bracketBalance (counted ⟨c :: p, balance, script, links⟩ ⟨p, balance', script', links⟩) = 0 := by
  have hcounted : counted ⟨c :: p, balance, script, links⟩ ⟨p, balance', script', links⟩ = [c] :=
    counted_eq rfl (not_comment hless) (not_greater hgreater) rfl
  rw [hcounted]
  exact bracketBalance_single_of_not fun hbracket => hbracket.elim hless hgreater

/-- Of a name without a value only the byte behind it counts. -/
theorem bracketBalance_valueless (attr : AttributeKind) (n : Nat) {c : UInt8} {p : Bytes}
    {script : Bool} {links : List HtmlLink} :
    bracketBalance (counted ⟨attr.name ++ (spaces n ++ c :: p), 1, script, links⟩
      ⟨p, 1, script, links⟩) = bracketBalance [c] := by
  rw [counted_valueless, bracketBalance_append,
    bracketBalance_of_not fun d hd => (name_clean attr n d hd).1, Int.zero_add]

/-- And so it is with a value without quotes. -/
theorem bracketBalance_unquoted (attr : AttributeKind) (n m : Nat) {c : UInt8} {p : Bytes}
    {script : Bool} {links : List HtmlLink} :
    bracketBalance (counted ⟨attr.name ++ (spaces n ++ char '=' :: (spaces m ++ c :: p)), 1, script, links⟩
      ⟨p, 1, script, links⟩) = bracketBalance [c] := by
  rw [counted_unquoted, bracketBalance_append,
    bracketBalance_of_not fun d hd => (equals_clean attr n m d hd).1, Int.zero_add]

/-- Of a link nothing counts but the text in front of its quotes. -/
theorem counted_link (attr : AttributeKind) (n m : Nat) {q : UInt8} {v p : Bytes} {script : Bool}
    {links : List HtmlLink} (l : HtmlLink) (hq : IsQuote q) :
    counted ⟨attr.name ++ (spaces n ++ char '=' :: (spaces m ++ q :: (v ++ q :: p))), 1, script, links⟩
        ⟨p, 1, script, links ++ [l]⟩ =
      attr.name ++ spaces n ++ (char '=' :: spaces m) := by
  have hcomment : ¬ str "<!--" <+:
      attr.name ++ (spaces n ++ char '=' :: (spaces m ++ q :: (v ++ q :: p))) := by
    rw [attr.name_cons]
    exact not_comment (by decide)
  have hscript : ¬ (script = true ∧
      (attr.name ++ (spaces n ++ char '=' :: (spaces m ++ q :: (v ++ q :: p)))).head? =
        some (char '>')) := by
    rw [attr.name_cons]
    exact not_greater (by decide)
  have hlinks : links ++ [l] ≠ links := by
    intro h
    have hlength := congrArg List.length h
    rw [List.length_append, List.length_singleton] at hlength
    omega
  have hpassed : passed
      ⟨attr.name ++ (spaces n ++ char '=' :: (spaces m ++ q :: (v ++ q :: p))), 1, script, links⟩
      ⟨p, 1, script, links ++ [l]⟩ =
        attr.name ++ spaces n ++ (char '=' :: spaces m) ++ q :: (v ++ [q]) := by
    refine passed_eq ?_
    simp
  rw [counted, if_neg hcomment, if_neg hscript, if_pos hlinks, hpassed,
    List.takeWhile_append_of_pos]
  · rcases hq with rfl | rfl <;> exact List.append_nil _
  · intro c hc
    exact decide_eq_true (not_isQuote.mp (equals_clean attr n m c hc).2)

theorem not_overflows {c : UInt8} {p : Bytes} {balance : Int32} {script : Bool}
    {links : List HtmlLink} (hless : c ≠ char '<') (hgreater : c ≠ char '>') :
    ¬ Overflows ⟨c :: p, balance, script, links⟩ := by
  intro h
  cases h with
  | less => exact hless rfl
  | greater => exact hgreater rfl

theorem not_overflows_name (attr : AttributeKind) {p : Bytes} {script : Bool}
    {links : List HtmlLink} : ¬ Overflows ⟨attr.name ++ p, 1, script, links⟩ := by
  rw [attr.name_cons]
  exact not_overflows (by decide) (by decide)

theorem overflows_less_iff {p : Bytes} {balance : Int32} {script : Bool} {links : List HtmlLink}
    (hcomment : ¬ str "!--" <+: p) :
    Overflows ⟨char '<' :: p, balance, script, links⟩ ↔ balance = Int32.maxValue := by
  constructor
  · intro h
    cases h
    rfl
  · rintro rfl
    exact .less hcomment

theorem overflows_greater_iff {p : Bytes} {balance : Int32} {script : Bool}
    {links : List HtmlLink} :
    Overflows ⟨char '>' :: p, balance, script, links⟩ ↔ balance = Int32.minValue := by
  constructor
  · intro h
    cases h
    rfl
  · rintro rfl
    exact .greater

/-- What a pass counts: nothing, a `<` or a `>`. -/
inductive Counts (s s' : LinkScan) : Prop where
  | none (hbalance : s'.ltgtBalance = s.ltgtBalance) (hcounted : bracketBalance (s.counted s') = 0)
      (hover : ¬ s.Overflows)
  | less (hbalance : s'.ltgtBalance = s.ltgtBalance + 1)
      (hcounted : bracketBalance (s.counted s') = 1)
      (hover : s.Overflows ↔ s.ltgtBalance = Int32.maxValue)
  | greater (hbalance : s'.ltgtBalance = s.ltgtBalance - 1)
      (hcounted : bracketBalance (s.counted s') = -1)
      (hover : s.Overflows ↔ s.ltgtBalance = Int32.minValue)

theorem Goes.counts {s s' : LinkScan} (h : Goes s s') (hs : ¬ s.Swallows) : Counts s s' := by
  cases h with
  | comment h =>
      refine .none rfl ?_ ?_
      · rw [counted, if_pos (List.prefix_append _ _)]
        rfl
      · intro hover
        cases hover with
        | less hcomment => exact hcomment (List.prefix_append ..)
  | @less p balance script links hcomment hscript =>
      have hcounted : counted ⟨char '<' :: p, balance, script, links⟩
          ⟨p, balance + 1, script, links⟩ = str "<" :=
        counted_eq rfl (fun hpre => hcomment (List.cons_prefix_cons.mp hpre).2)
          (not_greater (by decide)) rfl
      exact .less rfl (by rw [hcounted]; rfl) (overflows_less_iff hcomment)
  | @script c p balance script links hc =>
      have hcounted : counted ⟨str "<script" ++ c :: p, balance, script, links⟩
          ⟨c :: p, balance + 1, true, links⟩ = str "<script" := by
        refine counted_eq rfl (fun hpre => ?_) (not_greater (by decide)) rfl
        have hletter := (List.cons_prefix_cons.mp (List.cons_prefix_cons.mp hpre).2).1
        exact absurd hletter (by decide)
      refine .less rfl (by rw [hcounted]; rfl) (overflows_less_iff fun hpre => ?_)
      exact absurd (List.cons_prefix_cons.mp hpre).1 (by decide)
  | @greater p balance links =>
      have hcounted : counted ⟨char '>' :: p, balance, false, links⟩
          ⟨p, balance - 1, false, links⟩ = str ">" :=
        counted_eq rfl (not_comment (by decide)) (fun hend => Bool.false_ne_true hend.1) rfl
      exact .greater rfl (by rw [hcounted]; rfl) overflows_greater_iff
  | @endScript p q balance links h =>
      refine .greater rfl ?_ overflows_greater_iff
      rw [counted, if_neg (not_comment (by decide)), if_pos ⟨rfl, rfl⟩]
      rfl
  | outside hc hbalance =>
      exact .none rfl (bracketBalance_counted_plain hc.1 hc.2.1) (not_overflows hc.1 hc.2.1)
  | skip hc hname =>
      exact .none rfl (bracketBalance_counted_plain hc.1 hc.2.1) (not_overflows hc.1 hc.2.1)
  | valueless attr n hspace hc =>
      have hbracket := fun hbracket => hs (.valueless attr n hbracket)
      refine .none rfl ?_ (not_overflows_name attr)
      rw [bracketBalance_valueless, bracketBalance_single_of_not hbracket]
  | unquoted attr n m hspace hc =>
      have hbracket := fun hbracket => hs (.unquoted attr n m hbracket)
      refine .none rfl ?_ (not_overflows_name attr)
      rw [bracketBalance_unquoted, bracketBalance_single_of_not hbracket]
  | @link attr n m q v p script links hq hv =>
      refine .none rfl ?_ (not_overflows_name attr)
      rw [counted_link attr n m _ hq, bracketBalance_of_not fun c hc => (equals_clean attr n m c hc).1]

/-- A pass that takes no bracket along keeps the counter in step, unless it
overflows. -/
theorem Goes.ltgtBalance_iff {s s' : LinkScan} (h : Goes s s') (hs : ¬ s.Swallows) :
    s'.ltgtBalance.toInt = s.ltgtBalance.toInt + bracketBalance (s.counted s') ↔
      ¬ s.Overflows := by
  cases h.counts hs with
  | none hbalance hcounted hover =>
      rw [hbalance, hcounted, Int.add_zero]
      exact iff_of_true rfl hover
  | less hbalance hcounted hover =>
      rw [hbalance, hcounted, hover]
      exact toInt_add_one_iff
  | greater hbalance hcounted hover =>
      rw [hbalance, hcounted, hover]
      exact toInt_sub_one_iff

theorem Overflows.exists_goes {s : LinkScan} (h : s.Overflows) (hterm : Terminated s.p) :
    ∃ s', Goes s s' := by
  have hgoes {c : UInt8} (hhead : s.p.head? = some c) (hc : c ≠ 0) (hstuck : ¬ s.Stuck) :
      ∃ s', Goes s s' := by
    rcases pass_terminated hterm hstuck with ⟨links, hpass⟩ | ⟨s', hpass, -⟩
    · rw [pass, hhead] at hpass
      dsimp only at hpass
      rw [if_neg hc] at hpass
      split at hpass
      · exact absurd (Sum.inr.inj hpass).symm (Option.some_ne_none links)
      · exact absurd hpass Sum.inl_ne_inr
    · exact ⟨s', goes_of_pass hterm hpass⟩
  have hmax : Int32.maxValue ≠ 1 := by decide
  have hmin : Int32.minValue ≠ 1 := by decide
  cases h with
  | less hcomment => exact hgoes rfl (by decide) fun hstuck => hmax hstuck.1
  | greater => exact hgoes rfl (by decide) fun hstuck => hmin hstuck.1

theorem Swallows.ne_nil {s : LinkScan} (h : s.Swallows) : s.p ≠ [] := by
  cases h with
  | valueless attr n hc => cases attr <;> exact List.cons_ne_nil _ _
  | unquoted attr n m hc => cases attr <;> exact List.cons_ne_nil _ _

/-- A bracket that is taken along is gone over without being counted. -/
theorem Swallows.goes {s : LinkScan} (h : s.Swallows) : ∃ s', Goes s s' ∧
    s'.ltgtBalance = s.ltgtBalance ∧ bracketBalance (s.counted s') ≠ 0 := by
  cases h with
  | @valueless attr n c p script links hc =>
      have hne : c ≠ char ' ' ∧ c ≠ char '=' := by rcases hc with rfl | rfl <;> decide
      refine ⟨_, .valueless attr n hne.1 hne.2, rfl, ?_⟩
      rw [bracketBalance_valueless]
      exact bracketBalance_single_ne hc
  | @unquoted attr n m c p script links hc =>
      have hne : c ≠ char ' ' ∧ c ≠ char '\'' ∧ c ≠ char '"' := by rcases hc with rfl | rfl <;> decide
      refine ⟨_, .unquoted attr n m hne.1 (not_isQuote.mpr hne.2), rfl, ?_⟩
      rw [bracketBalance_unquoted]
      exact bracketBalance_single_ne hc

/-! ## The scan -/

theorem Reads.visits {page t : Bytes} {s : LinkScan} (h : Reads page s t) : Visits page s := by
  induction h with
  | start => exact .refl
  | pass h hpass ih => exact ih.tail hpass

theorem exists_reads {page : Bytes} {s : LinkScan} (h : Visits page s) : ∃ t, Reads page s t := by
  induction h with
  | refl => exact ⟨[], .start⟩
  | tail hsteps hpass ih =>
      obtain ⟨t, ht⟩ := ih
      exact ⟨_, ht.pass hpass⟩

end LinkScan

open LinkScan in
/-- On every page, the counter is the difference of the brackets in front of the
pointer at each pass if and only if no bracket is taken along and the counter does
not overflow. -/
theorem ltgtBalance_eq_iff (page : Bytes) :
    (∀ s t, Reads page s t → s.ltgtBalance.toInt = bracketBalance t) ↔
      ∀ s, Visits page s → ¬ s.Swallows ∧ ¬ s.Overflows := by
  constructor
  · intro h s hs
    obtain ⟨t, ht⟩ := exists_reads hs
    have hswallows : ¬ s.Swallows := by
      intro hswallows
      obtain ⟨s', hgoes, hbalance, hne⟩ := hswallows.goes
      have hterm : Terminated s.p := (visits_terminated hs).resolve_left hswallows.ne_nil
      have hs' := h s' _ (ht.pass (pass_of_goes hterm hgoes))
      rw [bracketBalance_append, hbalance, h s t ht] at hs'
      omega
    refine ⟨hswallows, fun hover => ?_⟩
    have hne : s.p ≠ [] := by cases hover <;> exact List.cons_ne_nil _ _
    have hterm : Terminated s.p := (visits_terminated hs).resolve_left hne
    obtain ⟨s', hgoes⟩ := hover.exists_goes hterm
    have hs' := h s' _ (ht.pass (pass_of_goes hterm hgoes))
    rw [bracketBalance_append, ← h s t ht] at hs'
    exact (hgoes.ltgtBalance_iff hswallows).mp hs' hover
  · intro h s t ht
    induction ht with
    | start => rfl
    | @pass s s' t ht hpass ih =>
        have hgoes := goes_of_visits ht.visits hpass
        obtain ⟨hswallows, hover⟩ := h s ht.visits
        rw [(hgoes.ltgtBalance_iff hswallows).mpr hover, ih, bracketBalance_append]

/-- The tags of a page are closed when between the brackets next to it every `href`
and `src` is inside a tag. -/
def TagsClosed (page : Bytes) : Prop :=
  ∀ i < page.length, ∀ attr ∈ [AttributeKind.href, .src], attr.name <+: page.drop i →
    ((page.take i).filter (· ∈ str "<>")).getLast? = some (char '<') ∧
      ((page.drop i).filter (· ∈ str "<>")).head? = some (char '>')

open LinkScan in
/-- The attribute of `<a href>` has no value, and the `>` is taken along. -/
theorem ltgtBalance_valueless :
    TagsClosed (str "<a href>") ∧
      ∃ s t, Reads (str "<a href>") s t ∧ s.ltgtBalance = 1 ∧ bracketBalance t = 0 := by
  refine ⟨by unfold TagsClosed; decide, ⟨[0], 1, false, []⟩, str "<a href>", ?_, rfl, rfl⟩
  have hless : Reads (str "<a href>") ⟨str "a href>" ++ [0], 1, false, []⟩ (str "<") :=
    .pass .start rfl
  have hname : Reads (str "<a href>") ⟨str " href>" ++ [0], 1, false, []⟩ (str "<a") :=
    .pass hless rfl
  exact .pass hname rfl

end ZimTools
