import ZimTools.Std.Captures
import ZimTools.Std.Decimal
import ZimTools.Tools.AbsolutePath

/-!
# Redirect files

`parse_redirectArticles` of `zimwriterfs` reads a text line by line.  A line has
the path, the title and the target of a redirect between tabs.  The first line
that does not ends the reading with an error which has its number.

The number is counted in an `int`.  Up to the last one it can count, the reader
does what its error says: it handles the redirects in front of the first bad
line, and gives back every list that was written in this form
(`parseRedirectArticles_iff`).
-/

namespace ZimTools.Zimwriterfs

open Bytes Pattern

structure Redirect where
  path : Bytes
  title : Bytes
  target : Bytes
deriving DecidableEq

/-- `[^\t]`. -/
def isField (c : UInt8) : Bool := c != char '\t'

def isTab (c : UInt8) : Bool := c == char '\t'

/-- `^([^\t]+)\t([^\t]+)\t([^\t]+)$`. -/
def lineRegex : Pattern :=
  .seq (.group 1 (some1 isField))
    (.seq (.one isTab)
      (.seq (.group 2 (some1 isField)) (.seq (.one isTab) (.group 3 (some1 isField)))))

def Redirect.ofGroups (groups : Captures) : Redirect where
  path := (groups 1).getD []
  title := (groups 2).getD []
  target := (groups 3).getD []

/-- The redirect of a line, if the expression matches. -/
def matchLine (line : Bytes) : Option Redirect :=
  (fullMatch lineRegex line).map Redirect.ofGroups

/-- How a call ends.  It is undefined when it counts over the last `int`. -/
inductive Ending where
  | returned
  | threw (what : Bytes)
  | undefined
deriving DecidableEq

/-- The last `int`. -/
def intMax : Nat := 2147483647

def invalidLine (lineNumber : Nat) (line : Bytes) : Bytes :=
  str "Invalid line #" ++ decimal lineNumber ++ str " : '" ++ line ++ str "'"

section Parse

variable {σ : Type} (handler : σ → Redirect → σ)

/-- The loop over the lines of the stream, from a line number on. -/
def parseLines : Nat → List Bytes → σ → σ × Ending
  | _, [], s => (s, .returned)
  | lineNumber, line :: lines, s =>
      match matchLine line with
      | none => (s, .threw (invalidLine lineNumber line))
      | some redirect =>
          let s := handler s redirect
          if lineNumber = intMax then (s, .undefined) else parseLines (lineNumber + 1) lines s

/-- `parse_redirectArticles`, with what the handler has done. -/
def parseRedirectArticles (inStream : Bytes) (s : σ) : σ × Ending :=
  parseLines handler 1 (getlines inStream (char '\n')) s

end Parse

/-! ## The lines of redirects -/

/-- Fields that a line can have. -/
def Redirect.Valid (r : Redirect) : Prop :=
  ∀ field ∈ [r.path, r.title, r.target], field ≠ [] ∧ char '\t' ∉ field

instance (r : Redirect) : Decidable r.Valid :=
  inferInstanceAs (Decidable (∀ field ∈ [r.path, r.title, r.target], _))

/-- The fields between tabs. -/
def Redirect.line (r : Redirect) : Bytes :=
  r.path ++ char '\t' :: (r.title ++ char '\t' :: r.target)

def Redirect.groups (r : Redirect) : Captures :=
  Function.update (Function.update (Function.update (fun _ => none) 1 (some r.path))
    2 (some r.title)) 3 (some r.target)

theorem Redirect.ofGroups_groups (r : Redirect) : ofGroups r.groups = r := rfl

theorem Redirect.valid_iff {r : Redirect} : r.Valid ↔
    (r.path ≠ [] ∧ char '\t' ∉ r.path) ∧ (r.title ≠ [] ∧ char '\t' ∉ r.title) ∧
      r.target ≠ [] ∧ char '\t' ∉ r.target := by
  simp [Redirect.Valid]

/-- A line has the fields of one redirect. -/
theorem Redirect.line_inj {r r' : Redirect} (h : r.Valid) (h' : r'.Valid)
    (hline : r.line = r'.line) : r = r' := by
  rw [Redirect.valid_iff] at h h'
  obtain ⟨hpath, -, hrest⟩ := append_cons_inj h'.1.2 h.1.2 hline
  obtain ⟨htitle, -, htarget⟩ := append_cons_inj h'.2.1.2 h.2.1.2 hrest
  obtain ⟨path, title, target⟩ := r
  obtain ⟨path', title', target'⟩ := r'
  simp only at hpath htitle htarget
  rw [hpath, htitle, htarget]

theorem matches_field {n : Nat} {caps caps' : Captures} {s : Bytes} :
    Matches (.group n (some1 isField)) caps s caps' ↔
      caps' = Function.update caps n (some s) ∧ s ≠ [] ∧ char '\t' ∉ s := by
  have hfield : (∀ c ∈ s, isField c = true) ↔ char '\t' ∉ s := by
    simp only [isField, bne_iff_ne]
    exact ⟨fun h hmem => h _ hmem rfl, fun h c hc hct => h (hct ▸ hc)⟩
  constructor
  · intro h
    cases h with
    | group ha =>
        obtain ⟨rfl, hne, hs⟩ := Matches.some1_iff.mp ha
        exact ⟨rfl, hne, hfield.mp hs⟩
  · rintro ⟨rfl, hne, hs⟩
    exact .group (Matches.some1_iff.mpr ⟨rfl, hne, hfield.mpr hs⟩)

/-- The expression matches the lines of redirects and captures their fields. -/
theorem matches_lineRegex {line : Bytes} {groups : Captures} :
    Matches lineRegex (fun _ => none) line groups ↔
      ∃ r : Redirect, r.Valid ∧ line = r.line ∧ groups = r.groups := by
  constructor
  · intro h
    cases h with
    | seq hpath h =>
    cases h with
    | seq htab h =>
    cases h with
    | seq htitle h =>
    cases h with
    | seq htab' htarget =>
        cases htab with
        | one htab =>
        cases htab' with
        | one htab' =>
            obtain ⟨rfl, path⟩ := matches_field.mp hpath
            obtain ⟨rfl, title⟩ := matches_field.mp htitle
            obtain ⟨rfl, target⟩ := matches_field.mp htarget
            obtain rfl := beq_iff_eq.mp htab
            obtain rfl := beq_iff_eq.mp htab'
            exact ⟨⟨_, _, _⟩, Redirect.valid_iff.mpr ⟨path, title, target⟩, rfl, rfl⟩
  · rintro ⟨r, hvalid, rfl, rfl⟩
    obtain ⟨hpath, htitle, htarget⟩ := Redirect.valid_iff.mp hvalid
    have htab : ∀ caps, Matches (.one isTab) caps [char '\t'] caps := fun _ => .one (by decide)
    exact .seq (matches_field.mpr ⟨rfl, hpath⟩) (.seq (htab _) (.seq
      (matches_field.mpr ⟨rfl, htitle⟩) (.seq (htab _) (matches_field.mpr ⟨rfl, htarget⟩))))

theorem matchLine_eq_some_iff {line : Bytes} {r : Redirect} :
    matchLine line = some r ↔ r.Valid ∧ line = r.line := by
  rw [matchLine, Option.map_eq_some_iff]
  constructor
  · rintro ⟨groups, hmatch, rfl⟩
    obtain ⟨r, hvalid, hline, rfl⟩ := matches_lineRegex.mp (Matches.of_fullMatch hmatch)
    rw [Redirect.ofGroups_groups]
    exact ⟨hvalid, hline⟩
  · rintro ⟨hvalid, hline⟩
    cases hmatch : fullMatch lineRegex line with
    | none =>
        have hgroups := matches_lineRegex.mpr ⟨r, hvalid, hline, rfl⟩
        exact absurd hgroups (fullMatch_eq_none_iff.mp hmatch _)
    | some groups =>
        obtain ⟨r', hvalid', hline', rfl⟩ := matches_lineRegex.mp (Matches.of_fullMatch hmatch)
        obtain rfl := Redirect.line_inj hvalid hvalid' (hline.symm.trans hline')
        exact ⟨_, rfl, r.ofGroups_groups⟩

theorem matchLine_line {r : Redirect} (h : r.Valid) : matchLine r.line = some r :=
  matchLine_eq_some_iff.mpr ⟨h, rfl⟩

theorem matchLine_eq_none_iff {line : Bytes} :
    matchLine line = none ↔ ∀ r : Redirect, r.Valid → line ≠ r.line := by
  rw [Option.eq_none_iff_forall_ne_some]
  exact forall_congr' fun r => by rw [ne_eq, matchLine_eq_some_iff, not_and]

/-! ## Runs -/

section Runs

variable {σ : Type} {handler : σ → Redirect → σ} {redirects : List Redirect}

/-- Lines of redirects are handled in their order. -/
theorem parseLines_append (hvalid : ∀ r ∈ redirects, r.Valid) (rest : List Bytes) {n : Nat}
    (hn : n + redirects.length ≤ intMax) (s : σ) :
    parseLines handler n (redirects.map Redirect.line ++ rest) s =
      parseLines handler (n + redirects.length) rest (redirects.foldl handler s) := by
  induction redirects generalizing n s with
  | nil => rfl
  | cons r redirects ih =>
      obtain ⟨hr, hvalid⟩ := List.forall_mem_cons.mp hvalid
      rw [List.length_cons] at hn
      have hlast : n ≠ intMax := by omega
      rw [List.map_cons, List.cons_append, parseLines, matchLine_line hr]
      simp only [if_neg hlast, List.foldl_cons, List.length_cons]
      rw [ih hvalid (by omega), Nat.add_assoc, Nat.add_comm 1]

/-- The lines that reach the last `int` end in an overflow. -/
theorem parseLines_overflow (hvalid : ∀ r ∈ redirects, r.Valid) (rest : List Bytes) {n : Nat}
    (hn : n ≤ intMax) (hlength : intMax < n + redirects.length) (s : σ) :
    (parseLines handler n (redirects.map Redirect.line ++ rest) s).2 = .undefined := by
  induction redirects generalizing n s with
  | nil => exact absurd hlength (Nat.not_lt.mpr hn)
  | cons r redirects ih =>
      obtain ⟨hr, hvalid⟩ := List.forall_mem_cons.mp hvalid
      rw [List.length_cons] at hlength
      rw [List.map_cons, List.cons_append, parseLines, matchLine_line hr]
      by_cases hlast : n = intMax
      · simp only [if_pos hlast]
      · simp only [if_neg hlast]
        exact ih hvalid (by omega) (by omega) _

end Runs

/-- The redirects at the start of a text, up to its end or to the first line
that is none. -/
theorem exists_redirects (lines : List Bytes) :
    ∃ redirects : List Redirect, (∀ r ∈ redirects, r.Valid) ∧
      (lines = redirects.map Redirect.line ∨
        ∃ bad rest, lines = redirects.map Redirect.line ++ bad :: rest ∧
          ∀ r : Redirect, r.Valid → bad ≠ r.line) := by
  induction lines with
  | nil => exact ⟨[], List.forall_mem_nil _, .inl rfl⟩
  | cons line lines ih =>
      cases hmatch : matchLine line with
      | none =>
          exact ⟨[], List.forall_mem_nil _, .inr ⟨line, lines, rfl, matchLine_eq_none_iff.mp hmatch⟩⟩
      | some r =>
          obtain ⟨hr, rfl⟩ := matchLine_eq_some_iff.mp hmatch
          obtain ⟨redirects, hvalid, rfl | ⟨bad, rest, rfl, hbad⟩⟩ := ih
          · exact ⟨r :: redirects, List.forall_mem_cons.mpr ⟨hr, hvalid⟩, .inl rfl⟩
          · exact ⟨r :: redirects, List.forall_mem_cons.mpr ⟨hr, hvalid⟩,
              .inr ⟨bad, rest, rfl, hbad⟩⟩

/-! ## What the reader is to do -/

/-- The redirects in front of the first line that is none are handled, and an
error has the number of that line. -/
def Reads (inStream : Bytes) : Prop :=
  ∃ redirects : List Redirect, (∀ r ∈ redirects, r.Valid) ∧
    ((getlines inStream (char '\n') = redirects.map Redirect.line ∧
        ∀ (σ : Type) (handler : σ → Redirect → σ) (s : σ),
          parseRedirectArticles handler inStream s = (redirects.foldl handler s, .returned)) ∨
      ∃ bad rest, getlines inStream (char '\n') = redirects.map Redirect.line ++ bad :: rest ∧
        (∀ r : Redirect, r.Valid → bad ≠ r.line) ∧
        ∀ (σ : Type) (handler : σ → Redirect → σ) (s : σ),
          parseRedirectArticles handler inStream s =
            (redirects.foldl handler s, .threw (invalidLine (redirects.length + 1) bad)))

/-- An `int` can count on behind the redirects at the start of a stream. -/
def Countable (inStream : Bytes) : Prop :=
  ∀ redirects : List Redirect, (∀ r ∈ redirects, r.Valid) →
    redirects.map Redirect.line <+: getlines inStream (char '\n') → redirects.length < intMax

/-- Redirects that can be written with tabs and newlines between their fields. -/
structure RedirectList where
  redirects : List Redirect
  valid : ∀ r ∈ redirects, r.Valid
  noNewline : ∀ r ∈ redirects, char '\n' ∉ r.line

/-- A list as tab-separated text. -/
def RedirectList.tsv (list : RedirectList) : Bytes :=
  list.redirects.flatMap fun r => r.line ++ str "\n"

/-- The text gives the list back, with and without the last newline. -/
def GivesBack (list : RedirectList) : Prop :=
  ∀ text ∈ [list.tsv, list.tsv.dropLast],
    parseRedirectArticles (fun l r => l ++ [r]) text [] = (list.redirects, .returned)

theorem not_reads_of_overflow {inStream : Bytes} {redirects : List Redirect}
    (hvalid : ∀ r ∈ redirects, r.Valid)
    (hlines : redirects.map Redirect.line <+: getlines inStream (char '\n'))
    (hlength : intMax ≤ redirects.length) : ¬ Reads inStream := by
  obtain ⟨rest, hrest⟩ := hlines
  have hending : (parseRedirectArticles (fun (s : Unit) _ => s) inStream ()).2 = .undefined := by
    rw [parseRedirectArticles, ← hrest]
    exact parseLines_overflow hvalid rest (by decide) (by omega) ()
  rintro ⟨handled, -, ⟨-, hrun⟩ | ⟨bad, rest, -, -, hrun⟩⟩
  · rw [hrun] at hending
    exact Ending.noConfusion hending
  · rw [hrun] at hending
    exact Ending.noConfusion hending

/-- The reader does so unless the numbers of the lines go over the last `int`. -/
theorem reads_iff (inStream : Bytes) : Reads inStream ↔ Countable inStream := by
  constructor
  · intro hreads redirects hvalid hlines
    by_contra hlength
    exact not_reads_of_overflow hvalid hlines (Nat.not_lt.mp hlength) hreads
  · intro hcount
    obtain ⟨redirects, hvalid, hend | ⟨bad, rest, hlines, hbad⟩⟩ :=
      exists_redirects (getlines inStream (char '\n'))
    · refine ⟨redirects, hvalid, .inl ⟨hend, fun σ handler s => ?_⟩⟩
      have hlength := hcount redirects hvalid (hend ▸ List.prefix_refl _)
      rw [parseRedirectArticles, hend, ← List.append_nil (redirects.map Redirect.line),
        parseLines_append hvalid [] (by omega)]
      rfl
    · refine ⟨redirects, hvalid, .inr ⟨bad, rest, hlines, hbad, fun σ handler s => ?_⟩⟩
      have hlength := hcount redirects hvalid (hlines ▸ List.prefix_append ..)
      rw [parseRedirectArticles, hlines, parseLines_append hvalid _ (by omega), parseLines,
        matchLine_eq_none_iff.mpr hbad, Nat.add_comm]

/-! ## Written lists -/

/-- Lines without newlines, in front of a text. -/
theorem splitOn_lines {lines : List Bytes} (h : ∀ line ∈ lines, char '\n' ∉ line) (last : Bytes) :
    (lines.flatMap (· ++ str "\n") ++ last).splitOn (char '\n') =
      lines ++ last.splitOn (char '\n') := by
  induction lines with
  | nil => rfl
  | cons line lines ih =>
      obtain ⟨hline, hlines⟩ := List.forall_mem_cons.mp h
      have hcons : (line :: lines).flatMap (· ++ str "\n") ++ last =
          line ++ char '\n' :: (lines.flatMap (· ++ str "\n") ++ last) := by
        simp [str]
      rw [hcons, List.splitOn_append_cons_self, List.splitOn_eq_singleton hline, ih hlines]
      rfl

namespace RedirectList

variable (list : RedirectList)

theorem tsv_eq : list.tsv = (list.redirects.map Redirect.line).flatMap (· ++ str "\n") := by
  rw [List.flatMap_map]
  rfl

theorem noNewline_line : ∀ line ∈ list.redirects.map Redirect.line, char '\n' ∉ line :=
  List.forall_mem_map.mpr list.noNewline

/-- The lines of the text, with the last newline. -/
theorem getlines_tsv : getlines list.tsv (char '\n') = list.redirects.map Redirect.line := by
  have hsplit : list.tsv.splitOn (char '\n') = list.redirects.map Redirect.line ++ [[]] := by
    rw [tsv_eq, ← List.append_nil (List.flatMap _ _)]
    exact splitOn_lines list.noNewline_line []
  simp only [getlines, hsplit, List.getLast?_concat, List.dropLast_concat, if_true]

/-- The lines of the text, without the last newline. -/
theorem getlines_tsv_dropLast :
    getlines list.tsv.dropLast (char '\n') = list.redirects.map Redirect.line := by
  rcases List.eq_nil_or_concat' list.redirects with hnil | ⟨redirects, r, hconcat⟩
  · rw [RedirectList.tsv, hnil]
    rfl
  · have htext : list.tsv.dropLast =
        (redirects.map Redirect.line).flatMap (· ++ str "\n") ++ r.line := by
      rw [tsv_eq, hconcat, List.map_append, List.flatMap_append]
      simp [str, ← List.append_assoc]
    have hlines := list.noNewline_line
    rw [hconcat, List.map_append] at hlines
    have hr : char '\n' ∉ r.line := hlines _ (List.mem_append_right _ (List.mem_singleton_self _))
    have hsplit : list.tsv.dropLast.splitOn (char '\n') =
        redirects.map Redirect.line ++ [r.line] := by
      rw [htext, splitOn_lines (fun line hline => hlines line (List.mem_append_left _ hline)),
        List.splitOn_eq_singleton hr]
    have hne : some r.line ≠ some [] := by
      intro h
      exact List.append_ne_nil_of_right_ne_nil _ (List.cons_ne_nil _ _) (Option.some.inj h)
    rw [hconcat, List.map_append, List.map_singleton]
    simp only [getlines, hsplit, List.getLast?_concat, if_neg hne]

end RedirectList

/-- A text of the lines of redirects gives them back while an `int` can count
them. -/
theorem parse_lines_iff {text : Bytes} {redirects : List Redirect}
    (hvalid : ∀ r ∈ redirects, r.Valid)
    (hlines : getlines text (char '\n') = redirects.map Redirect.line) :
    parseRedirectArticles (fun l r => l ++ [r]) text [] = (redirects, .returned) ↔
      redirects.length < intMax := by
  rw [parseRedirectArticles, hlines, ← List.append_nil (redirects.map Redirect.line)]
  constructor
  · intro hrun
    by_contra hlength
    have hending : (parseLines (fun l r => l ++ [r]) 1 (redirects.map Redirect.line ++ [])
        []).2 = .undefined := parseLines_overflow hvalid [] (by decide) (by omega) []
    rw [hrun] at hending
    exact Ending.noConfusion hending
  · intro hlength
    have hfold : redirects.foldl (fun l r => l ++ [r]) [] = redirects := by
      rw [List.foldl_append_eq_append, List.nil_append, ← List.flatMap_def,
        List.flatMap_singleton']
    rw [parseLines_append hvalid [] (by omega), hfold]
    rfl

theorem givesBack_iff (list : RedirectList) :
    GivesBack list ↔ list.redirects.length < intMax := by
  rw [GivesBack, List.forall_mem_cons, List.forall_mem_singleton,
    parse_lines_iff list.valid list.getlines_tsv,
    parse_lines_iff list.valid list.getlines_tsv_dropLast, and_self]

/-- What a redirect file gives, for any stream and for the text of any list. -/
theorem parseRedirectArticles_iff (inStream : Bytes) (list : RedirectList) :
    (Reads inStream ↔ Countable inStream) ∧
      (GivesBack list ↔ list.redirects.length < intMax) :=
  ⟨reads_iff inStream, givesBack_iff list⟩

theorem getlines_behind {redirects : List Redirect}
    (hnewline : ∀ r ∈ redirects, char '\n' ∉ r.line) :
    getlines (redirects.flatMap (fun r => r.line ++ str "\n") ++ str "x") (char '\n') =
      redirects.map Redirect.line ++ [str "x"] := by
  have hsplit : (redirects.flatMap (fun r => r.line ++ str "\n") ++ str "x").splitOn
      (char '\n') = redirects.map Redirect.line ++ [str "x"] := by
    have hlines := splitOn_lines (List.forall_mem_map.mpr hnewline) (str "x")
    rwa [List.flatMap_map] at hlines
  have hne : some (str "x") ≠ some [] := by decide
  simp only [getlines, hsplit, List.getLast?_concat, if_neg hne]

/-- A bad line behind as many redirects as there are positive `int`s: its number
is none of them. -/
theorem reads_fails :
    ¬ Reads ((List.replicate intMax ⟨str "a", str "b", str "c"⟩).flatMap
      (fun r : Redirect => r.line ++ str "\n") ++ str "x") := by
  have hline : ∀ r ∈ List.replicate intMax (⟨str "a", str "b", str "c"⟩ : Redirect),
      r.Valid ∧ char '\n' ∉ r.line := by
    intro r hr
    rw [List.eq_of_mem_replicate hr]
    decide
  refine not_reads_of_overflow (fun r hr => (hline r hr).1) ?_ (List.length_replicate ..).ge
  rw [getlines_behind fun r hr => (hline r hr).2]
  exact List.prefix_append ..

end ZimTools.Zimwriterfs
