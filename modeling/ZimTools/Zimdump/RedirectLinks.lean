import ZimTools.Tools.LinkResolver
import ZimTools.Tools.RelativeSegments
import ZimTools.Tools.UrlEncode
import ZimTools.Zimdump.Containment

/-!
# Where the redirects of a dump lead

A redirect is dumped as a page with a refresh or as a symbolic link, both with
the relative path from the redirect to its target.  That path is computed from
the paths in the archive, and the place of the target is not always its path:
a file name that is too long is shortened.  The path in a page is encoded, and
the escape of a byte below 16 is none.  An apostrophe is not encoded, and a reader
of the refresh takes one in front for a quote (`unquote`).

So a redirect leads to the place of its target if and only if the file name of
the target is kept and, in a page, the segments that are written have no byte
below 16 and do not begin with an apostrophe (`redirect_leads_iff`).
-/

namespace ZimTools.Zimdump

open Bytes DotSegments Dump

/-! ## Following a link -/

/-- What is behind the first occurrence of a marker. -/
def textBehind (marker : Bytes) : Bytes → Option Bytes
  | [] => none
  | c :: s =>
      if marker.isPrefixOf (c :: s) then some ((c :: s).drop marker.length)
      else textBehind marker s

/-- The reference in the refresh of a page, up to the quote that ends it. -/
def refreshUrl (page : Bytes) : Option Bytes :=
  (textBehind (str "http-equiv=\"refresh\" content=\"0;url=") page).map
    (·.takeWhile (· != char '"'))

/-- The reference as the standard of HTML has it read: without a quote in front, and
without what is from the next such quote on. -/
def unquote : Bytes → Bytes
  | [] => []
  | c :: url =>
      if c = char '"' ∨ c = char '\'' then url.takeWhile (· != c) else c :: url

/-- Where a reference leads to from the page that it is on.  One without a path
loads the page again, and one with a scheme or from the root is none to a file of
the dump. -/
def followUrl (page : Location Bytes) (url : Bytes) : Option (Location Bytes) :=
  match stripFragmentAndOrSearchComponent url with
  | [] => none
  | c :: path =>
      if c = char '/' ∨ char ':' ∈ (c :: path).takeWhile (· != char '/') then none
      else some (page.parent.walk (pathMoves (decodeUrl (c :: path))))

/-- Where a symbolic link leads to. -/
def followSymlink (link : Location Bytes) (target : Bytes) : Location Bytes :=
  if target.head? = some (char '/') then locate target
  else link.parent.walk (pathMoves target)

/-- Where the output of a call leads to when it is a redirect. -/
def Call.leadsTo : Call → Option (Location Bytes)
  | .openWrite path page =>
      (refreshUrl page).bind fun url => followUrl (locate path) (unquote url)
  | .symlink target path => some (followSymlink (locate path) target)
  | _ => none

/-! ## The outputs of a dump -/

section

variable (fs : FileSystem) (directory : Bytes) (symlinkdump : Bool) (nsfilter : UInt8 → Bool)
  (entries : List Entry)

/-- The dump comes to an entry and computes a path for it. -/
def Placed (entry : Entry) (relativePath : Bytes) : Prop :=
  ∃ before after, entries = before ++ entry :: after ∧
    (dumpFiles fs directory symlinkdump nsfilter before).error = none ∧
    relativePath = (dumpFiles fs directory symlinkdump nsfilter before).relativePath entry

variable {fs directory symlinkdump nsfilter entries} in
theorem Placed.exists_call {entry : Entry} {relativePath : Bytes}
    (h : Placed fs directory symlinkdump nsfilter entries entry relativePath) :
    ∃ o, (outputCall directory symlinkdump entry relativePath, o) ∈
      (dumpFiles fs directory symlinkdump nsfilter entries).events := by
  obtain ⟨before, after, rfl, herror, rfl⟩ := h
  obtain ⟨events, o, later, hevents⟩ := events_dumpEntry fs directory symlinkdump entry herror
  have hrun : dumpFiles fs directory symlinkdump nsfilter (before ++ entry :: after) =
      after.foldl (dumpEntry fs directory symlinkdump)
        (dumpEntry fs directory symlinkdump
          (dumpFiles fs directory symlinkdump nsfilter before) entry) := by
    rw [dumpFiles, List.foldl_append, List.foldl_cons]
    rfl
  rw [hrun]
  refine ⟨o, (adds_foldl (fun d entry _ => grows_dumpEntry fs directory symlinkdump d entry) _).mem
    ?_⟩
  rw [hevents]
  exact List.mem_append_right _ (List.mem_append_right _ (List.mem_cons_self ..))

end

/-! ## Places -/

theorem segmentMove_of_plain {s : Bytes} (h : s ≠ [] ∧ s ≠ str "." ∧ s ≠ str "..") :
    segmentMove s = .down s := by
  rw [segmentMove, if_neg (not_or.mpr ⟨h.1, h.2.1⟩), if_neg h.2.2]

/-- The directories of an entry. -/
def dirsOf (path : Bytes) : List Bytes := (segments path).dropLast

theorem splitPath_segments (path : Bytes) :
    segments path = dirsOf path ++ [(splitPath path).2] ∧
      ∀ file, char '/' ∉ file →
        pathMoves ((splitPath path).1 ++ file) =
          (dirsOf path).map segmentMove ++ [segmentMove file] := by
  obtain ⟨hpath, hslash, hdir⟩ := splitPath_spec path
  rw [dirsOf]
  rcases hdir with hdir | ⟨pre, hdir⟩
  · rw [hdir, List.nil_append] at hpath
    have hsegments : segments path = [(splitPath path).2] := by
      conv_lhs => rw [hpath]
      exact segments_of_notMem hslash
    rw [hdir, hsegments]
    exact ⟨rfl, fun file hfile => pathMoves_of_notMem hfile⟩
  · have hsegments : segments path = segments pre ++ [(splitPath path).2] := by
      conv_lhs => rw [hpath, hdir, List.append_assoc, List.singleton_append]
      rw [segments_append, segments_of_notMem hslash]
    rw [hdir, hsegments, List.dropLast_concat]
    refine ⟨rfl, fun file hfile => ?_⟩
    rw [List.append_assoc, List.singleton_append, pathMoves_append, pathMoves_of_notMem hfile]
    rfl

theorem segments_dir_append (path rest : Bytes) :
    segments ((splitPath path).1 ++ rest) = dirsOf path ++ segments rest := by
  obtain ⟨hpath, hslash, hdir⟩ := splitPath_spec path
  rw [dirsOf]
  rcases hdir with hdir | ⟨pre, hdir⟩
  · rw [hdir, List.nil_append] at hpath
    rw [hdir, hpath, segments_of_notMem hslash]
    rfl
  · have hsegments : segments path = segments pre ++ [(splitPath path).2] := by
      conv_lhs => rw [hpath, hdir, List.append_assoc, List.singleton_append]
      rw [segments_append, segments_of_notMem hslash]
    rw [hdir, List.append_assoc, List.singleton_append, segments_append, hsegments,
      List.dropLast_concat]

theorem length_truncated_le (filename : Bytes) (n : Nat) :
    (truncated filename n).1.length ≤ 255 := by
  rw [truncated]
  split
  · have hdigits := length_counter_le (n + 1)
    have htilde : (str "~").length = 1 := rfl
    simp only [substr, List.drop_zero, List.length_append, List.length_take, htilde]
    omega
  · next h => exact Nat.le_of_not_lt h

theorem truncated_of_le {filename : Bytes} (h : filename.length ≤ 255) (n : Nat) :
    (truncated filename n).1 = filename := by
  rw [truncated, if_neg (Nat.not_lt_of_le h)]

/-- A file name that is shortened keeps its first byte. -/
theorem truncated_cons (c : UInt8) (rest : Bytes) (n : Nat) :
    ∃ name, (truncated (c :: rest) n).1 = c :: name := by
  rw [truncated]
  split
  · have hdigits := length_counter_le (n + 1)
    obtain ⟨k, hk⟩ := Nat.exists_eq_succ_of_ne_zero
      (show 254 - (decimal ((n + 1) % UInt32.size)).length ≠ 0 by omega)
    simp only [hk, substr, List.drop_zero, List.take_succ_cons, List.cons_append]
    exact ⟨_, rfl⟩
  · exact ⟨rest, rfl⟩

/-- The place of an entry whose path has plain segments. -/
theorem locate_place (directory : Bytes) {entry : Entry} (h : PlainPath entry.path) (n : Nat) :
    locate (directory ++ str "/" ++
        ((splitPath entry.path).1 ++ (truncated (splitPath entry.path).2 n).1)) =
      (outputLocation directory).walk
        ((dirsOf entry.path ++ [(truncated (splitPath entry.path).2 n).1]).map .down) := by
  obtain ⟨hsegments, hmoves⟩ := splitPath_segments entry.path
  have hplain : ∀ s ∈ dirsOf entry.path ++ [(splitPath entry.path).2], segmentMove s = .down s :=
    fun s hs => segmentMove_of_plain (h s (hsegments ▸ hs))
  have hname := hplain _ (List.mem_append_right _ (List.mem_singleton_self _))
  obtain ⟨hpath, hslash, -⟩ := splitPath_spec entry.path
  have hnul : (0 : UInt8) ∉ (splitPath entry.path).2 := fun hmem =>
    entry.noNul (hpath ▸ List.mem_append_right _ hmem)
  obtain ⟨hslash', -, hkept⟩ := truncated_spec hslash hnul n
  have hfile : segmentMove (truncated (splitPath entry.path).2 n).1 =
      .down (truncated (splitPath entry.path).2 n).1 := by
    rcases hkept with hkept | ⟨-, hdown⟩
    · rw [hkept]
      exact hname
    · exact hdown
  rw [locate_below, hmoves _ hslash', List.map_append, hfile, List.map_congr_left fun s hs =>
    hplain s (List.mem_append_left _ hs)]
  rfl

/-- The directory of such an entry. -/
theorem parent_locate_place (directory : Bytes) {entry : Entry} (h : PlainPath entry.path) (n : Nat) :
    (locate (directory ++ str "/" ++
        ((splitPath entry.path).1 ++ (truncated (splitPath entry.path).2 n).1))).parent =
      (outputLocation directory).walk ((dirsOf entry.path).map .down) := by
  rw [locate_place directory h, List.map_append, Location.walk_append]
  exact Location.parent_child _ _

/-- Where the moves of a relative path lead to from a file. -/
theorem walk_relative (out : Location Bytes) (dirs : List Bytes) (shared : Nat) (file : Bytes)
    (names : List Bytes) :
    (out.walk ((dirs ++ [file]).map .down)).parent.walk
        (List.replicate (dirs.length - shared) .up ++ names.map .down) =
      out.walk ((dirs.take shared ++ names).map .down) := by
  have hparent : (out.walk ((dirs ++ [file]).map .down)).parent =
      (out.walk ((dirs.take shared).map .down)).walk ((dirs.drop shared).map .down) := by
    rw [← Location.walk_append, ← List.map_append, List.take_append_drop, List.map_append,
      Location.walk_append]
    exact Location.parent_child _ file
  have hups := Location.walk_downs_ups (out.walk ((dirs.take shared).map .down))
    (dirs.drop shared)
  rw [List.length_drop] at hups
  rw [hparent, Location.walk_append, hups, List.map_append, Location.walk_append]

/-- The names that a relative path leads to are those of the place of the target
when no segment is read as another and the file name of the target is kept. -/
theorem names_eq_iff {read : Bytes → Bytes} (hread : ∀ s, s.length ≤ (read s).length)
    (dirs : List Bytes) (filename : Bytes) (n : Nat) :
    (dirs ++ [filename]).map read = dirs ++ [(truncated filename n).1] ↔
      filename.length ≤ 255 ∧ ∀ s ∈ dirs ++ [filename], read s = s := by
  have hself : (∀ s ∈ dirs ++ [filename], read s = s) ↔
      (dirs ++ [filename]).map read = dirs ++ [filename] := by
    rw [← List.map_inj_left, List.map_id']
  rw [hself]
  by_cases hlong : filename.length ≤ 255
  · rw [truncated_of_le hlong]
    exact (and_iff_right hlong).symm
  · constructor
    · intro h
      rw [List.map_append] at h
      have hfile : read filename = (truncated filename n).1 :=
        List.singleton_inj.mp (List.append_inj_right' h rfl)
      have hread := hread filename
      have hle := length_truncated_le filename n
      rw [← hfile] at hle
      exact absurd (Nat.le_trans hread hle) hlong
    · intro h
      exact absurd h.1 hlong

/-! ## The links -/

/-- How the segments of a link are read: those of a page are encoded. -/
def readSegment (html : Bool) (s : Bytes) : Bytes :=
  if html then s.flatMap (readBack true) else s

theorem length_le_readSegment (html : Bool) (s : Bytes) :
    s.length ≤ (readSegment html s).length := by
  cases html with
  | true => exact length_le_readBack s
  | false => exact Nat.le_refl _

theorem segmentMove_readSegment (html : Bool) {s : Bytes}
    (h : s ≠ [] ∧ s ≠ str "." ∧ s ≠ str "..") :
    segmentMove (readSegment html s) = .down (readSegment html s) := by
  cases html with
  | false => exact segmentMove_of_plain h
  | true =>
      rcases readBack_eq_self_or s with hself | hspace
      · have hread : readSegment true s = s := hself
        rw [hread]
        exact segmentMove_of_plain h
      · refine segmentMove_of_plain ⟨?_, ?_, ?_⟩
        · intro hnil
          exact absurd (hnil ▸ hspace : char ' ' ∈ ([] : Bytes)) (by decide)
        · intro hdot
          exact absurd (hdot ▸ hspace : char ' ' ∈ str ".") (by decide)
        · intro hdots
          exact absurd (hdots ▸ hspace : char ' ' ∈ str "..") (by decide)

section Link

variable {basePath targetPath : Bytes} (htarget : PlainPath targetPath)
  (hancestor : ¬ Ancestor targetPath basePath)

include htarget hancestor

theorem pathMoves_link (html : Bool) :
    ((segments (computeRelativePath basePath targetPath)).map (readSegment html)).map segmentMove =
      List.replicate ((dirsOf basePath).length - sharedDirs basePath targetPath) .up ++
        ((ownSegments basePath targetPath).map (readSegment html)).map .down := by
  have hups : readSegment html (str "..") = str ".." := by cases html <;> decide
  have hmove : segmentMove (str "..") = .up := by decide
  rw [segments_computeRelativePath htarget hancestor, List.map_append, List.map_append,
    List.map_replicate, List.map_replicate, hups, hmove, dirsOf, List.length_dropLast, List.map_map,
    List.map_map]
  refine congrArg _ (List.map_congr_left fun s hs => ?_)
  exact segmentMove_readSegment html (htarget.mem_ownSegments hs).1

theorem notMem_link {c : UInt8} (hslash : c ≠ char '/') (hdots : c ∉ str "..")
    (hc : c ∉ targetPath) : c ∉ computeRelativePath basePath targetPath := by
  intro hmem
  obtain ⟨s, hs, hcs⟩ := (mem_segments_iff hslash _).mp hmem
  rw [segments_computeRelativePath htarget hancestor] at hs
  rcases List.mem_append.mp hs with hs | hs
  · rw [List.eq_of_mem_replicate hs] at hcs
    exact hdots hcs
  · exact hc ((mem_segments_iff hslash _).mpr ⟨s, List.mem_of_mem_drop hs, hcs⟩)

theorem nil_notMem_segments_link : [] ∉ segments (computeRelativePath basePath targetPath) := by
  rw [segments_computeRelativePath htarget hancestor, List.mem_append, not_or]
  constructor
  · intro hmem
    exact absurd (List.eq_of_mem_replicate hmem) (by decide)
  · intro hmem
    exact (htarget.mem_ownSegments hmem).1.1 rfl

/-- The link begins with a byte of a segment. -/
theorem exists_link_cons : ∃ c rest, computeRelativePath basePath targetPath = c :: rest ∧
    c ≠ char '/' := by
  have hnil := nil_notMem_segments_link htarget hancestor
  obtain ⟨s, segs, hlink⟩ := List.exists_cons_of_ne_nil
    (List.splitOn_ne_nil (char '/') (computeRelativePath basePath targetPath))
  have hsegments : segments (computeRelativePath basePath targetPath) = s :: segs := hlink
  refine exists_cons_of_segments hsegments fun hs => hnil ?_
  rw [hsegments, hs]
  exact List.mem_cons_self

/-- The link begins with a byte other than a dot when it only goes down, and then it
is what the path of the target has behind the directory. -/
theorem head?_link_iff {c : UInt8} (hdot : c ≠ char '.') (hslash : c ≠ char '/') :
    (computeRelativePath basePath targetPath).head? = some c ↔
      ∃ rest, targetPath = (splitPath basePath).1 ++ c :: rest := by
  have hlink := segments_computeRelativePath htarget hancestor
  have hdirs : (dirsOf basePath).length = (segments basePath).length - 1 := List.length_dropLast ..
  constructor
  · intro hhead
    obtain ⟨rest, hrest⟩ := List.head?_eq_some_iff.mp hhead
    refine ⟨rest, segments_injective ?_⟩
    rw [segments_dir_append, ← hrest, hlink]
    rw [hrest] at hlink
    cases hups : (segments basePath).length - 1 - sharedDirs basePath targetPath with
    | succ k =>
        obtain ⟨s, segs, hs⟩ := segments_cons hslash rest
        rw [hs, hups, List.replicate_succ, List.cons_append] at hlink
        exact absurd (List.cons.inj (List.cons.inj hlink).1).1 hdot
    | zero =>
        have hle : sharedDirs basePath targetPath ≤ (dirsOf basePath).length :=
          commonLength_le_left _ _
        have hshared : sharedDirs basePath targetPath = (dirsOf basePath).length := by omega
        have htake : (dirsOf basePath).take (sharedDirs basePath targetPath) =
            (segments targetPath).take (sharedDirs basePath targetPath) := take_commonLength _ _
        rw [hshared, List.take_length] at htake
        rw [List.replicate_zero, List.nil_append, ownSegments, hshared]
        conv_lhs => rw [← List.take_append_drop (dirsOf basePath).length (segments targetPath)]
        rw [← htake]
  · rintro ⟨rest, rfl⟩
    have hsegments := segments_dir_append basePath (c :: rest)
    have hshared : sharedDirs basePath ((splitPath basePath).1 ++ c :: rest) =
        (dirsOf basePath).length := by
      rw [sharedDirs, hsegments]
      exact commonLength_append _ _
    have hself : computeRelativePath basePath ((splitPath basePath).1 ++ c :: rest) = c :: rest := by
      refine segments_injective ?_
      rw [hlink, ownSegments, hshared, hdirs, Nat.sub_self, List.replicate_zero, List.nil_append,
        ← hdirs, hsegments, List.drop_left]
    rw [hself]
    rfl

theorem followSymlink_link (link : Location Bytes) :
    followSymlink link (computeRelativePath basePath targetPath) =
      link.parent.walk (((segments (computeRelativePath basePath targetPath)).map
        (readSegment false)).map segmentMove) := by
  obtain ⟨c, rest, hlink, hc⟩ := exists_link_cons htarget hancestor
  have hread : readSegment false = id := rfl
  rw [followSymlink, if_neg, hread, List.map_id]
  · rfl
  · rw [hlink]
    exact fun h => hc (Option.some.inj h)

end Link

/-! ## Pages -/

theorem slash_notMem_readBack {c : UInt8} (hc : c ≠ char '/') : char '/' ∉ readBack true c := by
  by_cases hlt : c.toNat < 16
  · have hdigit : upperHexDigit c.toNat ≠ char '/' := by
      intro h
      exact absurd (isxdigit_upperHexDigit c.toNat hlt) (h ▸ by decide)
    rw [readBack_of_lt hlt]
    simp only [List.mem_cons, List.not_mem_nil, or_false, not_or]
    exact ⟨by decide, by decide, Ne.symm hdigit⟩
  · rw [readBack_of_le (Nat.le_of_not_lt hlt), List.mem_singleton]
    exact Ne.symm hc

theorem segments_decoded (link : Bytes) :
    segments (decodeUrl (urlEncode link true)) = (segments link).map (readSegment true) := by
  rw [decodeUrl_urlEncode]
  exact segments_flatMap (by decide) (fun c hc => slash_notMem_readBack hc) link

theorem strip_urlEncode (link : Bytes) :
    stripFragmentAndOrSearchComponent (urlEncode link true) = urlEncode link true := by
  refine strip_of_clean fun x hx => ?_
  have hquery : x ≠ char '?' := by
    rintro rfl
    exact notMem_urlEncode (by decide) (by decide) (by decide) link hx
  have hfragment : x ≠ char '#' := by
    rintro rfl
    exact notMem_urlEncode (by decide) (by decide) (by decide) link hx
  rw [isUrlDelimiter, beq_eq_false_iff_ne.mpr hquery, beq_eq_false_iff_ne.mpr hfragment]
  rfl

theorem takeWhile_urlEncode (link : Bytes) :
    (urlEncode link true).takeWhile (· != char '\'') =
      urlEncode (link.takeWhile (· != char '\'')) true := by
  induction link with
  | nil => rfl
  | cons c link ih =>
      rw [urlEncode_cons]
      by_cases hc : c = char '\''
      · subst hc
        rfl
      · have hfront : ∀ x ∈ if needsEscape c true then char '%' :: hexField c else [c],
            (x != char '\'') = true := by
          intro x hx
          refine bne_iff_ne.mpr ?_
          rintro rfl
          split at hx
          · rcases List.mem_cons.mp hx with hx | hx
            · exact absurd hx (by decide)
            · exact (mem_hexField hx).elim (fun h => absurd h (by decide)) fun h =>
                absurd h (by decide)
          · exact hc (List.mem_singleton.mp hx).symm
        rw [List.takeWhile_append_of_pos hfront, ih,
          List.takeWhile_cons_of_pos (by simpa using hc), urlEncode_cons]

/-- A link with an apostrophe in front is read up to the next one. -/
theorem unquote_urlEncode_apostrophe (rest : Bytes) :
    unquote (urlEncode (char '\'' :: rest) true) =
      urlEncode (rest.takeWhile (· != char '\'')) true := by
  have hcons : urlEncode (char '\'' :: rest) true = char '\'' :: urlEncode rest true :=
    urlEncode_cons ..
  rw [hcons, unquote, if_pos (Or.inr rfl), takeWhile_urlEncode]

theorem unquote_urlEncode {link : Bytes} (h : link.head? ≠ some (char '\'')) :
    unquote (urlEncode link true) = urlEncode link true := by
  have hquote : char '"' ∉ urlEncode link true :=
    notMem_urlEncode (by decide) (by decide) (by decide) link
  cases link with
  | nil => rfl
  | cons c link =>
      cases hurl : urlEncode (c :: link) true with
      | nil => rfl
      | cons x url =>
          rw [hurl] at hquote
          have hx : x ≠ char '"' := fun hx => hquote (hx ▸ List.mem_cons_self)
          refine if_neg (not_or.mpr ⟨hx, ?_⟩)
          rintro rfl
          rw [urlEncode_cons] at hurl
          split at hurl
          · exact absurd (List.cons.inj hurl).1 (by decide)
          · exact h (congrArg some (List.cons.inj hurl).1)

/-- An encoded relative path is a reference without a scheme. -/
theorem followUrl_urlEncode (page : Location Bytes) {c : UInt8} (hc : c ≠ char '/')
    (rest : Bytes) :
    followUrl page (urlEncode (c :: rest) true) =
      some (page.parent.walk
        (((segments (c :: rest)).map (readSegment true)).map segmentMove)) := by
  have hcolon : char ':' ∉ urlEncode (c :: rest) true :=
    notMem_urlEncode (by decide) (by decide) (by decide) _
  rw [followUrl, strip_urlEncode, ← segments_decoded]
  cases hurl : urlEncode (c :: rest) true with
  | nil => exact absurd hurl (urlEncode_ne_nil (List.cons_ne_nil c rest))
  | cons x url =>
      have hx : x ≠ char '/' := by
        rw [urlEncode_cons] at hurl
        split at hurl
        · rw [← (List.cons.inj hurl).1]
          decide
        · rw [← (List.cons.inj hurl).1]
          exact hc
      have hrelative : ¬ (x = char '/' ∨ char ':' ∈ (x :: url).takeWhile (· != char '/')) := by
        rintro (h | h)
        · exact hx h
        · exact hcolon (hurl ▸ (List.takeWhile_prefix _).subset h)
      exact if_neg hrelative

theorem length_le_of_textBehind {marker : Bytes} : ∀ {s t : Bytes},
    textBehind marker s = some t → marker.length ≤ s.length
  | [], t, h => nomatch h
  | c :: s, t, h => by
      rw [textBehind] at h
      split at h
      · next hprefix => exact (List.isPrefixOf_iff_prefix.mp hprefix).length_le
      · exact Nat.le_succ_of_le (length_le_of_textBehind h)

/-- A marker that is found is found first in every longer text. -/
theorem textBehind_append {marker : Bytes} (r : Bytes) : ∀ {s t : Bytes},
    textBehind marker s = some t → textBehind marker (s ++ r) = some (t ++ r)
  | [], t, h => nomatch h
  | c :: s, t, h => by
      rw [textBehind] at h
      rw [List.cons_append, textBehind]
      by_cases hprefix : marker.isPrefixOf (c :: s) = true
      · have hle := (List.isPrefixOf_iff_prefix.mp hprefix).length_le
        have hprefix' : marker.isPrefixOf (c :: (s ++ r)) = true :=
          List.isPrefixOf_iff_prefix.mpr
            ((List.isPrefixOf_iff_prefix.mp hprefix).trans (List.prefix_append (c :: s) r))
        rw [if_pos hprefix] at h
        rw [if_pos hprefix', ← Option.some.inj h, ← List.cons_append,
          List.drop_append_of_le_length hle]
      · have hle := length_le_of_textBehind (if_neg hprefix ▸ h)
        have hprefix' : ¬ marker.isPrefixOf (c :: (s ++ r)) = true := by
          intro hmarker
          refine hprefix (List.isPrefixOf_iff_prefix.mpr ?_)
          exact List.prefix_of_prefix_length_le (List.isPrefixOf_iff_prefix.mp hmarker)
            (List.prefix_append (c :: s) r) (Nat.le_succ_of_le hle)
        rw [if_neg hprefix] at h
        rw [if_neg hprefix']
        exact textBehind_append r h

/-- The page of a redirect up to its reference. -/
def pageStart : Bytes :=
  str "<!DOCTYPE html>" ++ str "<html>" ++ str "<head>" ++
    str "<meta http-equiv=\"Content-Type\" content=\"text/html; charset=utf-8\" />" ++
    str "<meta http-equiv=\"refresh\" content=\"0;url="

/-- And behind the quote that ends the reference. -/
def pageEnd : Bytes := str " />" ++ (str "</head>" ++ (str "<body></body>" ++ str "</html>"))

theorem httpRedirectHtml_eq (link : Bytes) :
    httpRedirectHtml link = pageStart ++ (urlEncode link true ++ char '"' :: pageEnd) := by
  have hquote : str "\" />" = char '"' :: str " />" := rfl
  rw [httpRedirectHtml, ← pageStart, hquote, List.append_assoc, List.append_assoc,
    List.append_assoc, List.append_assoc, List.cons_append, pageEnd]

/-- The reference in the page of a redirect. -/
theorem refreshUrl_httpRedirectHtml (link : Bytes) :
    refreshUrl (httpRedirectHtml link) = some (urlEncode link true) := by
  have hquote : char '"' ∉ urlEncode link true :=
    notMem_urlEncode (by decide) (by decide) (by decide) link
  have hstart : textBehind (str "http-equiv=\"refresh\" content=\"0;url=") pageStart = some [] := by
    decide
  rw [refreshUrl, httpRedirectHtml_eq, textBehind_append _ hstart, Option.map_some,
    List.nil_append, List.takeWhile_append_of_pos]
  · rw [List.takeWhile_cons_of_neg (by decide), List.append_nil]
  · intro x hx
    have hne : x ≠ char '"' := fun heq => hquote (heq ▸ hx)
    exact bne_iff_ne.mpr hne

/-- An encoded text is read back exactly when each of its escapes has two digits.
In the page of a redirect NUL has an escape, too. -/
theorem decodeUrl_urlEncode_iff (path : Bytes) (encodeReserved : Bool) :
    (decodeUrl (urlEncode path encodeReserved) = path ↔
      ∀ c ∈ path, c.toNat < 16 → c = 0 ∧ encodeReserved = false) ∧
    ((refreshUrl (httpRedirectHtml path)).map decodeUrl = some path ↔
      ∀ c ∈ path, 16 ≤ c.toNat) := by
  constructor
  · rw [decodeUrl_urlEncode]
    exact flatMap_readBack_iff
  · rw [refreshUrl_httpRedirectHtml, Option.map_some, Option.some.injEq, decodeUrl_urlEncode]
    exact readBack_eq_self_iff

/-- A newline is not read back. -/
theorem decodeUrl_urlEncode_newline :
    ¬ ∀ (path : Bytes) (encodeReserved : Bool),
      decodeUrl (urlEncode path encodeReserved) = path := by
  intro h
  exact absurd (h [10] true) (by decide)

/-! ## Redirects -/

/-- The names from the output directory to where a link leads to. -/
def linkNames (basePath targetPath : Bytes) (html : Bool) : List Bytes :=
  (dirsOf basePath).take (sharedDirs basePath targetPath) ++
    (ownSegments basePath targetPath).map (readSegment html)

section Call

variable {directory : Bytes} {entry : Entry} {target mimetype : Bytes}

/-- Where the link of a redirect leads to that is read as the path it encodes. -/
theorem walk_link (hplain : PlainPath entry.path) (htarget : PlainPath target)
    (hancestor : ¬ Ancestor target entry.path) (html : Bool) (n : Nat) :
    (locate (directory ++ str "/" ++
        ((splitPath entry.path).1 ++ (truncated (splitPath entry.path).2 n).1))).parent.walk
      (((segments (computeRelativePath entry.path target)).map (readSegment html)).map
        segmentMove) =
      (outputLocation directory).walk ((linkNames entry.path target html).map .down) := by
  have hwalk := walk_relative (outputLocation directory) (dirsOf entry.path)
    (sharedDirs entry.path target) (truncated (splitPath entry.path).2 n).1
    ((ownSegments entry.path target).map (readSegment html))
  rw [locate_place directory hplain, pathMoves_link htarget hancestor, hwalk, linkNames]

/-- The redirects that are dumped as a page. -/
abbrev IsPage (symlinkdump : Bool) (mimetype : Bytes) : Prop :=
  symlinkdump = false ∧ mimetype = str "text/html"

theorem leadsTo_symlink (hdirectory : (0 : UInt8) ∉ directory)
    (hkind : entry.kind = .redirect target mimetype) (hplain : PlainPath entry.path)
    (htarget : PlainPath target) (hnul : (0 : UInt8) ∉ target)
    (hancestor : ¬ Ancestor target entry.path) {symlinkdump : Bool}
    (hpage : ¬ IsPage symlinkdump mimetype) (n : Nat) :
    (outputCall directory symlinkdump entry
        ((splitPath entry.path).1 ++ (truncated (splitPath entry.path).2 n).1)).leadsTo =
      some ((outputLocation directory).walk ((linkNames entry.path target false).map .down)) := by
  obtain ⟨-, -, hnul', -⟩ := pathMoves_truncated entry.path entry.noNul n
  have hlinkNul := notMem_link htarget hancestor (c := 0) (by decide) (by decide) hnul
  rw [outputCall, hkind]
  dsimp only
  rw [cStr_below hdirectory hnul', if_neg hpage, Call.leadsTo, cStr_of_notMem hlinkNul,
    followSymlink_link htarget hancestor, walk_link hplain htarget hancestor]

theorem leadsTo_page (hdirectory : (0 : UInt8) ∉ directory)
    (hkind : entry.kind = .redirect target mimetype) {symlinkdump : Bool}
    (hpage : IsPage symlinkdump mimetype) (n : Nat) :
    (outputCall directory symlinkdump entry
        ((splitPath entry.path).1 ++ (truncated (splitPath entry.path).2 n).1)).leadsTo =
      followUrl (locate (directory ++ str "/" ++
          ((splitPath entry.path).1 ++ (truncated (splitPath entry.path).2 n).1)))
        (unquote (urlEncode (computeRelativePath entry.path target) true)) := by
  obtain ⟨-, -, hnul', -⟩ := pathMoves_truncated entry.path entry.noNul n
  rw [outputCall, hkind]
  dsimp only
  rw [cStr_below hdirectory hnul', if_pos hpage, Call.leadsTo, refreshUrl_httpRedirectHtml,
    Option.bind_some]

theorem leadsTo_page_of_head (hdirectory : (0 : UInt8) ∉ directory)
    (hkind : entry.kind = .redirect target mimetype) (hplain : PlainPath entry.path)
    (htarget : PlainPath target) (hancestor : ¬ Ancestor target entry.path) {symlinkdump : Bool}
    (hpage : IsPage symlinkdump mimetype)
    (hhead : (computeRelativePath entry.path target).head? ≠ some (char '\'')) (n : Nat) :
    (outputCall directory symlinkdump entry
        ((splitPath entry.path).1 ++ (truncated (splitPath entry.path).2 n).1)).leadsTo =
      some ((outputLocation directory).walk ((linkNames entry.path target true).map .down)) := by
  obtain ⟨c, rest, hlink, hc⟩ := exists_link_cons htarget hancestor
  rw [leadsTo_page hdirectory hkind hpage, unquote_urlEncode hhead, hlink, followUrl_urlEncode _ hc,
    ← hlink, walk_link hplain htarget hancestor]

end Call

/-! ## Apostrophes -/

theorem apostrophe_notMem_readSegment {s : Bytes} (h : char '\'' ∉ s) :
    char '\'' ∉ readSegment true s := by
  intro hmem
  obtain ⟨c, hc, hread⟩ := List.mem_flatMap.mp (show char '\'' ∈ s.flatMap (readBack true) from hmem)
  by_cases hlt : c.toNat < 16
  · rw [readBack_of_lt hlt] at hread
    have hdigit := isxdigit_upperHexDigit c.toNat hlt
    simp only [List.mem_cons, List.not_mem_nil, or_false] at hread
    rcases hread with hread | hread | hread
    · exact absurd hread (by decide)
    · exact absurd hread (by decide)
    · rw [← hread] at hdigit
      exact absurd hdigit (by decide)
  · rw [readBack_of_le (Nat.le_of_not_lt hlt), List.mem_singleton] at hread
    exact h (hread ▸ hc)

/-- What is read of a link with an apostrophe in front has none, and leads to no
name below the directory of the page that begins with one. -/
theorem followUrl_apostrophe_ne (page : Location Bytes) (rest name : Bytes) (names : List Bytes) :
    followUrl page (unquote (urlEncode (char '\'' :: rest) true)) ≠
      some (page.parent.walk (((char '\'' :: name) :: names).map .down)) := by
  rw [unquote_urlEncode_apostrophe]
  have hnone : char '\'' ∉ rest.takeWhile (· != char '\'') := fun hmem =>
    absurd (List.mem_takeWhile_imp (p := (· != char '\'')) hmem) (by decide)
  cases hlink : rest.takeWhile (· != char '\'') with
  | nil => exact fun h => nomatch h
  | cons c link =>
      rw [hlink] at hnone
      by_cases hc : c = char '/'
      · subst hc
        have hurl : urlEncode (char '/' :: link) true = char '/' :: urlEncode link true :=
          urlEncode_cons ..
        rw [followUrl, strip_urlEncode, hurl]
        exact fun h => nomatch (if_pos (Or.inl rfl)).symm.trans h
      · rw [followUrl_urlEncode page hc]
        intro h
        have hmoves : ∀ name, Move.down name ∈
            ((segments (c :: link)).map (readSegment true)).map segmentMove →
              char '\'' ∉ name := by
          intro name hname
          obtain ⟨s, hs, hmove⟩ := List.mem_map.mp hname
          obtain ⟨t, ht, rfl⟩ := List.mem_map.mp hs
          rw [segmentMove] at hmove
          split_ifs at hmove
          rw [← Move.down.inj hmove]
          exact apostrophe_notMem_readSegment fun hmem =>
            hnone ((mem_segments_iff (by decide) _).mpr ⟨t, ht, hmem⟩)
        have hdrop := Location.forall_drop_walk hmoves (k := page.parent.names.length)
          (fun name hname => absurd (List.drop_length ▸ hname) List.not_mem_nil)
        rw [Option.some.inj h, Location.walk_downs, List.drop_left] at hdrop
        exact hdrop _ (List.mem_cons_self ..) (List.mem_cons_self ..)

/-- The names to the place of the target. -/
theorem linkNames_eq_iff {basePath targetPath : Bytes}
    (hancestor : ¬ Ancestor targetPath basePath) (html : Bool) (n : Nat) :
    linkNames basePath targetPath html =
        dirsOf targetPath ++ [(truncated (splitPath targetPath).2 n).1] ↔
      (splitPath targetPath).2.length ≤ 255 ∧
        ∀ s ∈ ownSegments basePath targetPath, readSegment html s = s := by
  have hsegments := (splitPath_segments targetPath).1
  have hlt : sharedDirs basePath targetPath < (segments targetPath).length :=
    Nat.lt_of_not_le fun h => ownSegments_ne_nil hancestor (List.drop_eq_nil_iff.mpr h)
  have hle : sharedDirs basePath targetPath ≤ (dirsOf targetPath).length := by
    rw [hsegments, List.length_append] at hlt
    exact Nat.le_of_lt_succ hlt
  have hown : ownSegments basePath targetPath =
      (dirsOf targetPath).drop (sharedDirs basePath targetPath) ++ [(splitPath targetPath).2] := by
    rw [ownSegments, hsegments, List.drop_append_of_le_length hle]
  have hshared : (dirsOf basePath).take (sharedDirs basePath targetPath) =
      (dirsOf targetPath).take (sharedDirs basePath targetPath) := by
    have htake : (dirsOf basePath).take (sharedDirs basePath targetPath) =
        (segments targetPath).take (sharedDirs basePath targetPath) := take_commonLength _ _
    rw [htake, hsegments, List.take_append_of_le_length hle]
  have hdirs : dirsOf targetPath ++ [(truncated (splitPath targetPath).2 n).1] =
      (dirsOf targetPath).take (sharedDirs basePath targetPath) ++
        ((dirsOf targetPath).drop (sharedDirs basePath targetPath) ++
          [(truncated (splitPath targetPath).2 n).1]) := by
    rw [← List.append_assoc, List.take_append_drop]
  rw [linkNames, hshared, hown, ← names_eq_iff (length_le_readSegment html) _ _ n, hdirs]
  exact List.append_right_inj _

/-- The names behind the directory of a redirect when what is there begins with an
apostrophe. -/
theorem exists_names_of_apostrophe {basePath targetPath rest : Bytes}
    (h : targetPath = (splitPath basePath).1 ++ char '\'' :: rest) (n : Nat) :
    ∃ name names, dirsOf targetPath ++ [(truncated (splitPath targetPath).2 n).1] =
      dirsOf basePath ++ (char '\'' :: name) :: names := by
  obtain ⟨s, segs, hsegs⟩ := segments_cons (c := char '\'') (by decide) rest
  have hsegments := (splitPath_segments targetPath).1
  rw [h, segments_dir_append, hsegs, ← h] at hsegments
  rcases List.eq_nil_or_concat' segs with rfl | ⟨segs, last, rfl⟩
  · obtain ⟨hdirs, hfile⟩ := List.append_inj' hsegments rfl
    obtain ⟨name, hname⟩ := truncated_cons (char '\'') s n
    rw [← hdirs, ← List.singleton_inj.mp hfile, hname]
    exact ⟨name, [], rfl⟩
  · rw [← List.cons_append, ← List.append_assoc] at hsegments
    obtain ⟨hdirs, -⟩ := List.append_inj' hsegments rfl
    rw [← hdirs, List.append_assoc, List.cons_append]
    exact ⟨s, _, rfl⟩

section Redirect

variable {fs : FileSystem} {directory : Bytes} {symlinkdump : Bool} {nsfilter : UInt8 → Bool}
  {entries : List Entry} {redirect target : Entry} {mimetype redirectPlace targetPlace : Bytes}

/-- What the page of a redirect asks of the paths: no byte below 16 in what is
written of the target's path, and no apostrophe in front of it. -/
def Readable (redirectPath targetPath : Bytes) : Prop :=
  (∀ s ∈ ownSegments redirectPath targetPath, ∀ c ∈ s, 16 ≤ c.toNat) ∧
    ¬ ∃ rest, targetPath = (splitPath redirectPath).1 ++ char '\'' :: rest

theorem leadsTo_place_iff (hdirectory : (0 : UInt8) ∉ directory)
    (hkind : redirect.kind = .redirect target.path mimetype)
    (hredirect : Placed fs directory symlinkdump nsfilter entries redirect redirectPlace)
    (htarget : Placed fs directory symlinkdump nsfilter entries target targetPlace)
    (hplain : PlainPath redirect.path) (hplain' : PlainPath target.path)
    (hancestor : ¬ Ancestor target.path redirect.path) :
    (outputCall directory symlinkdump redirect redirectPlace).leadsTo =
        some (locate (directory ++ str "/" ++ targetPlace)) ↔
      (splitPath target.path).2.length ≤ 255 ∧
        (IsPage symlinkdump mimetype → Readable redirect.path target.path) := by
  obtain ⟨before, -, -, -, rfl⟩ := hredirect
  obtain ⟨before', -, -, -, rfl⟩ := htarget
  rw [relativePath, relativePath]
  by_cases hpage : IsPage symlinkdump mimetype
  · rw [imp_iff_right hpage, Readable]
    by_cases hhead : (computeRelativePath redirect.path target.path).head? = some (char '\'')
    · -- The reader takes the apostrophe away.
      have hrest := (head?_link_iff hplain' hancestor (by decide) (by decide)).mp hhead
      rw [leadsTo_page hdirectory hkind hpage]
      refine iff_of_false ?_ fun h => h.2.2 hrest
      obtain ⟨rest, hrest⟩ := hrest
      obtain ⟨name, names, hnames⟩ := exists_names_of_apostrophe hrest
        (dumpFiles fs directory symlinkdump nsfilter before').truncatedFiles
      obtain ⟨link, hlink⟩ := List.head?_eq_some_iff.mp hhead
      rw [hlink, locate_place directory hplain', hnames, List.map_append, Location.walk_append,
        ← parent_locate_place directory hplain]
      exact followUrl_apostrophe_ne _ link name names
    · rw [leadsTo_page_of_head hdirectory hkind hplain hplain' hancestor hpage hhead,
        locate_place directory hplain', Option.some_inj, Location.walk_downs_inj,
        linkNames_eq_iff hancestor]
      refine and_congr_right fun _ => ?_
      have hread : (∀ s ∈ ownSegments redirect.path target.path, readSegment true s = s) ↔
          ∀ s ∈ ownSegments redirect.path target.path, ∀ c ∈ s, 16 ≤ c.toNat :=
        forall₂_congr fun s _ => readBack_eq_self_iff
      rw [hread]
      refine (and_iff_left fun hrest => hhead ?_).symm
      exact (head?_link_iff hplain' hancestor (by decide) (by decide)).mpr hrest
  · rw [leadsTo_symlink hdirectory hkind hplain hplain' target.noNul hancestor hpage,
      locate_place directory hplain', Option.some_inj, Location.walk_downs_inj,
      linkNames_eq_iff hancestor]
    exact and_congr_right fun _ => iff_of_true (fun s _ => rfl) fun h => absurd h hpage

/-- For every dump and every redirect in it whose target is in it, the redirect
is written and leads from its place to the place of the target if and only if
the file name of the target has at most 255 bytes and, when the redirect is a
page, no segment of the target behind the directories that both share has a byte
below 16 and what the target's path has behind the directory of the redirect does
not begin with an apostrophe. -/
theorem redirect_leads_iff (hdirectory : (0 : UInt8) ∉ directory)
    (hkind : redirect.kind = .redirect target.path mimetype)
    (hredirect : Placed fs directory symlinkdump nsfilter entries redirect redirectPlace)
    (htarget : Placed fs directory symlinkdump nsfilter entries target targetPlace)
    (hplain : PlainPath redirect.path) (hplain' : PlainPath target.path)
    (hancestor : ¬ Ancestor target.path redirect.path) :
    ((∃ o, (outputCall directory symlinkdump redirect redirectPlace, o) ∈
        (dumpFiles fs directory symlinkdump nsfilter entries).events) ∧
      (outputCall directory symlinkdump redirect redirectPlace).leadsTo =
        some (locate (directory ++ str "/" ++ targetPlace))) ↔
      (splitPath target.path).2.length ≤ 255 ∧
        (IsPage symlinkdump mimetype → Readable redirect.path target.path) := by
  rw [and_iff_right hredirect.exists_call]
  exact leadsTo_place_iff hdirectory hkind hredirect htarget hplain hplain' hancestor

end Redirect

/-- A file system where every call succeeds. -/
def idleFileSystem : FileSystem := fun _ _ => .done

def samplePage : Entry := ⟨str "a/c", .item (str "x"), by decide⟩

def sampleRedirect : Entry := ⟨str "a/b", .redirect (str "a/c") (str "text/html"), by decide⟩

/-- A page and a redirect to it in the same directory. -/
theorem redirect_leads_iff_sample :
    ((∃ o, (outputCall (str "out") false sampleRedirect (str "a/b"), o) ∈
        (dumpFiles idleFileSystem (str "out") false (fun _ => true)
          [samplePage, sampleRedirect]).events) ∧
      (outputCall (str "out") false sampleRedirect (str "a/b")).leadsTo =
        some (locate (str "out" ++ str "/" ++ str "a/c"))) ↔
      (splitPath samplePage.path).2.length ≤ 255 ∧
        (IsPage false (str "text/html") → Readable sampleRedirect.path samplePage.path) :=
  redirect_leads_iff (by decide) rfl
    ⟨[samplePage], [], rfl, by decide, by decide⟩ ⟨[], [sampleRedirect], rfl, by decide, by decide⟩
    (by decide) (by decide) (by decide)

def longName : Bytes := List.replicate 256 (char 'a')

theorem notMem_longName {c : UInt8} (hc : c ≠ char 'a') : c ∉ longName := fun hmem =>
  hc (List.eq_of_mem_replicate hmem)

/-- A page with a file name of 256 bytes. -/
def longPage : Entry := ⟨longName, .item (str "x"), notMem_longName (by decide)⟩

def longRedirect : Entry := ⟨str "b", .redirect longPage.path (str "text/html"), by decide⟩

theorem redirect_misses : ¬ ∀ (fs : FileSystem) (directory : Bytes) (symlinkdump : Bool)
    (nsfilter : UInt8 → Bool) (entries : List Entry) (redirect target : Entry)
    (mimetype redirectPlace targetPlace : Bytes), (0 : UInt8) ∉ directory →
    redirect.kind = .redirect target.path mimetype →
    Placed fs directory symlinkdump nsfilter entries redirect redirectPlace →
    Placed fs directory symlinkdump nsfilter entries target targetPlace →
    PlainPath redirect.path → PlainPath target.path →
    ¬ Ancestor target.path redirect.path → ¬ Ancestor redirect.path target.path →
    (outputCall directory symlinkdump redirect redirectPlace).leadsTo =
      some (locate (directory ++ str "/" ++ targetPlace)) := by
  intro h
  have hredirect : Placed idleFileSystem (str "out") false (fun _ => true)
      [longRedirect, longPage] longRedirect (str "b") :=
    ⟨[], [longPage], rfl, rfl, by decide⟩
  have htarget : Placed idleFileSystem (str "out") false (fun _ => true)
      [longRedirect, longPage] longPage _ :=
    ⟨[longRedirect], [], rfl, rfl, rfl⟩
  have hslash : char '/' ∉ longPage.path := notMem_longName (by decide)
  have hsegments : segments longPage.path = [longName] := segments_of_notMem hslash
  have hlength : longName.length = 256 := List.length_replicate ..
  have hname (s : Bytes) (hs : s.length < 256) : longName ≠ s := by
    rintro rfl
    exact Nat.ne_of_lt hs hlength
  have hplain : PlainPath longPage.path := by
    intro s hs
    rw [hsegments] at hs
    rw [List.mem_singleton.mp hs]
    exact ⟨hname [] (by decide), hname (str ".") (by decide), hname (str "..") (by decide)⟩
  have hancestor : ¬ Ancestor longPage.path longRedirect.path := by
    rw [Ancestor, hsegments]
    exact fun hprefix => absurd hprefix.length_le (by decide)
  have hancestor' : ¬ Ancestor longRedirect.path longPage.path := by
    rw [Ancestor, hsegments]
    exact fun hprefix => absurd hprefix.length_le (by decide)
  have hleads := h _ _ _ _ _ _ _ _ _ _ (by decide) rfl hredirect htarget (by decide) hplain
    hancestor hancestor'
  have hshort := ((leadsTo_place_iff (by decide) rfl hredirect htarget (by decide) hplain
    hancestor).mp hleads).1
  have hfile : (splitPath longPage.path).2 = longName := by
    have hsplit := (splitPath_segments longPage.path).1
    rw [dirsOf, hsegments] at hsplit
    exact (List.singleton_inj.mp hsplit).symm
  rw [hfile, hlength] at hshort
  exact absurd hshort (by decide)

end ZimTools.Zimdump
