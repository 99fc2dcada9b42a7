import Mathlib.Data.List.Flatten
import ZimTools.Zimdump.DumpedTree
import ZimTools.Zimwriterfs.MetaRefresh

/-!
# The pages of redirects

`zimdump` writes a page with a refresh for a redirect to a page.  `zimwriterfs`
reads the reference of the refresh back, without a pair of quotes around it.  A
path may begin and end with an apostrophe, which `urlEncode` keeps.

So such a page becomes a redirect to the same path if and only if that path has
no byte below 16 in what is written of it, and what is written is not between
apostrophes (`computeAbsolutePath_readLink_iff`).
-/

namespace ZimTools.Zimwriterfs

open Bytes DotSegments Pattern

/-! ## The reference of a refresh -/

/-- A quote, or nothing. -/
def openingQuote : Pattern := .group 2 (.opt (.one (anyOf (str "\"'"))))

/-- The reference of a refresh up to the end, with the quote that closes it. -/
def closedReference : Pattern :=
  .seq (.seq (.group 3 (.few notLineTerminator)) (.backref 2)) (.many isSpace)

/-- What was captured in front of the reference. -/
def delayCaptures : Captures := Function.update (fun _ => none) 1 (some (str "0"))

/-- What is tried first is to read all behind `url=` as the reference. -/
theorem exec_refreshRegex {url : Bytes} (hurl : ∀ c ∈ url.head?, isSpace c = false) :
    exec (.seq openingQuote closedReference) delayCaptures url <+:
      exec refreshRegex (fun _ => none) (str "0;url=" ++ url) := by
  have hspace {c : UInt8} (s : Bytes) (hc : isSpace c = false) (caps : Captures) :
      exec (.many isSpace) caps (c :: s) = [(c :: s, caps)] := by
    refine exec_many_of_head ?_ caps
    rintro _ ⟨⟩
    exact hc
  have hdelay : exec (.group 1 (some1 (anyOf (str "0123456789.")))) (fun _ => none)
      (char '0' :: char ';' :: (str "url=" ++ url)) =
        [(char ';' :: (str "url=" ++ url), delayCaptures)] := by
    refine exec_group_of_single (s := [char '0']) ?_
    rw [some1]
    refine (exec_seq_of_single (exec_one_cons (by decide) _ _)).trans (exec_many_of_head ?_ _)
    rintro _ ⟨⟩
    decide
  have hname : exec urlRegex delayCaptures (str "url=" ++ url) = [(url, delayCaptures)] := by
    refine (exec_seq_of_single (exec_one_cons (by decide) _ _)).trans ?_
    refine (exec_seq_of_single (exec_one_cons (by decide) _ _)).trans ?_
    refine (exec_seq_of_single (exec_one_cons (by decide) _ _)).trans ?_
    refine (exec_seq_of_single (exec_many_of_head ?_ _)).trans (exec_one_cons (by decide) _ _)
    rintro _ ⟨⟩
    decide
  have hletter : exec (.many isSpace) delayCaptures (str "url=" ++ url) =
      [(str "url=" ++ url, delayCaptures)] := hspace _ (by decide) _
  show _ <+: exec refreshRegex _ (char '0' :: char ';' :: (str "url=" ++ url))
  rw [refreshRegex, exec_seq_of_single (hspace _ (by decide) _), exec_seq_of_single hdelay,
    exec_seq_of_single (hspace _ (by decide) _), exec_opt_seq, exec_seq_seq,
    exec_seq_of_single (exec_one_cons (by decide) _ _), exec_seq_seq, exec_seq_of_single hletter,
    exec_seq_seq, exec_opt_seq, exec_seq_of_single hname, exec_seq_seq,
    exec_seq_of_single (exec_many_of_head hurl _), exec_seq_seq, List.append_assoc]
  exact List.prefix_append ..

/-- A text that neither begins nor ends with a space, on one line. -/
structure Trimmed (url : Bytes) : Prop where
  head : ∀ c ∈ url.head?, isSpace c = false
  last : ∀ c ∈ url.getLast?, isSpace c = false
  line : ∀ c ∈ url, notLineTerminator c = true

theorem matches_closedReference_iff {caps caps' : Captures} {s quote : Bytes}
    (hquote : caps 2 = some quote) (hlast : ∀ c ∈ s.getLast?, isSpace c = false)
    (hline : ∀ c ∈ s, notLineTerminator c = true) :
    Matches closedReference caps s caps' ↔
      ∃ url, s = url ++ quote ∧ caps' = Function.update caps 3 (some url) := by
  constructor
  · intro h
    cases h with
    | @seq _ _ closed spaces _ mid _ hclosed hspaces =>
        obtain ⟨rfl, hall⟩ := Matches.many_iff.mp hspaces
        obtain rfl : spaces = [] := by
          rcases List.eq_nil_or_concat' spaces with hnil | ⟨front, c, rfl⟩
          · exact hnil
          · have hc := hall c (List.mem_append_right _ (List.mem_singleton_self c))
            rw [hlast c (by simp)] at hc
            cases hc
        cases hclosed with
        | @seq _ _ url quote' _ mid' _ hurl hback =>
            cases hurl with
            | group hfew =>
                obtain ⟨rfl, -⟩ := Matches.few_iff.mp hfew
                cases hback with
                | backref hback =>
                    rw [Function.update_of_ne (by decide), hquote] at hback
                    cases hback
                    exact ⟨url, List.append_nil _, rfl⟩
  · rintro ⟨url, rfl, rfl⟩
    have hurl : ∀ c ∈ url, notLineTerminator c = true := fun c hc =>
      hline c (List.mem_append_left _ hc)
    have hback : Function.update caps 3 (some url) 2 = some quote := by
      rwa [Function.update_of_ne (by decide)]
    rw [← List.append_nil (url ++ quote)]
    exact .seq (.seq (.group (.few hurl)) (.backref hback)) (.many (List.forall_mem_nil _))

theorem exec_openingQuote_cons {c : UInt8} (hc : anyOf (str "\"'") c = true) (caps : Captures)
    (s : Bytes) : exec openingQuote caps (c :: s) =
      [(s, Function.update caps 2 (some [c])), (c :: s, Function.update caps 2 (some []))] := by
  rw [openingQuote, exec, exec, exec_one_cons hc]
  simp

theorem exec_openingQuote_of_head {s : Bytes}
    (h : ∀ c ∈ s.head?, anyOf (str "\"'") c = false) (caps : Captures) :
    exec openingQuote caps s = [(s, Function.update caps 2 (some []))] := by
  have hone : exec (.one (anyOf (str "\"'"))) caps s = [] := by
    cases s with
    | nil => rfl
    | cons c s => exact if_neg (Bool.eq_false_iff.mp (h c rfl))
  rw [openingQuote, exec, exec, hone]
  simp

theorem firstMatch_closedReference {caps : Captures} {url : Bytes} (h : Trimmed url) :
    firstMatch (exec closedReference (Function.update caps 2 (some [])) url) =
      some (Function.update (Function.update caps 2 (some [])) 3 (some url)) := by
  have hquote : Function.update caps 2 (some []) 2 = some [] := Function.update_self ..
  have hiff (caps' : Captures) : Matches closedReference _ url caps' ↔ _ :=
    matches_closedReference_iff hquote h.last h.line
  cases hfirst : firstMatch (exec closedReference (Function.update caps 2 (some [])) url) with
  | none =>
      exact absurd ((hiff _).mpr ⟨url, (List.append_nil url).symm, rfl⟩)
        (firstMatch_eq_none_iff.mp hfirst _)
  | some caps' =>
      obtain ⟨url', hurl, rfl⟩ := (hiff _).mp (.of_firstMatch hfirst)
      rw [hurl, List.append_nil]

/-- What the reference is captured as when the quotes in front of it are tried. -/
theorem firstMatch_quoted {c : UInt8} {url : Bytes} (hc : anyOf (str "\"'") c = true)
    (h : Trimmed (c :: url)) (caps : Captures) :
    (firstMatch (exec (.seq openingQuote closedReference) caps (c :: url))).bind (· 3) =
      if url.getLast? = some c then some url.dropLast else some (c :: url) := by
  have hquote : Function.update caps 2 (some [c]) 2 = some [c] := Function.update_self ..
  have hlast : ∀ x ∈ url.getLast?, isSpace x = false := by
    intro x hx
    refine h.last x ?_
    rw [List.getLast?_cons, Option.mem_def.mp hx]
    rfl
  have hiff (caps' : Captures) : Matches closedReference _ url caps' ↔ _ :=
    matches_closedReference_iff hquote hlast fun x hx => h.line x (List.mem_cons_of_mem c hx)
  rw [exec, exec_openingQuote_cons hc, List.flatMap_cons, List.flatMap_singleton, firstMatch_append,
    firstMatch_closedReference h]
  cases hfirst : firstMatch (exec closedReference (Function.update caps 2 (some [c])) url) with
  | none =>
      rw [if_neg]
      · simp
      · intro hclosed
        obtain ⟨inner, rfl⟩ := List.getLast?_eq_some_iff.mp hclosed
        exact firstMatch_eq_none_iff.mp hfirst _ ((hiff _).mpr ⟨inner, rfl, rfl⟩)
  | some caps' =>
      obtain ⟨inner, rfl, rfl⟩ := (hiff _).mp (.of_firstMatch hfirst)
      rw [if_pos List.getLast?_concat, List.dropLast_concat]
      simp

/-- A text without a pair of quotes around it. -/
def unquoted : Bytes → Bytes
  | [] => []
  | c :: rest =>
      if anyOf (str "\"'") c = true ∧ rest.getLast? = some c then rest.dropLast else c :: rest

/-- The reference of a refresh is read without a pair of quotes around it. -/
theorem extract_refresh {url : Bytes} (h : Trimmed url) :
    extractRedirectUrlFromHtmlHeadValue (str "0;url=" ++ url) = unquoted url := by
  obtain ⟨later, hexec⟩ := exec_refreshRegex h.head
  have hread {s : Bytes} (hfirst : (firstMatch (exec (.seq openingQuote closedReference)
      delayCaptures url)).bind (· 3) = some s) :
      extractRedirectUrlFromHtmlHeadValue (str "0;url=" ++ url) = s := by
    obtain ⟨caps, hcaps, hs⟩ := Option.bind_eq_some_iff.mp hfirst
    have hfull : fullMatch refreshRegex (str "0;url=" ++ url) = some caps := by
      show firstMatch (exec refreshRegex _ _) = _
      rw [← hexec, firstMatch_append, hcaps]
      rfl
    rw [extractRedirectUrlFromHtmlHeadValue, hfull, Option.bind_some, hs]
    rfl
  have hplain (hhead : ∀ c ∈ url.head?, anyOf (str "\"'") c = false) :
      extractRedirectUrlFromHtmlHeadValue (str "0;url=" ++ url) = url := by
    refine hread ?_
    rw [exec_seq_of_single (exec_openingQuote_of_head hhead _), firstMatch_closedReference h]
    simp
  cases url with
  | nil =>
      refine hplain ?_
      rintro _ ⟨⟩
  | cons c rest =>
      rw [unquoted]
      cases hc : anyOf (str "\"'") c with
      | false =>
          rw [if_neg fun hquoted => Bool.false_ne_true hquoted.1]
          refine hplain ?_
          rintro _ ⟨⟩
          exact hc
      | true =>
          refine hread ?_
          rw [firstMatch_quoted hc h]
          by_cases hlast : rest.getLast? = some c
          · rw [if_pos hlast, if_pos ⟨rfl, hlast⟩]
          · rw [if_neg hlast, if_neg fun hquoted => hlast hquoted.2]

/-! ## The reference in the page of a redirect -/

theorem isSpace_of_needsEscape {c : UInt8} (h : needsEscape c true = false) :
    isSpace c = false := by
  have hlow : ¬ c.toNat < 16 := fun hc => by simp [(needsEscape_of_lt hc true).mpr] at h
  have hspace : c ≠ 32 := by
    rintro rfl
    exact absurd h (by decide)
  have hcontrol : ¬ c ≤ 13 := fun hc => hlow (Nat.lt_of_le_of_lt (UInt8.le_iff_toNat_le.mp hc) (by decide))
  simp [isSpace, hspace, hcontrol]

theorem urlEncode_concat (s : Bytes) (c : UInt8) :
    urlEncode (s ++ [c]) true =
      urlEncode s true ++ if needsEscape c true then char '%' :: hexField c else [c] := by
  rw [urlEncode, List.flatMap_append, List.flatMap_singleton]
  rfl

theorem getLast?_escape (s : Bytes) (c : UInt8) :
    ∃ n < 16, (s ++ char '%' :: hexField c).getLast? = some (upperHexDigit n) := by
  rw [hexField]
  split_ifs with hc
  · exact ⟨c.toNat, hc, by simp⟩
  · exact ⟨c.toNat % 16, Nat.mod_lt _ (by decide), by simp⟩

theorem trimmed_urlEncode (link : Bytes) : Trimmed (urlEncode link true) where
  head c hc := by
    cases link with
    | nil => cases hc
    | cons d rest =>
        rw [urlEncode_cons] at hc
        split at hc
        · cases hc
          decide
        · next hescape =>
            cases hc
            exact isSpace_of_needsEscape (Bool.eq_false_iff.mpr hescape)
  last c hc := by
    rcases List.eq_nil_or_concat' link with rfl | ⟨front, d, rfl⟩
    · cases hc
    · rw [urlEncode_concat] at hc
      split at hc
      · obtain ⟨n, hn, hlast⟩ := getLast?_escape (urlEncode front true) d
        cases hlast.symm.trans hc
        exact isSpace_of_needsEscape (needsEscape_upperHexDigit n hn)
      · next hescape =>
          rw [List.getLast?_concat] at hc
          cases hc
          exact isSpace_of_needsEscape (Bool.eq_false_iff.mpr hescape)
  line c hc := by
    have hnewline : char '\n' ∉ urlEncode link true :=
      notMem_urlEncode (by decide) (by decide) (by decide) link
    have hreturn : char '\r' ∉ urlEncode link true :=
      notMem_urlEncode (by decide) (by decide) (by decide) link
    rw [notLineTerminator, Bool.and_eq_true, bne_iff_ne, bne_iff_ne]
    exact ⟨fun h => hnewline (h ▸ hc), fun h => hreturn (h ▸ hc)⟩

/-- A text between two apostrophes. -/
def Quoted (s : Bytes) : Prop := ∃ inner, s = char '\'' :: (inner ++ [char '\''])

theorem quote_cases {c : UInt8} (h : anyOf (str "\"'") c = true) :
    c = char '"' ∨ c = char '\'' := by
  have hupper : ∀ d : UInt8, d.toNat < 97 → char 'A' ≤ c ∧ c ≤ char 'Z' → c + 32 ≠ d := by
    rintro d hd ⟨hlow, hhigh⟩ rfl
    have hlow' : 65 ≤ c.toNat := UInt8.le_iff_toNat_le.mp hlow
    have hhigh' : c.toNat ≤ 90 := UInt8.le_iff_toNat_le.mp hhigh
    rw [UInt8.toNat_add] at hd
    have hsum : (c.toNat + (32 : UInt8).toNat) % 2 ^ 8 = c.toNat + 32 := Nat.mod_eq_of_lt (by
      show c.toNat + 32 < 256
      omega)
    omega
  have hsame : ∀ d : UInt8, d.toNat < 65 → asciitolower [c] = asciitolower [d] → c = d := by
    intro d hd hlower
    have hd' : ¬ (char 'A' ≤ d ∧ d ≤ char 'Z') := fun hletter =>
      Nat.not_lt_of_le (UInt8.le_iff_toNat_le.mp hletter.1) hd
    simp only [asciitolower, List.map_singleton, if_neg hd', List.singleton_inj] at hlower
    split at hlower
    · next hletter => exact absurd hlower (hupper d (by omega) hletter)
    · exact hlower
  rw [anyOf, List.any_eq_true] at h
  obtain ⟨d, hd, hlower⟩ := h
  rcases List.mem_pair.mp hd with rfl | rfl
  · exact .inl (hsame _ (by decide) (eq_of_beq hlower))
  · exact .inr (hsame _ (by decide) (eq_of_beq hlower))

theorem getLast?_urlEncode_iff {s : Bytes} :
    (urlEncode s true).getLast? = some (char '\'') ↔ s.getLast? = some (char '\'') := by
  rcases List.eq_nil_or_concat' s with rfl | ⟨front, c, rfl⟩
  · rfl
  · rw [urlEncode_concat, List.getLast?_concat]
    split
    · next hescape =>
        obtain ⟨n, hn, hlast⟩ := getLast?_escape (urlEncode front true) c
        rw [hlast]
        refine iff_of_false ?_ ?_
        · intro h
          have hdigit := isxdigit_upperHexDigit n hn
          rw [Option.some.inj h] at hdigit
          exact absurd hdigit (by decide)
        · intro h
          rw [Option.some.inj h] at hescape
          exact absurd hescape (by decide)
    · rw [List.getLast?_concat]

/-- What is read of the reference in the page of a redirect. -/
def readLink (link : Bytes) : Bytes :=
  extractRedirectUrlFromHtmlHeadValue (str "0;url=" ++ urlEncode link true)

theorem readLink_quoted (inner : Bytes) :
    readLink (char '\'' :: (inner ++ [char '\''])) = urlEncode inner true := by
  have hurl : urlEncode (char '\'' :: (inner ++ [char '\''])) true =
      char '\'' :: (urlEncode inner true ++ [char '\'']) := by
    rw [urlEncode_cons, urlEncode_concat]
    rfl
  have htrimmed := trimmed_urlEncode (char '\'' :: (inner ++ [char '\'']))
  rw [readLink, extract_refresh htrimmed, hurl, unquoted,
    if_pos ⟨by decide, List.getLast?_concat⟩, List.dropLast_concat]

theorem readLink_of_not_quoted {link : Bytes} (h : ¬ Quoted link) :
    readLink link = urlEncode link true := by
  have htrimmed := trimmed_urlEncode link
  rw [readLink, extract_refresh htrimmed]
  cases link with
  | nil => rfl
  | cons c rest =>
      cases hescape : needsEscape c true with
      | true =>
          have hurl : urlEncode (c :: rest) true =
              char '%' :: (hexField c ++ urlEncode rest true) := by
            rw [urlEncode_cons, hescape]
            rfl
          rw [hurl, unquoted, if_neg fun hquote => absurd hquote.1 (by decide)]
      | false =>
          have hurl : urlEncode (c :: rest) true = c :: urlEncode rest true := by
            rw [urlEncode_cons, hescape]
            rfl
          rw [hurl, unquoted, if_neg]
          rintro ⟨hquote, hlast⟩
          rcases quote_cases hquote with rfl | rfl
          · exact absurd hescape (by decide)
          · obtain ⟨inner, rfl⟩ := List.getLast?_eq_some_iff.mp (getLast?_urlEncode_iff.mp hlast)
            exact h ⟨inner, rfl⟩

/-! ## Where the reference leads to -/

theorem lastMove_eq_segmentMove (s : Bytes) : lastMove s = Zimdump.segmentMove s := by
  rw [lastMove, innerMove, Zimdump.segmentMove]
  by_cases hnil : s = []
  · rw [if_pos hnil, if_pos (.inl hnil)]
  · simp only [hnil, if_false, false_or]

theorem text_of_segments {names : List Bytes} {path : Bytes} (h : names = segments path) :
    (withSlash names).dropLast = path := by
  rw [h, withSlash_segments]
  exact List.dropLast_concat

theorem text_eq_iff {names : List Bytes} (hne : names ≠ []) (hnames : ∀ s ∈ names, char '/' ∉ s)
    {path : Bytes} : (withSlash names).dropLast = path ↔ names = segments path := by
  refine ⟨fun h => ?_, text_of_segments⟩
  obtain ⟨dir, s, rfl⟩ := (List.eq_nil_or_concat' names).resolve_left hne
  have hjoin : withSlash (dir ++ [s]) = path ++ str "/" := by
    rw [← h, dropLast_withSlash_concat, withSlash_concat]
  have hsegments := congrArg segments hjoin
  have hsplit : segments (path ++ str "/") = segments path ++ [[]] := segments_append path []
  rw [Zimdump.segments_withSlash hnames, hsplit] at hsegments
  exact List.append_cancel_right hsegments

/-- What is met on a walk comes from its start and from the names on it. -/
theorem count_walk_le (c : UInt8) (segs : List Bytes) (loc : Location Bytes) :
    (withSlash (loc.walk (segs.map lastMove)).names).count c ≤
      (withSlash loc.names).count c + (withSlash segs).count c := by
  induction segs generalizing loc with
  | nil => exact Nat.le_add_right ..
  | cons s segs ih =>
      have hmove : (withSlash (loc.move (lastMove s)).names).count c ≤
          (withSlash loc.names).count c + (s ++ str "/").count c := by
        cases hs : lastMove s with
        | stay => exact Nat.le_add_right ..
        | up =>
            refine Nat.le_trans ?_ (Nat.le_add_right ..)
            rw [Location.move, Location.parent]
            split_ifs
            · exact ((List.dropLast_sublist loc.names).flatMap _).count_le c
            · exact Nat.le_refl _
            · exact Nat.le_refl _
        | down t =>
            have ht : t = s := by
              rw [lastMove, innerMove] at hs
              split_ifs at hs
              exact (Move.down.inj hs).symm
            rw [Location.move, Location.child, withSlash_append, withSlash_single, List.count_append,
              ht]
      have hwalk := ih (loc.move (lastMove s))
      have hcons : (withSlash (s :: segs)).count c =
          (s ++ str "/").count c + (withSlash segs).count c := List.count_append
      rw [List.map_cons, hcons]
      exact Nat.le_trans hwalk (by omega)

theorem count_computeAbsolutePath_le {c : UInt8} (hc : c ≠ char '/') (url path : Bytes) :
    (computeAbsolutePath url path).count c ≤
      (withSlash (dirSegments url)).count c + path.count c := by
  have hslash : (withSlash (segments path)).count c = path.count c := by
    have hnone : (str "/").count c = 0 :=
      List.count_eq_zero.mpr fun h => hc (List.mem_singleton.mp h)
    rw [withSlash_segments, List.count_append, hnone, Nat.add_zero]
  rw [computeAbsolutePath_eq_placeText, placeText, place]
  refine Nat.le_trans ((List.dropLast_sublist _).count_le c) ?_
  exact Nat.le_trans (count_walk_le c (segments path) _) (Nat.le_of_eq (congrArg _ hslash))

theorem count_readBack (s : Bytes) :
    (s.flatMap (readBack true)).count (char '\'') = s.count (char '\'') := by
  induction s with
  | nil => rfl
  | cons c s ih =>
      have hread : (readBack true c).count (char '\'') = [c].count (char '\'') := by
        by_cases hlt : c.toNat < 16
        · have hdigit : upperHexDigit c.toNat ≠ char '\'' := by
            intro h
            exact absurd (isxdigit_upperHexDigit c.toNat hlt) (h ▸ by decide)
          have hc : c ≠ char '\'' := by
            rintro rfl
            exact absurd hlt (by decide)
          rw [readBack_of_lt hlt, List.count_eq_zero.mpr, List.count_eq_zero.mpr]
          · exact fun h => hc (List.mem_singleton.mp h).symm
          · simp only [List.mem_cons, List.not_mem_nil, or_false, not_or]
            exact ⟨by decide, by decide, Ne.symm hdigit⟩
        · rw [readBack_of_le (Nat.le_of_not_lt hlt)]
      rw [List.flatMap_cons, List.count_append, ih, hread, ← List.count_append,
        List.singleton_append]

section Link

variable {basePath targetPath : Bytes} (htarget : PlainPath targetPath)
  (hancestor : ¬ Ancestor targetPath basePath)

include htarget hancestor

/-- The whole reference leads to the names that `zimdump` has encoded. -/
theorem computeAbsolutePath_link :
    computeAbsolutePath basePath
        (decodeUrl (urlEncode (computeRelativePath basePath targetPath) true)) =
      (withSlash (Zimdump.linkNames basePath targetPath true)).dropLast := by
  have hmoves : (segments (decodeUrl (urlEncode (computeRelativePath basePath targetPath) true))).map
      lastMove = List.replicate ((Zimdump.dirsOf basePath).length - sharedDirs basePath targetPath) .up ++
        ((ownSegments basePath targetPath).map (Zimdump.readSegment true)).map .down := by
    rw [Zimdump.segments_decoded, ← Zimdump.pathMoves_link htarget hancestor true]
    exact List.map_congr_left fun s _ => lastMove_eq_segmentMove s
  have hwalk := Zimdump.walk_relative ⟨true, 0, []⟩ (Zimdump.dirsOf basePath)
    (sharedDirs basePath targetPath) [] ((ownSegments basePath targetPath).map
      (Zimdump.readSegment true))
  have hparent : ((⟨true, 0, []⟩ : Location Bytes).walk
      ((Zimdump.dirsOf basePath ++ [[]]).map .down)).parent = ⟨true, 0, dirSegments basePath⟩ := by
    have hdirs : (⟨true, 0, []⟩ : Location Bytes).walk ((Zimdump.dirsOf basePath).map .down) =
        ⟨true, 0, dirSegments basePath⟩ := Location.walk_downs ..
    rw [List.map_append, Location.walk_append, hdirs]
    exact Location.parent_child _ []
  rw [hparent] at hwalk
  rw [computeAbsolutePath_eq_placeText, placeText, place, hmoves, hwalk, Location.walk_downs]
  rfl

omit htarget hancestor in
/-- The segments of the target are those that are shared and those of the link. -/
theorem segments_target (basePath targetPath : Bytes) : segments targetPath =
    (Zimdump.dirsOf basePath).take (sharedDirs basePath targetPath) ++
      ownSegments basePath targetPath := by
  have htake : (Zimdump.dirsOf basePath).take (sharedDirs basePath targetPath) =
      (segments targetPath).take (sharedDirs basePath targetPath) := take_commonLength _ _
  rw [htake, ownSegments, List.take_append_drop]

omit htarget hancestor in
theorem slash_notMem_linkNames {s : Bytes}
    (hs : s ∈ Zimdump.linkNames basePath targetPath true) : char '/' ∉ s := by
  rcases List.mem_append.mp hs with hs | hs
  · exact notMem_of_mem_splitOn (List.dropLast_subset _ (List.mem_of_mem_take hs))
  · obtain ⟨t, ht, rfl⟩ := List.mem_map.mp hs
    have hslash : char '/' ∉ t := notMem_of_mem_splitOn (List.mem_of_mem_drop ht)
    intro hmem
    obtain ⟨c, hc, hread⟩ := List.mem_flatMap.mp (hmem : char '/' ∈ t.flatMap (readBack true))
    exact Zimdump.slash_notMem_readBack (fun heq => hslash (heq ▸ hc)) hread

/-- The whole reference leads to the target unless a byte of it is not read back. -/
theorem computeAbsolutePath_link_iff :
    computeAbsolutePath basePath
        (decodeUrl (urlEncode (computeRelativePath basePath targetPath) true)) = targetPath ↔
      ∀ s ∈ ownSegments basePath targetPath, ∀ c ∈ s, 16 ≤ c.toNat := by
  have hne : Zimdump.linkNames basePath targetPath true ≠ [] :=
    List.append_ne_nil_of_right_ne_nil _ fun hnil =>
      ownSegments_ne_nil hancestor (List.map_eq_nil_iff.mp hnil)
  have hself : (ownSegments basePath targetPath).map (Zimdump.readSegment true) =
      ownSegments basePath targetPath ↔
        ∀ s ∈ ownSegments basePath targetPath, Zimdump.readSegment true s = s := by
    rw [← List.map_inj_left, List.map_id']
  rw [computeAbsolutePath_link htarget hancestor,
    text_eq_iff hne fun s hs => slash_notMem_linkNames hs,
    segments_target, Zimdump.linkNames, List.append_right_inj, hself]
  exact forall₂_congr fun s _ => readBack_eq_self_iff

/-- A link that does not go up is what follows the directory in the target. -/
theorem target_of_quoted (hquoted : Quoted (computeRelativePath basePath targetPath)) :
    targetPath = withSlash (dirSegments basePath) ++ computeRelativePath basePath targetPath := by
  obtain ⟨inner, hinner⟩ := hquoted
  have hsegments := segments_computeRelativePath htarget hancestor
  have htext := withSlash_segments (computeRelativePath basePath targetPath)
  obtain ⟨k, hk⟩ : ∃ k, (segments basePath).length - 1 - sharedDirs basePath targetPath = k := ⟨_, rfl⟩
  rw [hk] at hsegments
  cases k with
  | succ k =>
      rw [hsegments, List.replicate_succ, hinner] at htext
      have hhead : some (char '.') = some (char '\'') := congrArg List.head? htext
      exact absurd hhead (by decide)
  | zero =>
      rw [List.replicate_zero, List.nil_append] at hsegments
      have hall : (Zimdump.dirsOf basePath).take (sharedDirs basePath targetPath) =
          dirSegments basePath := by
        refine List.take_of_length_le ?_
        rw [Zimdump.dirsOf, List.length_dropLast]
        omega
      have hjoin := congrArg withSlash (segments_target basePath targetPath)
      rw [withSlash_segments, hall, withSlash_append, ← hsegments, htext, ← List.append_assoc] at hjoin
      exact List.append_cancel_right hjoin

/-- Without the apostrophes around it the reference leads elsewhere. -/
theorem quoted_misses (hquoted : Quoted (computeRelativePath basePath targetPath)) :
    computeAbsolutePath basePath
      (decodeUrl (readLink (computeRelativePath basePath targetPath))) ≠ targetPath := by
  intro hsame
  have htext := target_of_quoted htarget hancestor hquoted
  obtain ⟨inner, hinner⟩ := hquoted
  have hle := count_computeAbsolutePath_le (c := char '\'') (by decide) basePath
    (decodeUrl (readLink (computeRelativePath basePath targetPath)))
  rw [hsame, hinner, readLink_quoted, decodeUrl_urlEncode, count_readBack] at hle
  have hcount := congrArg (List.count (char '\'')) htext
  rw [hinner, List.count_append, List.count_cons_self, List.count_append, List.count_singleton_self]
    at hcount
  omega

/-- The page of a redirect is read as leading to its target exactly when no byte
of the link behind the shared directories is below 16, and the link is not
between apostrophes. -/
theorem computeAbsolutePath_readLink_iff :
    computeAbsolutePath basePath
        (decodeUrl (readLink (computeRelativePath basePath targetPath))) = targetPath ↔
      (∀ s ∈ ownSegments basePath targetPath, ∀ c ∈ s, 16 ≤ c.toNat) ∧
        ¬ Quoted (computeRelativePath basePath targetPath) := by
  by_cases hquoted : Quoted (computeRelativePath basePath targetPath)
  · exact iff_of_false (quoted_misses htarget hancestor hquoted) fun h => h.2 hquoted
  · rw [readLink_of_not_quoted hquoted, computeAbsolutePath_link_iff htarget hancestor,
      and_iff_left hquoted]

end Link

end ZimTools.Zimwriterfs
