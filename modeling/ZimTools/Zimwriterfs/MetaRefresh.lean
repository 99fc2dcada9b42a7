import ZimTools.Std.Captures
import ZimTools.Std.Decimal
import ZimTools.Tools.AbsolutePath
import ZimTools.Tools.HtmlLinks
import ZimTools.Tools.RelativeSegments
import ZimTools.Tools.ReplaceString

/-!
# Redirections in HTML files

A page whose head has a `refresh` becomes a redirect in the archive.
`parseAndAdaptHtml` takes the target out of the head, decodes it, and resolves
it from the path of the page.  It throws when there is no such file.

The query and the fragment of the target are decoded and resolved with it.  The
first `?` or `#` becomes part of a file name, so that the file of the target is
returned only if there is no query and no fragment, or if they have slashes and
lead back to it (`returns_iff`).
-/

namespace ZimTools.Zimwriterfs

open Bytes DotSegments Pattern

/-! ## The tree of a page -/

/-- The tags that are looked for. -/
inductive GumboTag where
  | headTag
  | titleTag
  | metaTag
  | otherTag
deriving DecidableEq

/-- A node of the tree that `gumbo_parse` makes of a page. -/
inductive GumboNode where
  | element (tag : GumboTag) (attributes : List (Bytes × Bytes)) (children : List GumboNode)
  | text (text : Bytes)
  | other

/-- `gumbo_get_attribute`.  The case of the name does not matter. -/
def gumboGetAttribute (attributes : List (Bytes × Bytes)) (name : Bytes) : Option Bytes :=
  (attributes.find? fun a => asciitolower a.1 = asciitolower name).map Prod.snd

/-! ## The target of a refresh -/

/-- A set of characters, without case. -/
def anyOf (cs : Bytes) (c : UInt8) : Bool := cs.any fun d => asciitolower [c] == asciitolower [d]

/-- `.`, any character but a line terminator. -/
def notLineTerminator (c : UInt8) : Bool := c != char '\n' && c != char '\r'

/-- `url *=` -/
def urlRegex : Pattern :=
  .seq (.one (anyOf (str "u"))) (.seq (.one (anyOf (str "r"))) (.seq (.one (anyOf (str "l")))
    (.seq (.many (anyOf (str " "))) (.one (anyOf (str "="))))))

/-- `^\s*([0-9.]+)\s*(?:[;,]\s*(?:url *=)?\s*(["']?)(.*?)\2)?\s*$`, without case. -/
def refreshRegex : Pattern :=
  .seq (.many isSpace) (.seq (.group 1 (some1 (anyOf (str "0123456789."))))
    (.seq (.many isSpace) (.seq
      (.opt (.seq (.one (anyOf (str ";,"))) (.seq (.many isSpace) (.seq (.opt urlRegex)
        (.seq (.many isSpace) (.seq (.group 2 (.opt (.one (anyOf (str "\"'")))))
          (.seq (.group 3 (.few notLineTerminator)) (.backref 2))))))))
      (.many isSpace))))

def extractRedirectUrlFromHtmlHeadValue (refreshValue : Bytes) : Bytes :=
  ((fullMatch refreshRegex refreshValue).bind (· 3)).getD []

/-- What a child of the head does to the target that was found before it. -/
def headChild (url : Bytes) : GumboNode → Except Bytes Bytes
  | .element .metaTag attributes _ =>
      match gumboGetAttribute attributes (str "http-equiv") with
      | none => .ok url
      | some httpEquiv =>
          if httpEquiv ≠ str "refresh" then .ok url
          else
            match gumboGetAttribute attributes (str "content") with
            | none => .ok url
            | some content =>
                let url := extractRedirectUrlFromHtmlHeadValue content
                if url = [] then
                  .error (str "Unable to find the redirect/refresh target URL in the HTML DOM")
                else .ok url
  | _ => .ok url

def extractRedirectUrlFromHtml (headChildren : List GumboNode) : Except Bytes Bytes :=
  headChildren.foldlM headChild []

/-! ## The title -/

/-- `stripTitleInvalidChars`, of the characters U+202A and U+202C in UTF-8. -/
def stripTitleInvalidChars (title : Bytes) : Bytes :=
  replaceStringInPlace (replaceStringInPlace title [0xE2, 0x80, 0xAA] []) [0xE2, 0x80, 0xAC] []

/-- What a child of the head does to the title. -/
def titleChild (title : Bytes) : GumboNode → Bytes
  | .element .titleTag _ [.text text] => stripTitleInvalidChars text
  | _ => title

/-- The title that is made of a file name. -/
def titleOfUrl (url : Bytes) : Bytes :=
  let title :=
    match findLastOf url (str "/") with
    | none => url
    | some found =>
        let title := url.drop (found + 1)
        match findLastOf title (str ".") with
        | none => title
        | some found => title.take found
  title.map fun c => if c = char '_' then char ' ' else c

/-! ## The page -/

/-- What is given of the parser and of the file system. -/
structure Surroundings where
  gumboParse : Bytes → GumboNode
  fileExists : Bytes → Bool

/-- The children of the first `head` of a page, if the root has two children. -/
def headChildren : GumboNode → Option (List GumboNode)
  | .element _ _ children =>
      if children.length ≥ 2 then
        children.findSome? fun
          | .element .headTag _ children => some children
          | _ => none
      else none
  | _ => none

/-- `parseAndAdaptHtml`, with the URL of the redirect and the title. -/
def parseAndAdaptHtml (given : Surroundings) (directoryPath data title url : Bytes) :
    Except Bytes (Bytes × Bytes) :=
  match headChildren (given.gumboParse (cStr data)) with
  | none => .ok ([], title)
  | some headChildren =>
      let title := headChildren.foldl titleChild title
      -- What is thrown here is caught, and its text is written to the log.
      let targetUrl := (extractRedirectUrlFromHtml headChildren).toOption.getD []
      if targetUrl ≠ [] then
        let redirectUrl := computeAbsolutePath url (decodeUrl targetUrl)
        let redirectUrlPath := directoryPath ++ str "/" ++ redirectUrl
        if given.fileExists redirectUrlPath then .ok (redirectUrl, title)
        else
          .error (str "'" ++ url ++ str "' HTML redirection target path '" ++ redirectUrlPath ++
            str "' doesn't exist.")
      else .ok ([], if title = [] then titleOfUrl url else title)

example : [" 0 ; URL=home ", " 22 ,url ='https://www.kiwix.org/' "].map
      (extractRedirectUrlFromHtmlHeadValue ∘ str) = [str "home", str "https://www.kiwix.org/"] := by
  decide

/-! ## Where a relative path leads to -/

/-- Where a decoded relative path leads to from a page. -/
def place (url path : Bytes) : Location Bytes :=
  (⟨true, 0, dirSegments url⟩ : Location Bytes).walk ((segments path).map lastMove)

/-- The path of a place. -/
def placeText (loc : Location Bytes) : Bytes := (withSlash loc.names).dropLast

theorem computeAbsolutePath_eq_placeText (url path : Bytes) :
    computeAbsolutePath url path = placeText (place url path) :=
  computeAbsolutePath_eq_walk url path

theorem place_append (url a b : Bytes) :
    place url (a ++ char '/' :: b) = (place url a).walk ((segments b).map lastMove) := by
  rw [place, segments_append, List.map_append, Location.walk_append, place]

theorem placeText_child (loc : Location Bytes) (name : Bytes) :
    placeText (loc.child name) = withSlash loc.names ++ name :=
  dropLast_withSlash_concat loc.names name

theorem length_withSlash_dropLast_le (names : List Bytes) :
    (withSlash names.dropLast).length ≤ (withSlash names).length := by
  rcases List.eq_nil_or_concat' names with rfl | ⟨names, s, rfl⟩
  · exact Nat.le_refl _
  · rw [List.dropLast_concat, withSlash_concat, List.append_assoc, List.length_append]
    exact Nat.le_add_right ..

/-- No move from a directory leads to a longer text than that of the name. -/
theorem length_placeText_move_le (loc : Location Bytes) (name : Bytes) :
    (placeText (loc.move (lastMove name))).length ≤
      (withSlash loc.names).length + name.length := by
  have hdrop : ∀ names : List Bytes, (withSlash names).dropLast.length ≤ (withSlash names).length :=
    fun names => List.length_dropLast .. ▸ Nat.sub_le ..
  cases hmove : lastMove name with
  | stay => exact Nat.le_trans (hdrop loc.names) (Nat.le_add_right ..)
  | up =>
      refine Nat.le_trans (hdrop _) (Nat.le_trans ?_ (Nat.le_add_right ..))
      rw [Location.move, Location.parent]
      split_ifs
      · exact length_withSlash_dropLast_le loc.names
      · exact Nat.le_refl _
      · exact Nat.le_refl _
  | down t =>
      have ht : t = name := by
        rw [lastMove, innerMove] at hmove
        split_ifs at hmove
        exact (Move.down.inj hmove).symm
      rw [Location.move, placeText_child, List.length_append, ht]

/-! ## Pages with a refresh -/

/-- The file that a relative path without query and fragment leads to. -/
def targetFile (url path : Bytes) : Bytes := placeText (place url (percentDecode path))

/-- A page of the HTML directory with a refresh to a file, and what it is given
with. -/
structure RefreshPage where
  given : Surroundings
  directoryPath : Bytes
  data : Bytes
  title : Bytes
  url : Bytes
  children : List GumboNode
  head : headChildren (given.gumboParse (cStr data)) = some children
  /-- The relative path of the target. -/
  path : Bytes
  /-- Its query and its fragment. -/
  suffix : Bytes
  target : extractRedirectUrlFromHtml children = .ok (path ++ suffix)
  path_ne_nil : path ≠ []
  path_relative : path.head? ≠ some (char '/')
  path_clean : char '?' ∉ path ∧ char '#' ∉ path
  suffix_head : ∀ c ∈ suffix.head?, c = char '?' ∨ c = char '#'
  fileExists : given.fileExists (directoryPath ++ str "/" ++ targetFile url path) = true

namespace RefreshPage

variable (page : RefreshPage)

/-- The file of the target is the redirect of the page. -/
def Returns : Prop :=
  ∃ title, parseAndAdaptHtml page.given page.directoryPath page.data page.title page.url =
    .ok (targetFile page.url page.path, title)

/-- The directory and the name that the path of the target ends in. -/
def directory : Location Bytes :=
  (⟨true, 0, dirSegments page.url⟩ : Location Bytes).walk
    ((segments (percentDecode page.path)).dropLast.map lastMove)

def name : Bytes := (segments (percentDecode page.path)).getLast (segments_ne_nil _)

/-- What is behind the first slash of the suffix leads back to the file of the
target, out of the directory whose name ends in what is in front of it. -/
def LeadsBack : Prop :=
  ∃ s rest, percentDecode page.suffix = s ++ char '/' :: rest ∧ char '/' ∉ s ∧
    placeText ((page.directory.child (page.name ++ s)).walk ((segments rest).map lastMove)) =
      targetFile page.url page.path

theorem suffix_not_digit : ∀ c ∈ page.suffix.head?, isxdigit c = false := by
  intro c hc
  rcases page.suffix_head c hc with rfl | rfl
  · decide
  · decide

/-- The target is decoded and resolved with its suffix. -/
theorem returns_iff_place : page.Returns ↔
    placeText (place page.url (percentDecode page.path ++ percentDecode page.suffix)) =
      targetFile page.url page.path := by
  have hne : page.path ++ page.suffix ≠ [] :=
    List.append_ne_nil_of_left_ne_nil page.path_ne_nil page.suffix
  rw [Returns, parseAndAdaptHtml, page.head]
  simp only [page.target, Except.toOption, Option.getD_some, if_pos hne,
    decodeUrl_eq_percentDecode, computeAbsolutePath_eq_placeText,
    percentDecode_append_of_head page.suffix_not_digit]
  constructor
  · rintro ⟨title, hreturn⟩
    split_ifs at hreturn
    exact (Prod.mk.inj (Except.ok.inj hreturn)).1
  · intro hplace
    rw [hplace, if_pos page.fileExists]
    exact ⟨_, rfl⟩

theorem place_path : place page.url (percentDecode page.path) =
    page.directory.move (lastMove page.name) := by
  have hsegments : segments (percentDecode page.path) =
      (segments (percentDecode page.path)).dropLast ++ [page.name] :=
    (List.dropLast_append_getLast _).symm
  rw [place, hsegments, List.map_append, Location.walk_append]
  rfl

/-- What begins with a `?` or a `#` is no dot behind a name. -/
theorem lastMove_append {name s : Bytes} {c : UInt8} (hc : c = char '?' ∨ c = char '#') :
    lastMove (name ++ c :: s) = .down (name ++ c :: s) := by
  have hmem : c ∈ name ++ c :: s := List.mem_append_right _ (List.mem_cons_self ..)
  have hdots : c ∉ str "." ∧ c ∉ str ".." := by
    rcases hc with rfl | rfl
    · decide
    · decide
  have hnil : name ++ c :: s ≠ [] := List.ne_nil_of_mem hmem
  have hdot : name ++ c :: s ≠ str "." := fun h => hdots.1 (h ▸ hmem)
  have hdotdot : name ++ c :: s ≠ str ".." := fun h => hdots.2 (h ▸ hmem)
  rw [lastMove, innerMove, if_neg hnil, if_neg hdot, if_neg hdotdot]

/-- The first name of the suffix becomes a part of the last one of the path. -/
theorem place_path_append {c : UInt8} {s : Bytes} (hc : c = char '?' ∨ c = char '#')
    (hs : char '/' ∉ c :: s) :
    place page.url (percentDecode page.path ++ c :: s) =
      page.directory.child (page.name ++ c :: s) := by
  rw [place, segments_append_of_notMem hs, List.map_append, Location.walk_append,
    List.map_singleton]
  exact congrArg (Location.move page.directory) (lastMove_append hc)

/-- A longer name in the directory of the target is another file. -/
theorem placeText_child_ne {c : UInt8} {s : Bytes} :
    placeText (page.directory.child (page.name ++ c :: s)) ≠ targetFile page.url page.path := by
  intro heq
  have hle := length_placeText_move_le page.directory page.name
  rw [← place_path, ← targetFile, ← heq, placeText_child, List.length_append, List.length_append,
    List.length_cons] at hle
  omega

/-- The file of the target is returned when there is no query and no fragment,
or when these lead back to it. -/
theorem returns_iff : page.Returns ↔ page.suffix = [] ∨ page.LeadsBack := by
  rw [returns_iff_place]
  cases hsuffix : page.suffix with
  | nil =>
      have hnil : percentDecode [] = [] := rfl
      rw [hnil, List.append_nil]
      exact iff_of_true rfl (.inl rfl)
  | cons c t =>
      have hc : c = char '?' ∨ c = char '#' :=
        page.suffix_head c (hsuffix ▸ rfl)
      have hpercent : c ≠ char '%' := by
        rcases hc with rfl | rfl
        · decide
        · decide
      have hslash : c ≠ char '/' := by
        rcases hc with rfl | rfl
        · decide
        · decide
      have hdecode : percentDecode page.suffix = c :: percentDecode t :=
        hsuffix ▸ percentDecode_cons_of_ne hpercent t
      rw [or_iff_right (List.cons_ne_nil c t), LeadsBack, hdecode, percentDecode_cons_of_ne hpercent]
      have hcons {a : Bytes} (ha : char '/' ∉ a) : char '/' ∉ c :: a :=
        List.not_mem_cons_of_ne_of_not_mem hslash.symm ha
      rcases mem_split (char '/') (percentDecode t) with hnone | ⟨a, b, hab, ha⟩
      · rw [place_path_append page hc (hcons hnone)]
        refine iff_of_false page.placeText_child_ne ?_
        rintro ⟨s, rest, hsplit, -, -⟩
        exact hcons hnone (hsplit ▸ List.mem_append_right s (List.mem_cons_self ..))
      · rw [hab, ← List.cons_append, ← List.append_assoc, place_append,
          place_path_append page hc (hcons ha)]
        constructor
        · exact fun hplace => ⟨c :: a, b, rfl, hcons ha, hplace⟩
        · rintro ⟨s, rest, hsplit, hs, hplace⟩
          obtain ⟨rfl, -, rfl⟩ := append_cons_inj hs (hcons ha) hsplit
          exact hplace

/-- `zimcheck` resolves the path of the target to the same file. -/
theorem targetFile_eq_of_resolveLinkTarget {x : Bytes}
    (hurl : ∀ s ∈ (dirSegments page.url).tail, s ≠ [])
    (hpath : ∀ s ∈ segments (percentDecode page.path), s ≠ [])
    (hname : page.name ≠ str "." ∧ page.name ≠ str "..")
    (hok : resolveLinkTarget page.path page.url = .ok x) :
    targetFile page.url page.path = x :=
  walk_eq_of_resolveLinkTarget hurl page.path_ne_nil page.path_clean.1 page.path_clean.2
    page.path_relative hpath ⟨page.name, List.getLast?_eq_some_getLast _, hname⟩ hok

end RefreshPage

/-- A page that refreshes to a section of another page. -/
theorem returns_fragment :
    let content := str "0;url=b.html#top"
    let data := str "<html><head><meta http-equiv=\"refresh\" content=\"" ++ content ++
      str "\"></head><body></body></html>"
    let children := [GumboNode.element .metaTag
      [(str "http-equiv", str "refresh"), (str "content", content)] []]
    let given : Surroundings :=
      ⟨fun _ => .element .otherTag []
          [.element .headTag [] children, .element .otherTag [] []],
        fun path => path = str "html/b.html"⟩
    let page : RefreshPage := ⟨given, str "html", data, [], str "a.html", children, rfl,
      str "b.html", str "#top", by decide, by decide, by decide, by decide,
      fun c hc => .inr (Option.some.inj hc).symm, by decide⟩
    parseAndAdaptHtml given page.directoryPath page.data page.title page.url =
        .error (str "'a.html' HTML redirection target path 'html/b.html#top' doesn't exist.") ∧
      ¬ page.Returns := by
  intro content data children given page
  have herror : parseAndAdaptHtml given page.directoryPath page.data page.title page.url =
      .error (str "'a.html' HTML redirection target path 'html/b.html#top' doesn't exist.") := by
    decide
  refine ⟨herror, ?_⟩
  rintro ⟨title, hreturn⟩
  cases herror.symm.trans hreturn

end ZimTools.Zimwriterfs
