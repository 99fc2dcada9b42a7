import ZimTools.Zimwriterfs.PackedDump
import ZimTools.Zimwriterfs.RedirectPages

/-!
# Packing redirects that were dumped as pages

Without `--redirect` a redirect to a page is dumped as a page of its own, and
other redirects as links.  `zimwriterfs` makes a redirect of such a page again,
if it takes the file for a page, and if the reference in it is read back
(`packed_pages`).  Otherwise the page is packed as an item, leads elsewhere, or
ends the program.
-/

namespace ZimTools.Zimwriterfs

open Bytes Loop Incremental

/-- The tree of the page of a redirect. -/
def redirectTree (url : Bytes) : GumboNode :=
  .element .otherTag []
    [.element .headTag []
      [.element .metaTag [(str "http-equiv", str "Content-Type"),
          (str "content", str "text/html; charset=utf-8")] [],
        .element .metaTag [(str "http-equiv", str "refresh"),
          (str "content", str "0;url=" ++ url)] []],
      .element .otherTag [] []]

/-- The pages of redirects are parsed, and the files of a dump can be opened. -/
structure ReadsPages (os : Os) (disk : Zimdump.Disk) (directory : Bytes) : Prop where
  gumboParse : ∀ link, os.gumboParse (httpRedirectHtml link) = redirectTree (urlEncode link true)
  fileExists : ∀ names data, disk (Zimdump.place directory names) = some (.file data) →
    os.fileExists (directory ++ namesText names) = true

theorem cStr_httpRedirectHtml (link : Bytes) : cStr (httpRedirectHtml link) = httpRedirectHtml link := by
  refine cStr_of_notMem ?_
  have hlink : (0 : UInt8) ∉ urlEncode link true :=
    notMem_urlEncode (by decide) (by decide) (by decide) link
  rw [Zimdump.httpRedirectHtml_eq, List.mem_append, List.mem_append]
  rintro (hstart | hurl | hend)
  · exact absurd hstart (by decide)
  · exact hlink hurl
  · exact absurd hend (by decide)

theorem headChild_meta (httpEquiv content : Bytes) :
    headChild [] (.element .metaTag [(str "http-equiv", httpEquiv), (str "content", content)] []) =
      if httpEquiv ≠ str "refresh" then .ok []
      else if extractRedirectUrlFromHtmlHeadValue content = [] then
        .error (str "Unable to find the redirect/refresh target URL in the HTML DOM")
      else .ok (extractRedirectUrlFromHtmlHeadValue content) := by
  have hequiv : gumboGetAttribute [(str "http-equiv", httpEquiv), (str "content", content)]
      (str "http-equiv") = some httpEquiv := by
    rw [gumboGetAttribute, List.find?_cons_of_pos (by simp)]
    rfl
  have hcontent : gumboGetAttribute [(str "http-equiv", httpEquiv), (str "content", content)]
      (str "content") = some content := by
    have hother : asciitolower (str "http-equiv") ≠ asciitolower (str "content") := by decide
    rw [gumboGetAttribute, List.find?_cons_of_neg (by simpa using hother),
      List.find?_cons_of_pos (by simp)]
    rfl
  rw [headChild, hequiv, hcontent]

theorem extract_pair {a b : GumboNode} (ha : headChild [] a = .ok []) :
    extractRedirectUrlFromHtml [a, b] = headChild [] b := by
  rw [extractRedirectUrlFromHtml, List.foldlM_cons, ha]
  show List.foldlM headChild [] [b] = _
  rw [List.foldlM_cons]
  exact bind_pure (headChild [] b)

/-- What is read in the head of the page of a redirect. -/
theorem extract_redirectTree (link : Bytes) :
    ∃ children, headChildren (redirectTree (urlEncode link true)) = some children ∧
      children.foldl titleChild [] = [] ∧
      (extractRedirectUrlFromHtml children).toOption.getD [] = readLink link := by
  refine ⟨_, rfl, rfl, ?_⟩
  rw [extract_pair ((headChild_meta _ _).trans (if_pos (by decide))), headChild_meta,
    if_neg (not_not_intro rfl), ← readLink]
  generalize readLink link = target
  by_cases htarget : target = []
  · rw [if_pos htarget, htarget]
    rfl
  · rw [if_neg htarget]
    rfl

theorem namesText_eq {names : List Bytes} (h : names ≠ []) :
    namesText names = char '/' :: leafUrl names := by
  cases names with
  | nil => exact absurd rfl h
  | cons name names => rfl

section Page

variable {os : Os} {creator : ZimCreatorFS} {path target : Bytes}

theorem repackedItem_redirect_iff {data : Bytes} (htarget : target ≠ []) :
    repackedItem os creator path data = some ⟨path, [], .redirect target⟩ ↔
      findString (mimeTypeOf os creator path) (str "text/html") 0 ≠ none ∧
        parseAndAdaptHtml os.toSurroundings creator.directoryPath data [] path =
          .ok (target, []) := by
  rw [repackedItem]
  generalize mimeTypeOf os creator path = mimetype
  by_cases hpage : findString mimetype (str "text/html") 0 ≠ none
  · rw [if_pos hpage, and_iff_right hpage]
    cases parseAndAdaptHtml os.toSurroundings creator.directoryPath data [] path with
    | error message => simp
    | ok result =>
        obtain ⟨redirectUrl, title⟩ := result
        by_cases hurl : redirectUrl = []
        · simp [hurl, htarget.symm]
        · simp [hurl, and_comm]
  · rw [if_neg hpage]
    refine iff_of_false ?_ fun h => hpage h.1
    intro h
    cases h

/-- The page of a redirect is packed as the redirect when it is taken for a page,
and leads to the same file. -/
theorem repackedItem_page_iff {link : Bytes}
    (hparse : os.gumboParse (httpRedirectHtml link) = redirectTree (urlEncode link true))
    (hexists : os.fileExists (creator.directoryPath ++ str "/" ++ target) = true)
    (htarget : target ≠ []) :
    repackedItem os creator path (httpRedirectHtml link) = some ⟨path, [], .redirect target⟩ ↔
      findString (mimeTypeOf os creator path) (str "text/html") 0 ≠ none ∧
        readLink link ≠ [] ∧ computeAbsolutePath path (decodeUrl (readLink link)) = target := by
  obtain ⟨children, hhead, htitle, hextract⟩ := extract_redirectTree link
  rw [repackedItem_redirect_iff htarget, parseAndAdaptHtml, cStr_httpRedirectHtml, hparse, hhead]
  dsimp only
  rw [htitle, hextract]
  refine and_congr_right fun _ => ?_
  generalize readLink link = url
  by_cases hurl : url = []
  · simp [hurl, htarget.symm]
  · rw [if_pos hurl, and_iff_right hurl]
    generalize computeAbsolutePath path (decodeUrl url) = redirectUrl
    constructor
    · intro h
      split at h
      · cases h
        rfl
      · cases h
    · rintro rfl
      rw [if_pos hexists]

/-- The file of a redirect is taken for a page, and the reference in it is read
back. -/
def Kept (os : Os) (creator : ZimCreatorFS) (path target : Bytes) : Prop :=
  findString (mimeTypeOf os creator path) (str "text/html") 0 ≠ none ∧
    (∀ s ∈ ownSegments path target, ∀ c ∈ s, 16 ≤ c.toNat) ∧
    ¬ Quoted (computeRelativePath path target)

theorem kept_iff (hplain : PlainPath target) (hancestor : ¬ Ancestor target path)
    (hparse : ∀ link, os.gumboParse (httpRedirectHtml link) = redirectTree (urlEncode link true))
    (hexists : os.fileExists (creator.directoryPath ++ str "/" ++ target) = true) :
    repackedItem os creator path (httpRedirectHtml (computeRelativePath path target)) =
        some ⟨path, [], .redirect target⟩ ↔ Kept os creator path target := by
  have htarget : target ≠ [] := by
    rintro rfl
    exact (hplain [] (List.mem_singleton_self _)).1 rfl
  rw [repackedItem_page_iff (hparse _) hexists htarget, Kept,
    ← computeAbsolutePath_readLink_iff hplain hancestor]
  refine and_congr_right fun _ => and_iff_right_of_imp fun hread => ?_
  have hquoted := ((computeAbsolutePath_readLink_iff hplain hancestor).mp hread).2
  obtain ⟨c, rest, hlink, -⟩ := Zimdump.exists_link_cons hplain hancestor
  rw [readLink_of_not_quoted hquoted, hlink]
  exact urlEncode_ne_nil (List.cons_ne_nil c rest)

end Page

section Programs

variable {archive : Archive} {watchdog : Nat} {iterEfficient : List Entry}
  {dumped : List Zimdump.Entry} {disk : Zimdump.Disk} {os : Os} {directory : Bytes}
  {base : CanonicalPath} {listing : List (Bytes × DType)} {tree : FileTree Bytes Leaf}

/-- What comes of a redirect to an item. -/
theorem repacked_redirect_iff
    (h : Handed archive watchdog iterEfficient dumped disk os directory base listing tree)
    (hdisk : ∀ names, disk (Zimdump.place directory names) = Zimdump.shown false dumped names)
    (hreads : ReadsPages os disk directory) {path title target path' title' mimetype data : Bytes}
    (hentry : ⟨path, title, .redirect target⟩ ∈ archive.entries)
    (hget : Zimrecreate.getItem archive watchdog ⟨path, title, .redirect target⟩ =
      some ⟨path', title', .item mimetype data⟩) :
    repacked os ⟨directory, base.text⟩ false archive watchdog ⟨path, title, .redirect target⟩ =
        some ⟨path, [], .redirect path'⟩ ↔
      (mimetype = str "text/html" → Kept os ⟨directory, base.text⟩ path path') := by
  obtain ⟨e, he, hdump⟩ := h.exists_dumped hentry
  obtain ⟨e', he', hdump'⟩ := h.exists_dumped (Zimrecreate.mem_of_getItem hentry hget)
  obtain rfl : e.path = path := path_of_dumpedEntry hdump
  obtain rfl : e'.path = path' := path_of_dumpedEntry hdump'
  have hitem : e'.kind = .item data := (Option.some.inj (kind_of_dumpedEntry hdump')).symm
  have hkind := kind_of_dumpedEntry hdump
  rw [dumpedKind] at hkind
  dsimp only at hkind
  rw [hget] at hkind
  have hne : e' ≠ e := by
    rintro rfl
    rw [hitem] at hkind
    cases hkind
  have hplain : PlainPath e'.path := fun s hs => (h.storable e' he' s hs).1
  have hancestor : ¬ Ancestor e'.path e.path := fun hprefix =>
    (h.separate.apart he' he hne).1 ( hprefix.trans (List.dropLast_prefix _))
  have hfile : disk (Zimdump.place directory (segments e'.path)) = some (.file data) := by
    rw [hdisk, Zimdump.shown_of_mem h.nodup he', Zimdump.Entry.node, hitem]
  have hexists := hreads.fileExists _ _ hfile
  rw [namesText_eq (segments_ne_nil _), h.leafUrl_dumped he'] at hexists
  have hpath : directory ++ str "/" ++ e'.path = directory ++ char '/' :: e'.path := by
    rw [List.append_assoc]
    rfl
  rw [repacked]
  dsimp only
  rw [hget]
  dsimp only
  by_cases hpage : mimetype = str "text/html"
  · rw [if_pos ⟨rfl, hpage⟩, kept_iff hplain hancestor hreads.gumboParse (hpath ▸ hexists)]
    exact ⟨fun hkept _ => hkept, fun hkept => hkept hpage⟩
  · rw [if_neg fun h => hpage h.2]
    exact iff_of_true rfl fun h => absurd h hpage

/-- A redirect to an entry of the archive is stored. -/
theorem storedOf_redirect {dangling : Creator.Dangling} {item : Entry}
    (hitem : item ∈ archive.entries) (path : Bytes) :
    storedOf dangling archive ⟨path, [], .redirect item.path⟩ = true := by
  simp [storedOf, Entry.redirectTarget, Archive.hasEntryByPath, Archive.find_of_mem hitem]

end Programs

/-! ## A page of a redirect that is packed -/

/-- A page, and a redirect to it in a directory. -/
def pageArchive : Archive where
  entries := [⟨str "a/r.htm", str "R", .redirect (str "p")⟩,
    ⟨str "p", str "P", .item (str "text/html") (str "x")⟩]
  nodup := by decide
  count_lt := by decide
  metadata := []
  uuid := Zimrecreate.sampleUuid
  mainPath := none

def pageEntries : List Zimdump.Entry :=
  [⟨str "a/r.htm", .redirect (str "p") (str "text/html"), by decide⟩,
    ⟨str "p", .item (str "x"), by decide⟩]

def pageDisk : Zimdump.Disk :=
  (Zimdump.emptyDirectory (str "d")).after (Zimdump.Dump.dumpFiles
    (Zimdump.treeFileSystem (Zimdump.emptyDirectory (str "d"))) (str "d") false (fun _ => true)
    pageEntries).events

/-- The directory of the dump.  What has the reference of a refresh is parsed as
the page of a redirect. -/
def pageOs : Os where
  realpath _ := .error []
  isDirectory _ := false
  gumboParse data :=
    match Zimdump.refreshUrl data with
    | some url => redirectTree url
    | none => .other
  fileExists path := path == str "d/p" || path == str "d/a/r.htm"
  opendir path :=
    if path = str "d" then some [(str "a", .dir), (str "p", .reg)]
    else if path = str "d/a" then some [(str "r.htm", .reg)]
    else none
  stat _ := none
  read path :=
    if path = str "d/p" then some (str "x")
    else if path = str "d/a/r.htm" then some (httpRedirectHtml (str "../p"))
    else none
  magicFile _ := none
  inflateString _ := none
  inflateHtmlFlag := false

def pageTree : FileTree Bytes Leaf :=
  .dir (str "a") (.leaf (str "r.htm") .file .nil) (.leaf (str "p") .file .nil)

theorem lists_page : Lists pageOs (str "d") [(str "a", .dir), (str "p", .reg)] pageTree :=
  .dir (by decide) rfl rfl (.leaf (by decide) rfl .nil) (.leaf (by decide) rfl .nil)

theorem distinct_page : pageTree.Distinct := by
  simp [pageTree, FileTree.Distinct, FileTree.names, str, char]

theorem pageDisk_eq (names : List Bytes) :
    pageDisk (Zimdump.place (str "d") names) = Zimdump.shown false pageEntries names :=
  (Zimdump.dump_leaves serves_dumped (by decide) (by decide) (by decide) _).2 names

theorem link_page : computeRelativePath (str "a/r.htm") (str "p") = str "../p" := by decide

theorem ownSegments_page : ownSegments (str "a/r.htm") (str "p") = [str "p"] := by decide

theorem segments_page : pageEntries.map (fun e => segments e.path) =
    [[str "a", str "r.htm"], [str "p"]] := by decide

theorem pageDisk_leaf {names : List Bytes} {kind : Leaf} :
    leafOf (pageDisk (Zimdump.place (str "d") names)) = some kind ↔
      (names = [str "a", str "r.htm"] ∨ names = [str "p"]) ∧ kind = .file := by
  have hnames : (names = [str "a", str "r.htm"] ∨ names = [str "p"]) ↔
      ∃ e ∈ pageEntries, segments e.path = names := by
    rw [← List.mem_map, segments_page, List.mem_pair]
  have hfile : ∀ e ∈ pageEntries, leafKind false e = .file := by decide
  rw [pageDisk_eq, leafOf_shown_iff (by decide), hnames]
  constructor
  · rintro ⟨e, he, hpath, rfl⟩
    exact ⟨⟨e, he, hpath⟩, hfile e he⟩
  · rintro ⟨⟨e, he, hpath⟩, rfl⟩
    exact ⟨e, he, hpath, hfile e he⟩

theorem pageDisk_file {names : List Bytes} {data : Bytes}
    (h : pageDisk (Zimdump.place (str "d") names) = some (.file data)) :
    names = [str "a", str "r.htm"] ∧ data = httpRedirectHtml (str "../p") ∨
      names = [str "p"] ∧ data = str "x" := by
  have hleaf : leafOf (pageDisk (Zimdump.place (str "d") names)) = some .file := by rw [h]; rfl
  have hnodup : (pageEntries.map Zimdump.Entry.path).Nodup := by decide
  have hsegments := List.cons.inj segments_page
  rw [pageDisk_eq] at h
  rcases (pageDisk_leaf.mp hleaf).1 with rfl | rfl
  · rw [← hsegments.1, Zimdump.shown_of_mem hnodup (List.mem_cons_self ..)] at h
    rw [← link_page]
    cases h
    exact .inl ⟨rfl, rfl⟩
  · rw [← (List.cons.inj hsegments.2).1,
      Zimdump.shown_of_mem hnodup (List.mem_cons_of_mem _ (List.mem_cons_self ..))] at h
    cases h
    exact .inr ⟨rfl, rfl⟩

theorem shows_page : ShowsDisk pageOs pageDisk (str "d") sampleBase
    [(str "a", .dir), (str "p", .reg)] pageTree where
  base_ne_root := List.cons_ne_nil _ _
  opendir := rfl
  lists := lists_page
  distinct := distinct_page
  leaf names kind := by
    rw [pageDisk_leaf, ← FileTree.mem_leaves_iff distinct_page]
    show (names, kind) ∈
      [([str "a", str "r.htm"], Leaf.file), ([str "p"], Leaf.file)] ↔ _
    simp [or_and_right]
  read names data hfile := by
    rcases pageDisk_file hfile with ⟨rfl, rfl⟩ | ⟨rfl, rfl⟩
    · rfl
    · rfl
  realpath names target below data hlink := by
    have hleaf : leafOf (pageDisk (Zimdump.place (str "d") names)) = some .symlink := by
      rw [hlink]
      rfl
    cases (pageDisk_leaf.mp hleaf).2

theorem reads_page : ReadsPages pageOs pageDisk (str "d") where
  gumboParse link := by
    show (match Zimdump.refreshUrl (httpRedirectHtml link) with
      | some url => redirectTree url
      | none => .other) = _
    rw [Zimdump.refreshUrl_httpRedirectHtml]
  fileExists names data hfile := by
    rcases pageDisk_file hfile with ⟨rfl, -⟩ | ⟨rfl, -⟩
    · rfl
    · rfl

end ZimTools.Zimwriterfs
