import ZimTools.Incremental.Archive
import ZimTools.Lib.FileTree
import ZimTools.Zimwriterfs.HtmlDirectory
import ZimTools.Zimwriterfs.MetaRefresh

/-!
# The files of a directory

`visitDirectory` of `zimwriterfs` goes through a directory and gives the creator
an item for each file, or a redirect if the file is a page that is one, and a
redirect for each symbolic link to a file.  The MIME type of a file follows from
its name, or is looked up once for each name.

What the operating system shows of a directory is a tree (`Lists`), and the run
is a walk over its leaves (`visit_eq`).  It packs each of them once, under the
names on the path to it (`visitDirectory_packs`), but a library that discards
dangling redirects keeps only those that lead to what is packed (`IsStored`).
-/

namespace ZimTools.Zimwriterfs

open Bytes Loop Incremental

/-! ## What is asked of the operating system -/

/-- `d_type` of what `readdir` gives. -/
inductive DType where
  | reg
  | lnk
  | dir
  | blk
  | chr
  | fifo
  | sock
  | unknown
  | other
deriving DecidableEq

/-- What `stat` says a path leads to. -/
inductive Mode where
  | reg
  | dir
  | other
deriving DecidableEq

/-- The calls of the program, and the libraries that it asks.  `opendir` gives
all that `readdir` gives afterwards, and `read` is the content of a file that can
be opened. -/
structure Os extends FileSystem, Surroundings where
  opendir : Bytes → Option (List (Bytes × DType))
  stat : Bytes → Option Mode
  read : Bytes → Option Bytes
  magicFile : Bytes → Option Bytes
  inflateString : Bytes → Option Bytes
  inflateHtmlFlag : Bool

/-- How the program ends early: by `exit(1)`, by an exception with its text, by
one of the library, or by the error number that `getFileContent` throws. -/
inductive Failure where
  | exited
  | exception (message : Bytes)
  | library
  | errno
deriving DecidableEq

/-- The creator, and the MIME types that were looked up. -/
structure Packing where
  zimCreator : Creator
  fileMimeTypes : List (Bytes × Bytes)

/-- A run of `zimwriterfs`, `none` when it has not ended within its bound. -/
abbrev Writing (α : Type) := ExceptT Failure Option α

/-! ## MIME types -/

def extMimeTypes : List (Bytes × Bytes) :=
  [("html", "text/html"), ("htm", "text/html"), ("png", "image/png"), ("tiff", "image/tiff"),
    ("tif", "image/tiff"), ("jpeg", "image/jpeg"), ("jpg", "image/jpeg"), ("gif", "image/gif"),
    ("svg", "image/svg+xml"), ("txt", "text/plain"), ("xml", "text/xml"),
    ("epub", "application/epub+zip"), ("pdf", "application/pdf"), ("ogg", "audio/ogg"),
    ("ogv", "video/ogg"), ("js", "application/javascript"), ("json", "application/json"),
    ("css", "text/css"), ("otf", "font/otf"), ("sfnt", "font/sfnt"),
    ("eot", "application/vnd.ms-fontobject"), ("ttf", "font/ttf"),
    ("collection", "font/collection"), ("woff", "font/woff"), ("woff2", "font/woff2"),
    ("vtt", "text/vtt"), ("webm", "video/webm"), ("webp", "image/webp"), ("mp4", "video/mp4"),
    ("doc", "application/msword"),
    ("docx", "application/vnd.openxmlformats-officedocument.wordprocessingml.document"),
    ("ppt", "application/vnd.ms-powerpoint"),
    ("odt", "application/vnd.oasis.opendocument.text"),
    ("odp", "application/vnd.oasis.opendocument.text"), ("zip", "application/zip"),
    ("wasm", "application/wasm")].map fun p => (str p.1, str p.2)

def getFileExtension (path : Bytes) : Bytes :=
  match findLastOf path (str ".") with
  | none => []
  | some posOfLastDot =>
      let partAfterLastDot := path.drop (posOfLastDot + 1)
      if char '/' ∈ partAfterLastDot ∨ char '\\' ∈ partAfterLastDot then [] else partAfterLastDot

def getMimeTypeFromExtension (extension : Bytes) : Bytes :=
  (extMimeTypes.lookup (asciitolower extension)).getD []

def seemsToBeHtml (path : Bytes) : Bool :=
  getMimeTypeFromExtension (getFileExtension path) == str "text/html"

/-- What libmagic says of a file, without what is behind a semicolon. -/
def magicMimeType (os : Os) (directoryPath filename : Bytes) : Option Bytes :=
  (os.magicFile (directoryPath ++ str "/" ++ filename)).map fun mimeType =>
    match find mimeType (char ';') 0 with
    | none => mimeType
    | some position => mimeType.take position

/-- `getMimeTypeForFile`, with the cache behind it. -/
def getMimeTypeForFile (os : Os) (directoryPath filename : Bytes)
    (fileMimeTypes : List (Bytes × Bytes)) : Bytes × List (Bytes × Bytes) :=
  let mimeType := getMimeTypeFromExtension (getFileExtension filename)
  if mimeType ≠ [] then (mimeType, fileMimeTypes)
  else
    match fileMimeTypes.lookup filename with
    | some mimeType => (mimeType, fileMimeTypes)
    | none =>
        match magicMimeType os directoryPath filename with
        | none => (str "application/octet-stream", fileMimeTypes)
        | some mimeType =>
            (if mimeType = [] then str "application/octet-stream" else mimeType,
              (filename, mimeType) :: fileMimeTypes)

/-! ## The program -/

/-- `getFileContent`.  When a page cannot be inflated it stays as it is. -/
def getFileContent (os : Os) (path : Bytes) : Option Bytes :=
  (os.read path).map fun contents =>
    if os.inflateHtmlFlag && seemsToBeHtml path then (os.inflateString contents).getD contents
    else contents

def addFile (os : Os) (creator : ZimCreatorFS) (path : Bytes) (s : Packing) : Writing Packing :=
  if path.length < creator.directoryPath.length + 1 then throw .library
  else
    let url := path.drop (creator.directoryPath.length + 1)
    let (mimetype, fileMimeTypes) :=
      getMimeTypeForFile os creator.directoryPath url s.fileMimeTypes
    if findString mimetype (str "text/html") 0 ≠ none then
      match getFileContent os path with
      | none => throw .errno
      | some content =>
          match parseAndAdaptHtml os.toSurroundings creator.directoryPath content [] url with
          | .error message => throw (.exception message)
          | .ok (redirectUrl, title) =>
              if redirectUrl ≠ [] then
                pure ⟨s.zimCreator.addRedirection url title redirectUrl, fileMimeTypes⟩
              else pure ⟨s.zimCreator.addItem url title mimetype content, fileMimeTypes⟩
    else
      -- A `FileItem`, which the library reads.
      match os.read path with
      | none => throw .library
      | some data => pure ⟨s.zimCreator.addItem url [] mimetype data, fileMimeTypes⟩

/-- What `visitDirectory` does with a symbolic link. -/
def addSymlink (os : Os) (creator : ZimCreatorFS) (path : Bytes) (s : Packing) : Writing Packing :=
  match processSymlink os.toFileSystem creator path with
  | .skipped _ => pure s
  | .added redirect =>
      pure { s with
        zimCreator := s.zimCreator.addRedirection redirect.path redirect.title redirect.target }
  | .outOfRange => throw .library

/-- A pass of the loop over a directory, where `visit` is the recursive call. -/
def visitEntry (os : Os) (creator : ZimCreatorFS) (visit : Bytes → Packing → Writing Packing)
    (path : Bytes) (s : Packing) (entry : Bytes × DType) : Writing Packing :=
  if entry.1 = str "." ∨ entry.1 = str ".." then pure s
  else
    let fullEntryName := path ++ str "/" ++ entry.1
    match entry.2 with
    | .reg => addFile os creator fullEntryName s
    | .lnk => addSymlink os creator fullEntryName s
    | .dir => visit fullEntryName s
    | .unknown =>
        match os.stat fullEntryName with
        | some .reg => addFile os creator fullEntryName s
        | some .dir => visit fullEntryName s
        | some .other => pure s
        | none => pure s
    | .blk | .chr | .fifo | .sock | .other => pure s

/-- `visitDirectory`, for directories in less than `fuel` of one another. -/
def visitDirectory (os : Os) (creator : ZimCreatorFS) : Nat → Bytes → Packing → Writing Packing
  | 0, _, _ => ExceptT.mk none
  | fuel + 1, path, s =>
      match os.opendir path with
      | none => throw .exited
      | some listing =>
          listing.foldlM (visitEntry os creator (visitDirectory os creator fuel) path) s

/-- `create_zim` from the directory visitor on, without a file of redirects. -/
def packDirectory (os : Os) (creator : ZimCreatorFS) (dangling : Creator.Dangling) (fuel : Nat)
    (zimCreator : Creator) : Writing Archive := do
  let s ← visitDirectory os creator fuel creator.directoryPath ⟨zimCreator, []⟩
  ExceptT.adapt (fun _ => .library) (s.zimCreator.finish dangling)

/-! ## The tree that is shown -/

/-- What is done at an entry that is not a directory. -/
inductive Leaf where
  | file
  | symlink
  | passedOver
deriving DecidableEq

/-- What an entry of a directory is taken for, `none` for a directory. -/
def taken (os : Os) (path : Bytes) : DType → Option Leaf
  | .reg => some .file
  | .lnk => some .symlink
  | .dir => none
  | .unknown =>
      match os.stat path with
      | some .reg => some .file
      | some .dir => none
      | some .other => some .passedOver
      | none => some .passedOver
  | .blk | .chr | .fifo | .sock | .other => some .passedOver

/-- The text of the names on a path, each behind a slash. -/
def namesText (names : List Bytes) : Bytes := names.flatMap (char '/' :: ·)

/-- What `readdir` gives for a directory shows a tree. -/
inductive Lists (os : Os) : Bytes → List (Bytes × DType) → FileTree Bytes Leaf → Prop where
  | nil {path : Bytes} : Lists os path [] .nil
  | navigation {path name : Bytes} {type : DType} {listing : List (Bytes × DType)}
      {tree : FileTree Bytes Leaf} (hname : name = str "." ∨ name = str "..") :
      Lists os path listing tree → Lists os path ((name, type) :: listing) tree
  | leaf {path name : Bytes} {type : DType} {leaf : Leaf} {listing : List (Bytes × DType)}
      {rest : FileTree Bytes Leaf} (hname : IsName name)
      (htaken : taken os (path ++ str "/" ++ name) type = some leaf) :
      Lists os path listing rest → Lists os path ((name, type) :: listing) (.leaf name leaf rest)
  | dir {path name : Bytes} {type : DType} {listing listing' : List (Bytes × DType)}
      {inside rest : FileTree Bytes Leaf} (hname : IsName name)
      (htaken : taken os (path ++ str "/" ++ name) type = none)
      (hopen : os.opendir (path ++ str "/" ++ name) = some listing') :
      Lists os (path ++ str "/" ++ name) listing' inside → Lists os path listing rest →
      Lists os path ((name, type) :: listing) (.dir name inside rest)

/-- What is done at a leaf. -/
def visitLeaf (os : Os) (creator : ZimCreatorFS) (path : Bytes) (s : Packing)
    (leaf : List Bytes × Leaf) : Writing Packing :=
  match leaf.2 with
  | .file => addFile os creator (path ++ namesText leaf.1) s
  | .symlink => addSymlink os creator (path ++ namesText leaf.1) s
  | .passedOver => pure s

section Walk

variable {os : Os} {creator : ZimCreatorFS} {path : Bytes} {listing : List (Bytes × DType)}
  {tree : FileTree Bytes Leaf}

theorem namesText_cons (name : Bytes) (names : List Bytes) :
    namesText (name :: names) = str "/" ++ name ++ namesText names := rfl

theorem allNames_of_lists (h : Lists os path listing tree) : tree.AllNames IsName := by
  induction h with
  | nil => trivial
  | navigation _ _ ih => exact ih
  | leaf hname _ _ ih => exact ⟨hname, ih⟩
  | dir hname _ _ _ _ ihInside ihRest => exact ⟨hname, ihInside, ihRest⟩

theorem visitEntry_of_leaf {visit : Bytes → Packing → Writing Packing} {s : Packing}
    {name : Bytes} {type : DType} {leaf : Leaf} (hname : IsName name)
    (htaken : taken os (path ++ str "/" ++ name) type = some leaf) :
    visitEntry os creator visit path s (name, type) = visitLeaf os creator path s ([name], leaf) := by
  have hpath : path ++ namesText [name] = path ++ str "/" ++ name := by
    rw [namesText_cons, namesText, List.flatMap_nil, List.append_nil, List.append_assoc]
  rw [visitEntry, if_neg (not_or.mpr ⟨hname.2.1, hname.2.2.1⟩), visitLeaf, hpath]
  cases type with
  | reg => cases htaken; rfl
  | lnk => cases htaken; rfl
  | dir => cases htaken
  | unknown =>
      rw [taken] at htaken
      dsimp only
      split at htaken
      · cases htaken; rfl
      · cases htaken
      · cases htaken; rfl
      · cases htaken; rfl
  | _ => cases htaken; rfl

theorem visitEntry_of_dir {visit : Bytes → Packing → Writing Packing} {s : Packing}
    {name : Bytes} {type : DType} (hname : IsName name)
    (htaken : taken os (path ++ str "/" ++ name) type = none) :
    visitEntry os creator visit path s (name, type) = visit (path ++ str "/" ++ name) s := by
  rw [visitEntry, if_neg (not_or.mpr ⟨hname.2.1, hname.2.2.1⟩)]
  cases type with
  | dir => rfl
  | unknown =>
      rw [taken] at htaken
      dsimp only
      split at htaken
      · cases htaken
      · rfl
      · cases htaken
      · cases htaken
  | _ => cases htaken

/-- The run is a walk over the leaves of the tree. -/
theorem visit_eq (h : Lists os path listing tree) {fuel : Nat} (hfuel : tree.depth ≤ fuel)
    (s : Packing) :
    listing.foldlM (visitEntry os creator (visitDirectory os creator fuel) path) s =
      tree.leaves.foldlM (visitLeaf os creator path) s := by
  induction h generalizing fuel s with
  | nil => rfl
  | navigation hname _ ih =>
      rw [List.foldlM_cons, visitEntry, if_pos hname, pure_bind]
      exact ih hfuel s
  | leaf hname htaken _ ih =>
      rw [List.foldlM_cons, visitEntry_of_leaf hname htaken, FileTree.leaves, List.foldlM_cons]
      exact congrArg _ (funext fun s' => ih hfuel s')
  | @dir path name type listing listing' inside rest hname htaken hopen _ _ ihInside ihRest =>
      obtain ⟨k, rfl⟩ : ∃ k, fuel = k + 1 := by
        rw [FileTree.depth] at hfuel
        exact ⟨fuel - 1, by omega⟩
      rw [FileTree.depth] at hfuel
      rw [List.foldlM_cons, visitEntry_of_dir hname htaken, visitDirectory, hopen]
      dsimp only
      rw [ihInside (by omega), FileTree.leaves, List.foldlM_append, List.foldlM_map]
      have hleaf : ∀ (s : Packing) (leaf : List Bytes × Leaf),
          visitLeaf os creator path s (name :: leaf.1, leaf.2) =
            visitLeaf os creator (path ++ str "/" ++ name) s leaf := by
        intro s leaf
        rw [visitLeaf, visitLeaf, namesText_cons, ← List.append_assoc, ← List.append_assoc]
      simp only [hleaf]
      exact congrArg _ (funext fun s' => ihRest (by omega) s')

end Walk

/-! ## What a leaf becomes -/

/-- The URL of what is packed from a path. -/
def leafUrl (names : List Bytes) : Bytes := (namesText names).drop 1

/-- The MIME type of a file whose name was not looked up before. -/
def mimeTypeOf (os : Os) (creator : ZimCreatorFS) (url : Bytes) : Bytes :=
  (getMimeTypeForFile os creator.directoryPath url []).1

/-- The entry for a file, or why there is none. -/
def fileEntry (os : Os) (creator : ZimCreatorFS) (names : List Bytes) : Except Failure Entry :=
  let path := creator.directoryPath ++ namesText names
  let url := leafUrl names
  let mimetype := mimeTypeOf os creator url
  if findString mimetype (str "text/html") 0 ≠ none then
    match getFileContent os path with
    | none => .error .errno
    | some content =>
        match parseAndAdaptHtml os.toSurroundings creator.directoryPath content [] url with
        | .error message => .error (.exception message)
        | .ok (redirectUrl, title) =>
            .ok ⟨url, title,
              if redirectUrl ≠ [] then .redirect redirectUrl else .item mimetype content⟩
  else
    match os.read path with
    | none => .error .library
    | some data => .ok ⟨url, [], .item mimetype data⟩

/-- The entry for a symbolic link that is not skipped. -/
def symlinkEntry (os : Os) (creator : ZimCreatorFS) (names : List Bytes) : Option Entry :=
  match processSymlink os.toFileSystem creator (creator.directoryPath ++ namesText names) with
  | .added redirect => some ⟨leafUrl names, redirect.title, .redirect redirect.target⟩
  | _ => none

/-- What a leaf gives, or why the program ends at it. -/
def packed (os : Os) (creator : ZimCreatorFS) (leaf : List Bytes × Leaf) :
    Except Failure (Option Entry) :=
  match leaf.2 with
  | .file => (fileEntry os creator leaf.1).map some
  | .symlink => .ok (symlinkEntry os creator leaf.1)
  | .passedOver => .ok none

section Leaves

variable {os : Os} {creator : ZimCreatorFS}

theorem mimeType_eq {directoryPath url : Bytes} {cache : List (Bytes × Bytes)}
    (h : cache.lookup url = none) :
    (getMimeTypeForFile os directoryPath url cache).1 =
      (getMimeTypeForFile os directoryPath url []).1 := by
  rw [getMimeTypeForFile, getMimeTypeForFile, h]
  split
  · rfl
  · cases magicMimeType os directoryPath url <;> rfl

theorem lookup_cache {directoryPath url url' : Bytes} {cache : List (Bytes × Bytes)}
    (hne : url' ≠ url) :
    (getMimeTypeForFile os directoryPath url cache).2.lookup url' = cache.lookup url' := by
  rw [getMimeTypeForFile]
  split
  · rfl
  · cases cache.lookup url with
    | some mimeType => rfl
    | none =>
        cases magicMimeType os directoryPath url with
        | none => rfl
        | some mimeType =>
            show List.lookup url' ((url, mimeType) :: cache) = _
            rw [List.lookup_cons, beq_eq_false_iff_ne.mpr hne]

theorem namesText_length {names : List Bytes} (h : names ≠ []) : 0 < (namesText names).length := by
  cases names with
  | nil => exact absurd rfl h
  | cons name names => exact Nat.succ_pos _

/-- The path of a leaf is that of the directory, a slash, and its URL. -/
theorem drop_leafPath (names : List Bytes) :
    (creator.directoryPath ++ namesText names).drop (creator.directoryPath.length + 1) =
      leafUrl names := by
  rw [← List.drop_drop, List.drop_left, leafUrl]

theorem not_length_lt {names : List Bytes} (h : names ≠ []) :
    ¬ (creator.directoryPath ++ namesText names).length < creator.directoryPath.length + 1 := by
  have hlength := namesText_length h
  rw [List.length_append]
  omega

/-- The MIME types that are known after a leaf. -/
def cacheAfter (os : Os) (creator : ZimCreatorFS) (leaf : List Bytes × Leaf)
    (cache : List (Bytes × Bytes)) : List (Bytes × Bytes) :=
  match leaf.2 with
  | .file => (getMimeTypeForFile os creator.directoryPath (leafUrl leaf.1) cache).2
  | _ => cache

theorem addFile_eq {names : List Bytes} (hne : names ≠ []) {s : Packing}
    (hcache : s.fileMimeTypes.lookup (leafUrl names) = none) :
    addFile os creator (creator.directoryPath ++ namesText names) s =
      match fileEntry os creator names with
      | .error failure => throw failure
      | .ok entry => pure ⟨s.zimCreator.addAll [entry],
          cacheAfter os creator (names, .file) s.fileMimeTypes⟩ := by
  have hmime : (getMimeTypeForFile os creator.directoryPath (leafUrl names) s.fileMimeTypes).1 =
      (getMimeTypeForFile os creator.directoryPath (leafUrl names) []).1 := mimeType_eq hcache
  rw [addFile, if_neg (not_length_lt hne), drop_leafPath, fileEntry, mimeTypeOf, ← hmime, cacheAfter]
  dsimp only
  generalize getMimeTypeForFile os creator.directoryPath (leafUrl names) s.fileMimeTypes = m
  obtain ⟨mimetype, fileMimeTypes⟩ := m
  dsimp only
  by_cases hhtml : findString mimetype (str "text/html") 0 ≠ none
  · rw [if_pos hhtml, if_pos hhtml]
    cases getFileContent os (creator.directoryPath ++ namesText names) with
    | none => rfl
    | some content =>
        dsimp only
        cases parseAndAdaptHtml os.toSurroundings creator.directoryPath content [] (leafUrl names) with
        | error message => rfl
        | ok page =>
            dsimp only
            by_cases hredirect : page.1 ≠ []
            · rw [if_pos hredirect, if_pos hredirect]
              rfl
            · rw [if_neg hredirect, if_neg hredirect]
              rfl
  · rw [if_neg hhtml, if_neg hhtml]
    cases os.read (creator.directoryPath ++ namesText names) <;> rfl

/-- In the directory a link is skipped, or gives a redirect under its URL. -/
theorem processSymlink_cases {names : List Bytes} (hne : names ≠ []) :
    (∃ message, processSymlink os.toFileSystem creator (creator.directoryPath ++ namesText names) =
        .skipped message) ∨
      ∃ target, processSymlink os.toFileSystem creator (creator.directoryPath ++ namesText names) =
        .added ⟨leafUrl names, [], target⟩ := by
  rw [processSymlink]
  cases os.realpath (creator.directoryPath ++ namesText names) with
  | error message => exact Or.inl ⟨_, rfl⟩
  | ok resolved =>
      dsimp only
      split_ifs with hdirectory houtside
      · exact Or.inl ⟨_, rfl⟩
      · exact Or.inl ⟨_, rfl⟩
      · exact absurd ‹_› (not_length_lt hne)
      · exact Or.inr ⟨_, by rw [drop_leafPath]⟩

theorem addSymlink_eq {names : List Bytes} (hne : names ≠ []) (s : Packing) :
    addSymlink os creator (creator.directoryPath ++ namesText names) s =
      pure { s with zimCreator := s.zimCreator.addAll (symlinkEntry os creator names).toList } := by
  rcases @processSymlink_cases os creator names hne with ⟨message, h⟩ | ⟨target, h⟩
  · rw [addSymlink, symlinkEntry, h]
    dsimp only
    rw [Option.toList_none, Creator.addAll_nil]
  · rw [addSymlink, symlinkEntry, h]
    rfl

/-- At a leaf whose URL was not met before the program does what the leaf gives. -/
theorem visitLeaf_eq {leaf : List Bytes × Leaf} (hne : leaf.1 ≠ []) {s : Packing}
    (hcache : s.fileMimeTypes.lookup (leafUrl leaf.1) = none) :
    visitLeaf os creator creator.directoryPath s leaf =
      match packed os creator leaf with
      | .error failure => throw failure
      | .ok entry => pure ⟨s.zimCreator.addAll entry.toList,
          cacheAfter os creator leaf s.fileMimeTypes⟩ := by
  obtain ⟨names, kind⟩ := leaf
  cases kind with
  | file =>
      rw [visitLeaf, packed]
      dsimp only
      rw [addFile_eq hne hcache]
      cases fileEntry os creator names <;> rfl
  | symlink => exact addSymlink_eq hne s
  | passedOver =>
      show pure s = pure (Packing.mk (s.zimCreator.addAll []) s.fileMimeTypes)
      rw [Creator.addAll_nil]

theorem lookup_cacheAfter {leaf leaf' : List Bytes × Leaf} {cache : List (Bytes × Bytes)}
    (hne : leafUrl leaf'.1 ≠ leafUrl leaf.1) :
    (cacheAfter os creator leaf cache).lookup (leafUrl leaf'.1) = cache.lookup (leafUrl leaf'.1) := by
  rw [cacheAfter]
  split
  · exact lookup_cache hne
  · rfl

/-- The entries that leaves give. -/
def entriesOf (os : Os) (creator : ZimCreatorFS) (leaves : List (List Bytes × Leaf)) : List Entry :=
  leaves.filterMap fun leaf => (packed os creator leaf).toOption.join

theorem entriesOf_cons (leaf : List Bytes × Leaf) (leaves : List (List Bytes × Leaf)) :
    entriesOf os creator (leaf :: leaves) =
      (packed os creator leaf).toOption.join.toList ++ entriesOf os creator leaves := by
  rw [entriesOf, List.filterMap_cons]
  cases (packed os creator leaf).toOption.join <;> rfl

/-- A walk over leaves with different URLs packs what each of them gives. -/
theorem returns_walk {leaves : List (List Bytes × Leaf)} {zimCreator : Creator} :
    ∀ {s : Packing}, (∀ leaf ∈ leaves, leaf.1 ≠ []) → (leaves.map fun leaf => leafUrl leaf.1).Nodup →
      (∀ leaf ∈ leaves, s.fileMimeTypes.lookup (leafUrl leaf.1) = none) →
      ((∃ r, Returns (leaves.foldlM (visitLeaf os creator creator.directoryPath) s) r ∧
          r.zimCreator = zimCreator) ↔
        (∀ leaf ∈ leaves, ∃ entry, packed os creator leaf = .ok entry) ∧
          zimCreator = s.zimCreator.addAll (entriesOf os creator leaves)) := by
  induction leaves with
  | nil =>
      intro s _ _ _
      simp [entriesOf, eq_comm]
  | cons leaf leaves ih =>
      intro s hne hnodup hcache
      obtain ⟨hneHead, hne⟩ := List.forall_mem_cons.mp hne
      obtain ⟨hcacheHead, hcache⟩ := List.forall_mem_cons.mp hcache
      obtain ⟨hurl, hnodup⟩ := List.nodup_cons.mp hnodup
      rw [List.foldlM_cons, visitLeaf_eq hneHead hcacheHead, List.forall_mem_cons, entriesOf_cons]
      cases hpacked : packed os creator leaf with
      | error failure =>
          refine iff_of_false ?_ ?_
          · rintro ⟨r, hr, -⟩
            obtain ⟨_, hthrow, -⟩ := returns_bind.mp hr
            exact returns_throw hthrow
          · rintro ⟨⟨⟨entry, hentry⟩, -⟩, -⟩
            cases hentry
      | ok entry =>
          dsimp only
          rw [pure_bind, ih hne hnodup]
          · rw [Creator.addAll_addAll]
            exact and_congr_left fun _ => (and_iff_right ⟨entry, rfl⟩).symm
          · intro leaf' hleaf'
            rw [lookup_cacheAfter]
            · exact hcache leaf' hleaf'
            · exact fun heq => hurl (List.mem_map.mpr ⟨leaf', hleaf', heq⟩)

/-- What is packed from a leaf has its URL. -/
theorem path_of_packed {leaf : List Bytes × Leaf} {entry : Entry}
    (h : packed os creator leaf = .ok (some entry)) : entry.path = leafUrl leaf.1 := by
  obtain ⟨names, kind⟩ := leaf
  cases kind with
  | file =>
      rw [packed] at h
      cases hentry : fileEntry os creator names with
      | error failure =>
          rw [hentry] at h
          cases h
      | ok entry' =>
          rw [hentry] at h
          cases h
          rw [fileEntry] at hentry
          split at hentry
          · split at hentry
            · cases hentry
            · split at hentry
              · cases hentry
              · cases hentry
                rfl
          · split at hentry
            · cases hentry
            · cases hentry
              rfl
  | symlink =>
      have hentry : symlinkEntry os creator names = some entry := by
        rw [packed] at h
        exact Except.ok.inj h
      rw [symlinkEntry] at hentry
      split at hentry
      · cases hentry
        rfl
      · cases hentry
  | passedOver => cases h

end Leaves

/-! ## URLs -/

/-- The URL has the names on the path. -/
theorem segments_leafUrl {names : List Bytes} (hne : names ≠ []) (hnames : ∀ s ∈ names, IsName s) :
    segments (leafUrl names) = names := by
  cases names with
  | nil => exact absurd rfl hne
  | cons name names =>
      obtain ⟨hname, hnames⟩ := List.forall_mem_cons.mp hnames
      exact CanonicalPath.splitOn_flatMap hnames hname.2.2.2.1

theorem leafUrl_inj {names names' : List Bytes} (hne : names ≠ []) (hne' : names' ≠ [])
    (hnames : ∀ s ∈ names, IsName s) (hnames' : ∀ s ∈ names', IsName s)
    (h : leafUrl names = leafUrl names') : names = names' := by
  have hsegments := congrArg segments h
  rwa [segments_leafUrl hne hnames, segments_leafUrl hne' hnames'] at hsegments

section Tree

variable {tree : FileTree Bytes Leaf}

theorem ne_nil_of_mem_leaves : ∀ leaf ∈ tree.leaves, leaf.1 ≠ [] := by
  intro leaf hleaf hnil
  obtain ⟨_, _, h, -⟩ := FileTree.exists_cons_of_mem_leaves hleaf
  rw [hnil] at h
  cases h

/-- Two leaves with one URL are the same. -/
theorem eq_of_leafUrl_eq (hnames : tree.AllNames IsName) {leaf leaf' : List Bytes × Leaf}
    (hleaf : leaf ∈ tree.leaves) (hleaf' : leaf' ∈ tree.leaves)
    (h : leafUrl leaf.1 = leafUrl leaf'.1) : leaf.1 = leaf'.1 :=
  leafUrl_inj (ne_nil_of_mem_leaves leaf hleaf) (ne_nil_of_mem_leaves leaf' hleaf')
    (FileTree.forall_mem_leaves hnames leaf hleaf) (FileTree.forall_mem_leaves hnames leaf' hleaf') h

/-- The leaves of a directory have different URLs. -/
theorem nodup_leafUrl (hnames : tree.AllNames IsName) (hdistinct : tree.Distinct) :
    (tree.leaves.map fun leaf => leafUrl leaf.1).Nodup := by
  have hpaths := FileTree.nodup_leaves hdistinct
  have hmap : tree.leaves.map (fun leaf => leafUrl leaf.1) = (tree.leaves.map Prod.fst).map leafUrl := by
    rw [List.map_map]
    rfl
  rw [hmap]
  refine hpaths.map_on fun names hmem names' hmem' heq => ?_
  obtain ⟨leaf, hleaf, rfl⟩ := List.mem_map.mp hmem
  obtain ⟨leaf', hleaf', rfl⟩ := List.mem_map.mp hmem'
  exact eq_of_leafUrl_eq hnames hleaf hleaf' heq

theorem mem_entriesOf {os : Os} {creator : ZimCreatorFS} {entry : Entry} :
    entry ∈ entriesOf os creator tree.leaves ↔
      ∃ leaf ∈ tree.leaves, packed os creator leaf = .ok (some entry) := by
  rw [entriesOf, List.mem_filterMap]
  refine exists_congr fun leaf => and_congr_right fun _ => ?_
  cases packed os creator leaf with
  | error failure => simp [Except.toOption]
  | ok entry' => simp [Except.toOption]

/-- The paths of the entries are among the URLs of the leaves, in their order. -/
theorem map_path_entriesOf_sublist (os : Os) (creator : ZimCreatorFS) :
    ∀ leaves : List (List Bytes × Leaf),
      ((entriesOf os creator leaves).map Entry.path).Sublist (leaves.map fun leaf => leafUrl leaf.1)
  | [] => .slnil
  | leaf :: leaves => by
      have ih := map_path_entriesOf_sublist os creator leaves
      rw [entriesOf_cons, List.map_append, List.map_cons]
      cases hpacked : packed os creator leaf with
      | error failure => exact ih.cons _
      | ok entry =>
          cases entry with
          | none => exact ih.cons _
          | some entry =>
              show List.Sublist (entry.path :: _) _
              rw [path_of_packed hpacked]
              exact ih.cons_cons _

theorem nodup_entriesOf {os : Os} {creator : ZimCreatorFS} (hnames : tree.AllNames IsName)
    (hdistinct : tree.Distinct) : ((entriesOf os creator tree.leaves).map Entry.path).Nodup :=
  (nodup_leafUrl hnames hdistinct).sublist (map_path_entriesOf_sublist os creator tree.leaves)

/-- Whether a path of the tree leads to what is packed. -/
def IsPacked (os : Os) (creator : ZimCreatorFS) (tree : FileTree Bytes Leaf) (url : Bytes) : Prop :=
  ∃ names kind entry, tree.get names = some (.inl kind) ∧ leafUrl names = url ∧
    packed os creator (names, kind) = .ok (some entry)

/-- Whether the library stores an entry that it is given. -/
def IsStored (dangling : Creator.Dangling) (os : Os) (creator : ZimCreatorFS)
    (tree : FileTree Bytes Leaf) (entry : Entry) : Prop :=
  dangling = .discarded → ∀ target, entry.kind = .redirect target → IsPacked os creator tree target

section Packing

variable {os : Os} {creator : ZimCreatorFS} {listing : List (Bytes × DType)} {fuel : Nat}
  {zimCreator : Creator} {dangling : Creator.Dangling} {out : Archive}

theorem mem_entriesOf_iff (hdistinct : tree.Distinct) {entry : Entry} :
    entry ∈ entriesOf os creator tree.leaves ↔
      ∃ names kind, tree.get names = some (.inl kind) ∧
        packed os creator (names, kind) = .ok (some entry) := by
  rw [mem_entriesOf]
  constructor
  · rintro ⟨⟨names, kind⟩, hleaf, hpacked⟩
    exact ⟨names, kind, (FileTree.mem_leaves_iff hdistinct).mp hleaf, hpacked⟩
  · rintro ⟨names, kind, hget, hpacked⟩
    exact ⟨(names, kind), (FileTree.mem_leaves_iff hdistinct).mpr hget, hpacked⟩

theorem isPacked_iff (hdistinct : tree.Distinct) {url : Bytes} :
    IsPacked os creator tree url ↔
      ∃ entry ∈ entriesOf os creator tree.leaves, entry.path = url := by
  simp only [mem_entriesOf_iff hdistinct]
  constructor
  · rintro ⟨names, kind, entry, hget, rfl, hpacked⟩
    exact ⟨entry, ⟨names, kind, hget, hpacked⟩, path_of_packed hpacked⟩
  · rintro ⟨entry, ⟨names, kind, hget, hpacked⟩, rfl⟩
    exact ⟨names, kind, entry, hget, (path_of_packed hpacked).symm, hpacked⟩

theorem entries_addAll (hempty : zimCreator.entries = []) (entries : List Entry) :
    (zimCreator.addAll entries).entries = entries := by
  rw [Creator.addAll, hempty, List.nil_append]

/-- The visitor gives the creator what the leaves give, if every leaf gives
something. -/
theorem returns_visitDirectory (hopen : os.opendir creator.directoryPath = some listing)
    (hlists : Lists os creator.directoryPath listing tree) (hdistinct : tree.Distinct)
    (hfuel : tree.depth < fuel) {zimCreator' : Creator} :
    (∃ s, Returns (visitDirectory os creator fuel creator.directoryPath ⟨zimCreator, []⟩) s ∧
        s.zimCreator = zimCreator') ↔
      (∀ leaf ∈ tree.leaves, ∃ entry, packed os creator leaf = .ok entry) ∧
        zimCreator' = zimCreator.addAll (entriesOf os creator tree.leaves) := by
  obtain ⟨k, rfl⟩ : ∃ k, fuel = k + 1 := ⟨fuel - 1, by omega⟩
  have hvisit : visitDirectory os creator (k + 1) creator.directoryPath ⟨zimCreator, []⟩ =
      tree.leaves.foldlM (visitLeaf os creator creator.directoryPath) ⟨zimCreator, []⟩ := by
    rw [visitDirectory, hopen]
    exact visit_eq hlists (by omega) _
  rw [hvisit]
  exact returns_walk ne_nil_of_mem_leaves (nodup_leafUrl (allNames_of_lists hlists) hdistinct)
    fun _ _ => rfl

/-- The program returns the archive of what the leaves give, if every leaf gives
something. -/
theorem returns_packDirectory (hopen : os.opendir creator.directoryPath = some listing)
    (hlists : Lists os creator.directoryPath listing tree) (hdistinct : tree.Distinct)
    (hfuel : tree.depth < fuel) :
    Returns (packDirectory os creator dangling fuel zimCreator) out ↔
      (∀ leaf ∈ tree.leaves, ∃ entry, packed os creator leaf = .ok entry) ∧
        ∃ nodup count_lt, out =
          ((zimCreator.addAll (entriesOf os creator tree.leaves)).stored dangling).toArchive
            (Creator.nodup_stored nodup) (Creator.length_stored_lt count_lt) := by
  have hvisit := fun zimCreator' =>
    @returns_visitDirectory tree os creator listing fuel zimCreator hopen hlists hdistinct hfuel
      zimCreator'
  simp only [packDirectory, returns_bind, returns_adapt, Creator.returns_finish]
  constructor
  · rintro ⟨s, hs, hout⟩
    obtain ⟨hok, hcreator⟩ := (hvisit s.zimCreator).mp ⟨s, hs, rfl⟩
    rw [hcreator] at hout
    exact ⟨hok, hout⟩
  · rintro ⟨hok, hout⟩
    obtain ⟨s, hs, hcreator⟩ := (hvisit _).mpr ⟨hok, rfl⟩
    exact ⟨s, hs, by rwa [hcreator]⟩

/-- What is stored of the entries that leaves give. -/
theorem mem_stored_iff (hdistinct : tree.Distinct) (hempty : zimCreator.entries = [])
    {entry : Entry} :
    entry ∈ ((zimCreator.addAll (entriesOf os creator tree.leaves)).stored dangling).entries ↔
      entry ∈ entriesOf os creator tree.leaves ∧ IsStored dangling os creator tree entry := by
  simp only [Creator.mem_stored, Creator.resolves_eq_true_iff, Entry.redirectTarget_eq_some_iff,
    entries_addAll hempty, IsStored, isPacked_iff hdistinct]

theorem find_packed (hdistinct : tree.Distinct) (hempty : zimCreator.entries = [])
    {nodup count_lt} {path : Bytes} {entry : Entry} :
    (((zimCreator.addAll (entriesOf os creator tree.leaves)).stored dangling).toArchive nodup
        count_lt).find path = some entry ↔
      (∃ names kind, tree.get names = some (.inl kind) ∧ leafUrl names = path ∧
        packed os creator (names, kind) = .ok (some entry)) ∧
          IsStored dangling os creator tree entry := by
  rw [Archive.find_eq_some_iff, Creator.mem_toArchive, mem_stored_iff hdistinct hempty,
    mem_entriesOf_iff hdistinct, and_right_comm]
  refine and_congr_left fun _ => ?_
  constructor
  · rintro ⟨⟨names, kind, hget, hpacked⟩, rfl⟩
    exact ⟨names, kind, hget, (path_of_packed hpacked).symm, hpacked⟩
  · rintro ⟨names, kind, hget, rfl, hpacked⟩
    exact ⟨⟨names, kind, hget, hpacked⟩, path_of_packed hpacked⟩

end Packing

/-- A directory is packed exactly when every file can be read, the redirect of
every page leads somewhere, and there are fewer than 2^32 entries.  Then there is
one entry for each file, and for each link that is not skipped, at the path to
it, unless the library has discarded it, and no other. -/
theorem visitDirectory_packs {os : Os} {creator : ZimCreatorFS}
    {listing : List (Bytes × DType)} (hopen : os.opendir creator.directoryPath = some listing)
    (hlists : Lists os creator.directoryPath listing tree) (hdistinct : tree.Distinct) {fuel : Nat}
    (hfuel : tree.depth < fuel) {zimCreator : Creator} (hempty : zimCreator.entries = [])
    (dangling : Creator.Dangling) :
    ((∃ out, Returns (packDirectory os creator dangling fuel zimCreator) out) ↔
        (∀ leaf ∈ tree.leaves, ∃ entry, packed os creator leaf = .ok entry) ∧
          (entriesOf os creator tree.leaves).length < UInt32.size) ∧
      ∀ out, Returns (packDirectory os creator dangling fuel zimCreator) out →
        ∀ path entry, out.find path = some entry ↔
          (∃ names kind, tree.get names = some (.inl kind) ∧ leafUrl names = path ∧
            packed os creator (names, kind) = .ok (some entry)) ∧
              IsStored dangling os creator tree entry := by
  have hentries := entries_addAll hempty (entriesOf os creator tree.leaves)
  simp only [returns_packDirectory hopen hlists hdistinct hfuel]
  constructor
  · simp only [exists_and_left]
    refine and_congr_right fun _ => ⟨?_, fun hcount => ?_⟩
    · rintro ⟨out, nodup, count_lt, -⟩
      rwa [hentries] at count_lt
    · have hnodup : ((entriesOf os creator tree.leaves).map Entry.path).Nodup :=
        nodup_entriesOf (allNames_of_lists hlists) hdistinct
      exact ⟨_, by rwa [hentries], by rwa [hentries], rfl⟩
  · rintro out ⟨-, nodup, count_lt, rfl⟩ path entry
    exact find_packed hdistinct hempty

end Tree

/-- A directory with a style sheet in another one, and a link to it. -/
def sampleOs : Os where
  realpath path :=
    if path = str "d/link" then .ok ⟨[str "w", str "d", str "sub", str "x.css"], by decide⟩
    else .error []
  isDirectory path := path == str "/w/d/sub"
  gumboParse _ := .other
  fileExists _ := false
  opendir path :=
    if path = str "d" then
      some [(str ".", .dir), (str "link", .lnk), (str "sub", .dir), (str "..", .dir)]
    else if path = str "d/sub" then some [(str "x.css", .reg)]
    else none
  stat _ := none
  read path := if path = str "d/sub/x.css" then some (str "p {}") else none
  magicFile _ := none
  inflateString _ := none
  inflateHtmlFlag := false

def sampleCreator : ZimCreatorFS := ⟨str "d", str "/w/d"⟩

def sampleTree : FileTree Bytes Leaf :=
  .leaf (str "link") .symlink (.dir (str "sub") (.leaf (str "x.css") .file .nil) .nil)

theorem lists_sample : Lists sampleOs sampleCreator.directoryPath
    [(str ".", .dir), (str "link", .lnk), (str "sub", .dir), (str "..", .dir)] sampleTree :=
  .navigation (by decide) (.leaf (by decide) rfl (.dir (by decide) rfl rfl
    (.leaf (by decide) rfl .nil) (.navigation (by decide) .nil)))

theorem distinct_sample : sampleTree.Distinct := by
  simp [sampleTree, FileTree.Distinct, FileTree.names, str, char]

theorem packed_sample : ∀ leaf ∈ sampleTree.leaves,
    ∃ entry, packed sampleOs sampleCreator leaf = .ok entry := by
  show ∀ leaf ∈ [([str "link"], Leaf.symlink), ([str "sub", str "x.css"], Leaf.file)], _
  rw [List.forall_mem_cons, List.forall_mem_singleton]
  exact ⟨⟨_, rfl⟩, ⟨_, rfl⟩⟩

theorem visitDirectory_packs_sample :
    ∃ out, Returns (packDirectory sampleOs sampleCreator .discarded 2
        (.startZimCreation ⟨List.replicate 16 0, rfl⟩)) out ∧
      out.find (str "sub/x.css") = some ⟨str "sub/x.css", [], .item (str "text/css") (str "p {}")⟩ := by
  have hpacks := @visitDirectory_packs sampleTree sampleOs sampleCreator _ rfl lists_sample
    distinct_sample 2 (by decide) (.startZimCreation ⟨List.replicate 16 0, rfl⟩) rfl .discarded
  obtain ⟨out, hout⟩ := hpacks.1.mpr ⟨packed_sample, by decide⟩
  exact ⟨out, hout, (hpacks.2 out hout _ _).mpr
    ⟨⟨[str "sub", str "x.css"], .file, rfl, rfl, rfl⟩, fun _ _ h => nomatch h⟩⟩

end ZimTools.Zimwriterfs
