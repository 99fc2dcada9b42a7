import ZimTools.Lib.MapM
import ZimTools.Zimdump.DumpedTree
import ZimTools.Zimrecreate.Create
import ZimTools.Zimwriterfs.PackedLinks

/-!
# Packing what was dumped

`zimdump dump --redirect` writes the entries of an archive into a directory, and
`zimwriterfs` packs a directory.  One after the other they give an archive with
the same paths: an item has the same data, and a MIME type and a title from its
name and its page, and a redirect leads at once to the item that it led to
(`packed_dump`).
-/

namespace ZimTools.Zimwriterfs

open Bytes Loop Incremental

/-! ## The dump -/

/-- What `zimdump` gets of an entry, unless following it ends with an exception. -/
def dumpedKind (archive : Archive) (watchdog : Nat) (entry : Entry) : Option Zimdump.EntryKind :=
  match entry.kind with
  | .item _ data => some (.item data)
  | .redirect _ =>
      match Zimrecreate.getItem archive watchdog entry with
      | some ⟨path, _, .item mimetype _⟩ => some (.redirect path mimetype)
      | _ => none

def dumpedEntry (archive : Archive) (watchdog : Nat) (entry : Entry) : Option Zimdump.Entry :=
  (dumpedKind archive watchdog entry).bind fun kind =>
    if h : (0 : UInt8) ∉ entry.path then some ⟨entry.path, kind, h⟩ else none

/-! ## The directory that is packed -/

/-- What is at a place for one who goes through the directory. -/
def leafOf : Option Zimdump.Node → Option Leaf
  | some (.file _) => some .file
  | some .damaged => some .file
  | some (.link _) => some .symlink
  | some .directory => none
  | none => none

/-- The system shows the directory of a dump to `zimwriterfs`: its tree, its
files, and where its links to files end. -/
structure ShowsDisk (os : Os) (disk : Zimdump.Disk) (directory : Bytes) (base : CanonicalPath)
    (listing : List (Bytes × DType)) (tree : FileTree Bytes Leaf) : Prop where
  base_ne_root : base.names ≠ []
  opendir : os.opendir directory = some listing
  lists : Lists os directory listing tree
  distinct : tree.Distinct
  leaf : ∀ names kind, tree.get names = some (.inl kind) ↔
    leafOf (disk (Zimdump.place directory names)) = some kind
  read : ∀ names data, disk (Zimdump.place directory names) = some (.file data) →
    os.read (directory ++ namesText names) = some data
  realpath : ∀ names target below data,
    disk (Zimdump.place directory names) = some (.link target) →
    Zimdump.followSymlink (Zimdump.place directory names) target = Zimdump.place directory below →
    disk (Zimdump.place directory below) = some (.file data) →
    ∃ resolved, os.realpath (directory ++ namesText names) = .ok resolved ∧
      os.isDirectory resolved.text = false ∧ resolved.names = base.names ++ below

/-! ## What comes of an entry -/

/-- The entry for an item, unless its page is a redirect that leads nowhere. -/
def repackedItem (os : Os) (creator : ZimCreatorFS) (path data : Bytes) : Option Entry :=
  let mimetype := mimeTypeOf os creator path
  if findString mimetype (str "text/html") 0 ≠ none then
    match parseAndAdaptHtml os.toSurroundings creator.directoryPath data [] path with
    | .error _ => none
    | .ok (redirectUrl, title) =>
        some ⟨path, title, if redirectUrl ≠ [] then .redirect redirectUrl else .item mimetype data⟩
  else some ⟨path, [], .item mimetype data⟩

/-- The entry that is packed for one of the archive that was dumped.  A redirect
was dumped as a page, which is packed as such, or as a link. -/
def repacked (os : Os) (creator : ZimCreatorFS) (symlinkdump : Bool) (archive : Archive)
    (watchdog : Nat) (entry : Entry) : Option Entry :=
  match entry.kind with
  | .item _ data => repackedItem os creator entry.path data
  | .redirect _ =>
      match Zimrecreate.getItem archive watchdog entry with
      | some ⟨path, _, .item mimetype _⟩ =>
          if symlinkdump = false ∧ mimetype = str "text/html" then
            repackedItem os creator entry.path
              (httpRedirectHtml (computeRelativePath entry.path path))
          else some ⟨entry.path, [], .redirect path⟩
      | _ => none

/-- Whether the library stores what is packed for an entry of the archive. -/
def storedOf (dangling : Creator.Dangling) (archive : Archive) (entry : Entry) : Bool :=
  dangling = .stored || entry.redirectTarget.all archive.hasEntryByPath

section Leaves

variable {os : Os} {directory : Bytes} {base : CanonicalPath} {listing : List (Bytes × DType)}
  {tree : FileTree Bytes Leaf} {symlinkdump : Bool} {dumped : List Zimdump.Entry}
  {disk : Zimdump.Disk}

theorem isName_of_fileName {s : Bytes} (h : Zimdump.FileName s) : IsName s :=
  ⟨h.1.1, h.1.2.1, h.1.2.2, h.2.1, h.2.2.1⟩

/-- The URL of the leaf at the path of an entry is that path. -/
theorem leafUrl_segments {path : Bytes} (h : ∀ s ∈ segments path, IsName s) :
    leafUrl (segments path) = path :=
  Zimdump.segments_inj (segments_leafUrl (segments_ne_nil path) h)

/-- What an entry is in the directory. -/
def leafKind (symlinkdump : Bool) (e : Zimdump.Entry) : Leaf :=
  match e.kind with
  | .item _ => .file
  | .redirect _ mimetype =>
      if symlinkdump = false ∧ mimetype = str "text/html" then .file else .symlink

theorem leafOf_node (symlinkdump : Bool) (e : Zimdump.Entry) :
    leafOf (some (e.node symlinkdump)) = some (leafKind symlinkdump e) := by
  rw [Zimdump.Entry.node, leafKind]
  cases e.kind with
  | item data => rfl
  | redirect target mimetype =>
      dsimp only
      split_ifs with hpage
      · rfl
      · rfl

theorem leafOf_shown_iff (hnodup : (dumped.map Zimdump.Entry.path).Nodup) {names : List Bytes}
    {kind : Leaf} :
    leafOf (Zimdump.shown symlinkdump dumped names) = some kind ↔
      ∃ e ∈ dumped, segments e.path = names ∧ leafKind symlinkdump e = kind := by
  constructor
  · intro hleaf
    rw [Zimdump.shown] at hleaf
    cases hfind : dumped.find? fun e => segments e.path = names with
    | none =>
        rw [hfind] at hleaf
        dsimp only at hleaf
        split at hleaf <;> cases hleaf
    | some e =>
        rw [hfind] at hleaf
        dsimp only at hleaf
        rw [leafOf_node] at hleaf
        exact ⟨e, List.mem_of_find?_eq_some hfind, of_decide_eq_true (List.find?_some hfind :),
          Option.some.inj hleaf⟩
  · rintro ⟨e, he, rfl, rfl⟩
    rw [Zimdump.shown_of_mem hnodup he]
    exact leafOf_node symlinkdump e

/-- A page or another file that is read as it was dumped. -/
theorem fileEntry_toOption {creator : ZimCreatorFS} {names : List Bytes} {path data : Bytes}
    (hflag : os.inflateHtmlFlag = false) (hurl : leafUrl names = path)
    (hread : os.read (creator.directoryPath ++ namesText names) = some data) :
    (fileEntry os creator names).toOption = repackedItem os creator path data := by
  have hcontent : getFileContent os (creator.directoryPath ++ namesText names) = some data := by
    rw [getFileContent, hread, hflag]
    rfl
  rw [fileEntry, repackedItem, hurl, hread, hcontent]
  dsimp only
  split
  · cases parseAndAdaptHtml os.toSurroundings creator.directoryPath data [] path <;> rfl
  · rfl

/-- The link of a redirect leads to the place of its target. -/
theorem followSymlink_node (hdirectory : (0 : UInt8) ∉ directory) {e e' : Zimdump.Entry}
    {mimetype : Bytes} (hkind : e.kind = .redirect e'.path mimetype) (he : Zimdump.Storable e)
    (he' : Zimdump.Storable e') (hapart : Zimdump.Apart e' e) :
    Zimdump.followSymlink (Zimdump.place directory (segments e.path))
        (cStr (computeRelativePath e.path e'.path)) =
      Zimdump.place directory (segments e'.path) := by
  have hplain : PlainPath e.path := fun s hs => (he s hs).1
  have hplain' : PlainPath e'.path := fun s hs => (he' s hs).1
  have hancestor : ¬ Ancestor e'.path e.path := fun h =>
    hapart.1 (h.trans (List.dropLast_prefix _))
  have hpath : (Zimdump.Dump.splitPath e.path).1 ++
      (Zimdump.Dump.truncated (Zimdump.Dump.splitPath e.path).2 0).1 = e.path :=
    Zimdump.relativePath_of_storable (d := ⟨[], [], 0, none⟩) he
  have hpage : ¬ Zimdump.IsPage true mimetype := fun h => absurd h.1 (by decide)
  have hleads :=
    Zimdump.leadsTo_symlink hdirectory hkind hplain hplain' e'.noNul hancestor hpage 0
  have hnames : Zimdump.linkNames e.path e'.path false = segments e'.path := by
    have htruncated : (Zimdump.Dump.truncated (Zimdump.Dump.splitPath e'.path).2 0).1 =
        (Zimdump.Dump.splitPath e'.path).2 :=
      Zimdump.truncated_of_le (Zimdump.FileName.of_dir he').2.2.2.2 0
    rw [Zimdump.segments_eq_dirsOf e'.path, ← htruncated]
    exact (Zimdump.linkNames_eq_iff hancestor false 0).mpr
      ⟨(Zimdump.FileName.of_dir he').2.2.2.2, fun s _ => rfl⟩
  rw [hpath, Zimdump.outputCall, hkind] at hleads
  have hlink := Option.some.inj hleads
  rw [Zimdump.locate_path hdirectory he] at hlink
  rw [hlink, Zimdump.place, ← hnames]

end Leaves

theorem exists_ok_iff {ε α : Type} {r : Except ε α} :
    (∃ a, r = .ok a) ↔ r.toOption.isSome = true := by
  cases r with
  | error e => exact iff_of_false (fun ⟨_, h⟩ => nomatch h) nofun
  | ok a => exact iff_of_true ⟨a, rfl⟩ rfl

theorem ok_eq_iff {ε α : Type} {r : Except ε α} {a : α} : r = .ok a ↔ r.toOption = some a := by
  cases r with
  | error e => exact iff_of_false nofun nofun
  | ok a' =>
      show _ ↔ some a' = some a
      rw [Except.ok.injEq, Option.some.injEq]

theorem getItem_of_not_redirect {archive : Archive} {item : Entry} (h : item.isRedirect = false)
    (watchdog : Nat) : Zimrecreate.getItem archive watchdog item = some item := by
  obtain ⟨path, title, kind⟩ := item
  cases kind with
  | item mimetype data => exact Zimrecreate.getItem_item ..
  | redirect target => cases h

section Entries

variable {archive : Archive} {watchdog : Nat} {entry : Entry} {e : Zimdump.Entry}

theorem path_of_dumpedEntry (h : dumpedEntry archive watchdog entry = some e) :
    e.path = entry.path := by
  obtain ⟨kind, -, h⟩ := Option.bind_eq_some_iff.mp h
  split at h
  · cases h
    rfl
  · cases h

theorem kind_of_dumpedEntry (h : dumpedEntry archive watchdog entry = some e) :
    dumpedKind archive watchdog entry = some e.kind := by
  obtain ⟨kind, hkind, h⟩ := Option.bind_eq_some_iff.mp h
  split at h
  · cases h
    exact hkind
  · cases h

/-- A redirect is dumped with the path of the item that it leads to. -/
theorem exists_item_of_redirect {title target : Bytes} {path : Bytes} {kind : Zimdump.EntryKind}
    (h : dumpedKind archive watchdog ⟨path, title, .redirect target⟩ = some kind) :
    ∃ path' title' mimetype data,
      Zimrecreate.getItem archive watchdog ⟨path, title, .redirect target⟩ =
        some ⟨path', title', .item mimetype data⟩ ∧ kind = .redirect path' mimetype := by
  rw [dumpedKind] at h
  dsimp only at h
  split at h
  · next path' title' mimetype data hget =>
      exact ⟨path', title', mimetype, data, hget, (Option.some.inj h).symm⟩
  · cases h

end Entries

/-! ## The two programs -/

/-- An archive, all entries of which could be followed, was dumped without
conflicts, and the system shows the directory to `zimwriterfs`.  That does not
inflate pages. -/
structure Handed (archive : Archive) (watchdog : Nat) (iterEfficient : List Entry)
    (dumped : List Zimdump.Entry) (disk : Zimdump.Disk) (os : Os) (directory : Bytes)
    (base : CanonicalPath) (listing : List (Bytes × DType)) (tree : FileTree Bytes Leaf) :
    Prop where
  perm : iterEfficient.Perm archive.entries
  followed : iterEfficient.mapM (dumpedEntry archive watchdog) = some dumped
  storable : ∀ e ∈ dumped, Zimdump.Storable e
  separate : Zimdump.Separate dumped
  noNul : (0 : UInt8) ∉ directory
  shows : ShowsDisk os disk directory base listing tree
  plainPages : os.inflateHtmlFlag = false

section Programs

variable {archive : Archive} {watchdog : Nat} {iterEfficient : List Entry}
  {dumped : List Zimdump.Entry} {disk : Zimdump.Disk} {os : Os} {directory : Bytes}
  {base : CanonicalPath} {listing : List (Bytes × DType)} {tree : FileTree Bytes Leaf}

namespace Handed

variable (h : Handed archive watchdog iterEfficient dumped disk os directory base listing tree)

include h

theorem mem_dumped {e : Zimdump.Entry} :
    e ∈ dumped ↔ ∃ entry ∈ archive.entries, dumpedEntry archive watchdog entry = some e := by
  constructor
  · intro he
    obtain ⟨entry, hentry, hdump⟩ := MapM.exists_of_mem h.followed he
    exact ⟨entry, h.perm.mem_iff.mp hentry, hdump⟩
  · rintro ⟨entry, hentry, hdump⟩
    exact MapM.mem_of_eq_some h.followed (h.perm.mem_iff.mpr hentry) hdump

theorem map_path : dumped.map Zimdump.Entry.path = iterEfficient.map Entry.path :=
  MapM.map_eq_map h.followed fun _ _ => path_of_dumpedEntry

theorem nodup : (dumped.map Zimdump.Entry.path).Nodup := by
  rw [h.map_path]
  exact (h.perm.map Entry.path).nodup_iff.mpr archive.nodup

/-- Every entry was dumped. -/
theorem exists_dumped {entry : Entry} (hentry : entry ∈ archive.entries) :
    ∃ e ∈ dumped, dumpedEntry archive watchdog entry = some e := by
  have hpath : entry.path ∈ dumped.map Zimdump.Entry.path := by
    rw [h.map_path]
    exact List.mem_map_of_mem (h.perm.mem_iff.mpr hentry)
  obtain ⟨e, he, hsame⟩ := List.mem_map.mp hpath
  obtain ⟨entry', hentry', hdump⟩ := h.mem_dumped.mp he
  have hsame' : entry'.path = entry.path := (path_of_dumpedEntry hdump).symm.trans hsame
  rw [List.inj_on_of_nodup_map archive.nodup hentry' hentry hsame'] at hdump
  exact ⟨e, he, hdump⟩

theorem leafUrl_dumped {e : Zimdump.Entry} (he : e ∈ dumped) : leafUrl (segments e.path) = e.path :=
  leafUrl_segments fun s hs => isName_of_fileName (h.storable e he s hs)

variable {symlinkdump : Bool} (hdisk : ∀ names,
  disk (Zimdump.place directory names) = Zimdump.shown symlinkdump dumped names)

include hdisk

/-- The leaves of the directory are the entries that were dumped. -/
theorem get_iff {names : List Bytes} {kind : Leaf} :
    tree.get names = some (.inl kind) ↔
      ∃ e ∈ dumped, segments e.path = names ∧ leafKind symlinkdump e = kind := by
  rw [h.shows.leaf, hdisk, leafOf_shown_iff h.nodup]

/-- What is packed for a file with the path of an entry. -/
theorem packed_file {e : Zimdump.Entry} (he : e ∈ dumped) {data : Bytes}
    (hnode : e.node symlinkdump = .file data) :
    (packed os ⟨directory, base.text⟩ (segments e.path, .file)).toOption =
      (repackedItem os ⟨directory, base.text⟩ e.path data).map some := by
  have hread := (hdisk (segments e.path)).trans (Zimdump.shown_of_mem h.nodup he)
  rw [hnode] at hread
  have hfile : (fileEntry os ⟨directory, base.text⟩ (segments e.path)).toOption =
      repackedItem os ⟨directory, base.text⟩ e.path data :=
    fileEntry_toOption h.plainPages (h.leafUrl_dumped he) (h.shows.read _ _ hread)
  show ((fileEntry os ⟨directory, base.text⟩ (segments e.path)).map some).toOption = _
  rw [← hfile]
  cases fileEntry os ⟨directory, base.text⟩ (segments e.path) with
  | error failure => rfl
  | ok entry => rfl

/-- What is packed for a link with the path of an entry, which leads to an item. -/
theorem packed_symlink {e e' : Zimdump.Entry} (he : e ∈ dumped) (he' : e' ∈ dumped)
    {mimetype data : Bytes} (hredirect : e.kind = .redirect e'.path mimetype)
    (hitem : e'.kind = .item data)
    (hpage : ¬ (symlinkdump = false ∧ mimetype = str "text/html")) :
    (packed os ⟨directory, base.text⟩ (segments e.path, .symlink)).toOption =
      some (some ⟨e.path, [], .redirect e'.path⟩) := by
  have hne : e' ≠ e := by
    rintro rfl
    rw [hitem] at hredirect
    cases hredirect
  have hfollow := followSymlink_node h.noNul hredirect (h.storable e he) (h.storable e' he')
    (h.separate.apart he' he hne)
  have hnode := (hdisk (segments e.path)).trans (Zimdump.shown_of_mem h.nodup he)
  have hnode' := (hdisk (segments e'.path)).trans (Zimdump.shown_of_mem h.nodup he')
  rw [Zimdump.Entry.node, hredirect] at hnode
  dsimp only at hnode
  rw [if_neg hpage] at hnode
  rw [Zimdump.Entry.node, hitem] at hnode'
  obtain ⟨resolved, hreal, hfile, hnames⟩ := h.shows.realpath _ _ _ _ hnode hfollow hnode'
  have hlinks : LinksTo os ⟨directory, base.text⟩ base (segments e.path) (segments e'.path) :=
    ⟨segments_ne_nil _, resolved, hreal, hfile, hnames⟩
  have hsymlink := (symlinkEntry_eq_some_iff h.shows.base_ne_root rfl
    (segments_ne_nil e.path)).mpr ⟨segments e'.path, hlinks, rfl⟩
  show some (symlinkEntry os ⟨directory, base.text⟩ (segments e.path)) = _
  rw [hsymlink, h.leafUrl_dumped he, h.leafUrl_dumped he']

/-- What is packed at the path of an entry. -/
theorem packed_dumped {entry : Entry} {e : Zimdump.Entry} (hentry : entry ∈ archive.entries)
    (he : e ∈ dumped) (hdump : dumpedEntry archive watchdog entry = some e) :
    (packed os ⟨directory, base.text⟩ (segments e.path, leafKind symlinkdump e)).toOption =
      (repacked os ⟨directory, base.text⟩ symlinkdump archive watchdog entry).map some := by
  have hpath := path_of_dumpedEntry hdump
  have hkind := kind_of_dumpedEntry hdump
  obtain ⟨path, title, kind⟩ := entry
  dsimp only at hpath
  cases kind with
  | item mimetype data =>
      have hitem : e.kind = .item data := (Option.some.inj hkind).symm
      have hfile : e.node symlinkdump = .file data := by rw [Zimdump.Entry.node, hitem]
      rw [leafKind, hitem]
      dsimp only
      rw [h.packed_file hdisk he hfile, hpath]
      rfl
  | redirect target =>
      obtain ⟨path', title', mimetype, data, hget, hredirect⟩ := exists_item_of_redirect hkind
      obtain ⟨e', he', hdump'⟩ := h.exists_dumped (Zimrecreate.mem_of_getItem hentry hget)
      have hitem : e'.kind = .item data := (Option.some.inj (kind_of_dumpedEntry hdump')).symm
      obtain rfl : e'.path = path' := path_of_dumpedEntry hdump'
      rw [repacked]
      dsimp only
      rw [hget, leafKind, hredirect]
      dsimp only
      split_ifs with hpage
      · have hfile : e.node symlinkdump =
            .file (httpRedirectHtml (computeRelativePath e.path e'.path)) := by
          rw [Zimdump.Entry.node, hredirect]
          exact if_pos hpage
        rw [h.packed_file hdisk he hfile, hpath]
      · rw [h.packed_symlink hdisk he he' hredirect hitem hpage, hpath]
        rfl

/-- A leaf gives what is repacked for an entry with its URL. -/
theorem exists_entry {names : List Bytes} {kind : Leaf} (hget : tree.get names = some (.inl kind)) :
    ∃ entry ∈ archive.entries, leafUrl names = entry.path ∧
      (packed os ⟨directory, base.text⟩ (names, kind)).toOption =
        (repacked os ⟨directory, base.text⟩ symlinkdump archive watchdog entry).map some := by
  obtain ⟨e, he, rfl, rfl⟩ := (h.get_iff hdisk).mp hget
  obtain ⟨entry, hentry, hdump⟩ := h.mem_dumped.mp he
  exact ⟨entry, hentry, (h.leafUrl_dumped he).trans (path_of_dumpedEntry hdump),
    h.packed_dumped hdisk hentry he hdump⟩

/-- Every entry has a leaf. -/
theorem exists_leaf {entry : Entry} (hentry : entry ∈ archive.entries) :
    ∃ names kind, tree.get names = some (.inl kind) ∧ leafUrl names = entry.path ∧
      (packed os ⟨directory, base.text⟩ (names, kind)).toOption =
        (repacked os ⟨directory, base.text⟩ symlinkdump archive watchdog entry).map some := by
  obtain ⟨e, he, hdump⟩ := h.exists_dumped hentry
  exact ⟨segments e.path, leafKind symlinkdump e, (h.get_iff hdisk).mpr ⟨e, he, rfl, rfl⟩,
    (h.leafUrl_dumped he).trans (path_of_dumpedEntry hdump), h.packed_dumped hdisk hentry he hdump⟩

theorem packed_ok_iff :
    (∀ leaf ∈ tree.leaves, ∃ entry, packed os ⟨directory, base.text⟩ leaf = .ok entry) ↔
      ∀ entry ∈ archive.entries,
        (repacked os ⟨directory, base.text⟩ symlinkdump archive watchdog entry).isSome = true := by
  simp only [exists_ok_iff]
  constructor
  · intro hok entry hentry
    obtain ⟨names, kind, hget, -, hsame⟩ := h.exists_leaf hdisk hentry
    have hsome := hok (names, kind) ((FileTree.mem_leaves_iff h.shows.distinct).mpr hget)
    rwa [hsame, Option.isSome_map] at hsome
  · rintro hok ⟨names, kind⟩ hmem
    obtain ⟨entry, hentry, -, hsame⟩ :=
      h.exists_entry hdisk ((FileTree.mem_leaves_iff h.shows.distinct).mp hmem)
    rw [hsame, Option.isSome_map]
    exact hok entry hentry

/-- The directory leads to the same paths as the archive. -/
theorem isPacked_dumped_iff
    (hrepacked : ∀ entry ∈ archive.entries,
      (repacked os ⟨directory, base.text⟩ symlinkdump archive watchdog entry).isSome = true)
    {url : Bytes} :
    IsPacked os ⟨directory, base.text⟩ tree url ↔ archive.hasEntryByPath url = true := by
  rw [Archive.hasEntryByPath, Option.isSome_iff_exists]
  constructor
  · rintro ⟨names, kind, _, hget, rfl, -⟩
    obtain ⟨entry, hentry, hurl, -⟩ := h.exists_entry hdisk hget
    exact ⟨entry, Archive.find_eq_some_iff.mpr ⟨hentry, hurl.symm⟩⟩
  · rintro ⟨entry, hfound⟩
    obtain ⟨hentry, rfl⟩ := Archive.find_eq_some_iff.mp hfound
    obtain ⟨names, kind, hget, hurl, hsame⟩ := h.exists_leaf hdisk hentry
    obtain ⟨x, hx⟩ := Option.isSome_iff_exists.mp (hrepacked entry hentry)
    exact ⟨names, kind, x, hget, hurl, ok_eq_iff.mpr (by rw [hsame, hx]; rfl)⟩

theorem isStored_iff
    (hrepacked : ∀ entry ∈ archive.entries,
      (repacked os ⟨directory, base.text⟩ symlinkdump archive watchdog entry).isSome = true)
    {dangling : Creator.Dangling} {x : Entry} :
    IsStored dangling os ⟨directory, base.text⟩ tree x ↔ storedOf dangling archive x = true := by
  simp only [IsStored, h.isPacked_dumped_iff hdisk hrepacked, storedOf,
    ← Entry.redirectTarget_eq_some_iff]
  cases dangling with
  | stored => simp
  | discarded => cases x.redirectTarget <;> simp

theorem find_eq {zimCreator : Creator} (hempty : zimCreator.entries = [])
    {dangling : Creator.Dangling} {nodup count_lt}
    (hrepacked : ∀ entry ∈ archive.entries,
      (repacked os ⟨directory, base.text⟩ symlinkdump archive watchdog entry).isSome = true)
    (path : Bytes) :
    (((zimCreator.addAll (entriesOf os ⟨directory, base.text⟩ tree.leaves)).stored
        dangling).toArchive nodup count_lt).find path =
      ((archive.find path).bind
        (repacked os ⟨directory, base.text⟩ symlinkdump archive watchdog)).filter
          (storedOf dangling archive) := by
  refine Option.ext fun x => ?_
  rw [find_packed h.shows.distinct hempty, Option.filter_eq_some_iff, Option.bind_eq_some_iff,
    h.isStored_iff hdisk hrepacked]
  refine and_congr_left fun _ => ?_
  simp only [ok_eq_iff]
  constructor
  · rintro ⟨names, kind, hget, rfl, hx⟩
    obtain ⟨entry, hentry, hurl, hsame⟩ := h.exists_entry hdisk hget
    rw [hsame] at hx
    exact ⟨entry, Archive.find_eq_some_iff.mpr ⟨hentry, hurl.symm⟩,
      Option.map_injective (Option.some_injective _) hx⟩
  · rintro ⟨entry, hfound, hx⟩
    obtain ⟨hentry, rfl⟩ := Archive.find_eq_some_iff.mp hfound
    obtain ⟨names, kind, hget, hurl, hsame⟩ := h.exists_leaf hdisk hentry
    exact ⟨names, kind, hget, hurl, by rw [hsame, hx]; rfl⟩

/-- There are not more entries than before. -/
theorem length_entriesOf_lt :
    (entriesOf os ⟨directory, base.text⟩ tree.leaves).length < UInt32.size := by
  have hnodup : ((entriesOf os ⟨directory, base.text⟩ tree.leaves).map Entry.path).Nodup :=
    nodup_entriesOf (allNames_of_lists h.shows.lists) h.shows.distinct
  have hsubset : (entriesOf os ⟨directory, base.text⟩ tree.leaves).map Entry.path ⊆
      archive.entries.map Entry.path := by
    intro path hpath
    obtain ⟨x, hx, rfl⟩ := List.mem_map.mp hpath
    obtain ⟨names, kind, hget, hx⟩ := (mem_entriesOf_iff h.shows.distinct).mp hx
    obtain ⟨entry, hentry, hurl, -⟩ := h.exists_entry hdisk hget
    rw [path_of_packed hx, hurl]
    exact List.mem_map_of_mem hentry
  have hle := (List.subperm_of_subset hnodup hsubset).length_le
  rw [List.length_map, List.length_map] at hle
  exact Nat.lt_of_le_of_lt hle archive.count_lt

end Handed

/-- What is packed of a dump, in each of its two forms. -/
theorem packs_dumped {symlinkdump : Bool}
    (h : Handed archive watchdog iterEfficient dumped disk os directory base listing tree)
    (hdisk : ∀ names, disk (Zimdump.place directory names) = Zimdump.shown symlinkdump dumped names)
    {fuel : Nat} (hfuel : tree.depth < fuel) {zimCreator : Creator}
    (hempty : zimCreator.entries = []) (dangling : Creator.Dangling) :
    ((∃ out, Returns (packDirectory os ⟨directory, base.text⟩ dangling fuel zimCreator) out) ↔
        ∀ entry ∈ archive.entries,
          (repacked os ⟨directory, base.text⟩ symlinkdump archive watchdog entry).isSome = true) ∧
      ∀ out, Returns (packDirectory os ⟨directory, base.text⟩ dangling fuel zimCreator) out →
        ∀ path, out.find path =
          ((archive.find path).bind
            (repacked os ⟨directory, base.text⟩ symlinkdump archive watchdog)).filter
              (storedOf dangling archive) := by
  have hentries := entries_addAll hempty (entriesOf os ⟨directory, base.text⟩ tree.leaves)
  have hreturns {out : Archive} :
      Returns (packDirectory os ⟨directory, base.text⟩ dangling fuel zimCreator) out ↔ _ :=
    returns_packDirectory h.shows.opendir h.shows.lists h.shows.distinct hfuel
  constructor
  · simp only [hreturns, exists_and_left, h.packed_ok_iff hdisk]
    refine and_iff_left_of_imp fun _ => ⟨_, ?_, ?_, rfl⟩
    · rw [hentries]
      exact nodup_entriesOf (allNames_of_lists h.shows.lists) h.shows.distinct
    · rw [hentries]
      exact h.length_entriesOf_lt hdisk
  · intro out hout
    obtain ⟨hok, nodup, count_lt, rfl⟩ := hreturns.mp hout
    exact h.find_eq hdisk hempty ((h.packed_ok_iff hdisk).mp hok)

theorem storedOf_of_not_redirect {dangling : Creator.Dangling} {item : Entry}
    (h : item.isRedirect = false) : storedOf dangling archive item = true := by
  obtain ⟨path, title, kind⟩ := item
  cases kind with
  | item mimetype data => simp [storedOf, Entry.redirectTarget]
  | redirect target => cases h

/-- In an archive with the repacked entries a redirect leads to what became of
the item that it led to. -/
theorem getItem_repacked {creator : ZimCreatorFS} {dangling : Creator.Dangling} {out : Archive}
    (hfind : ∀ path,
      out.find path = ((archive.find path).bind
        (repacked os creator true archive watchdog)).filter (storedOf dangling archive))
    {entry item entry' item' : Entry} (hentry : entry ∈ archive.entries)
    (hitem : Zimrecreate.getItem archive watchdog entry = some item)
    (hentry' : repacked os creator true archive watchdog entry = some entry')
    (hitem' : repacked os creator true archive watchdog item = some item')
    (hkind : item'.isRedirect = false) : Zimrecreate.getItem out 1 entry' = some item' := by
  have hout : ∀ watchdog', Zimrecreate.getItem out watchdog' item' = some item' :=
    getItem_of_not_redirect hkind
  obtain ⟨path, title, kind⟩ := entry
  cases kind with
  | item mimetype data =>
      rw [Zimrecreate.getItem_item] at hitem
      obtain rfl := Option.some.inj hitem
      obtain rfl := Option.some.inj (hentry'.symm.trans hitem')
      exact hout 1
  | redirect target =>
      have hredirect : entry' = ⟨path, [], .redirect item.path⟩ := by
        rw [repacked] at hentry'
        dsimp only at hentry'
        rw [hitem] at hentry'
        obtain ⟨path', title', kind'⟩ := item
        cases kind' with
        | item mimetype data => exact (Option.some.inj hentry').symm
        | redirect target' => cases hentry'
      rw [hredirect, Zimrecreate.getItem_redirect, hfind,
        Archive.find_of_mem (Zimrecreate.mem_of_getItem hentry hitem), Option.bind_some, hitem',
        Option.filter_some_pos (storedOf_of_not_redirect hkind), Option.bind_some]
      exact hout 0

end Programs

/-! ## A dump that is packed -/

/-- A style sheet in a directory, and a redirect to it. -/
def dumpedArchive : Archive where
  entries := [⟨str "link", str "Link", .redirect (str "sub/x.css")⟩,
    ⟨str "sub/x.css", str "X", .item (str "text/css") (str "p {}")⟩]
  nodup := by decide
  count_lt := by decide
  metadata := []
  uuid := Zimrecreate.sampleUuid
  mainPath := none

def dumpedEntries : List Zimdump.Entry :=
  [⟨str "link", .redirect (str "sub/x.css") (str "text/css"), by decide⟩,
    ⟨str "sub/x.css", .item (str "p {}"), by decide⟩]

def dumpedDisk : Zimdump.Disk :=
  (Zimdump.emptyDirectory (str "d")).after (Zimdump.Dump.dumpFiles
    (Zimdump.treeFileSystem (Zimdump.emptyDirectory (str "d"))) (str "d") true (fun _ => true)
    dumpedEntries).events

theorem serves_dumped {tree : List Bytes → Option Zimdump.Node} :
    Zimdump.Serves (Zimdump.treeFileSystem (Zimdump.emptyDirectory (str "d"))) (str "d")
      (Zimdump.emptyDirectory (str "d")) tree := by
  refine Zimdump.treeFileSystem_serves (by decide) (if_pos rfl) fun names hnames => if_neg fun h => ?_
  exact hnames (Zimdump.place_inj.mp (h : _ = Zimdump.place (str "d") []))

theorem dumpedDisk_eq (names : List Bytes) :
    dumpedDisk (Zimdump.place (str "d") names) = Zimdump.shown true dumpedEntries names :=
  (Zimdump.dump_leaves serves_dumped (by decide) (by decide) (by decide) _).2 names

theorem dumpedDisk_leaf {names : List Bytes} {kind : Leaf} :
    leafOf (dumpedDisk (Zimdump.place (str "d") names)) = some kind ↔
      names = [str "link"] ∧ kind = .symlink ∨ names = [str "sub", str "x.css"] ∧ kind = .file := by
  have hlink : segments (str "link") = [str "link"] := by decide
  have hsheet : segments (str "sub/x.css") = [str "sub", str "x.css"] := by decide
  rw [dumpedDisk_eq, leafOf_shown_iff (by decide)]
  simp [dumpedEntries, hlink, hsheet, leafKind, eq_comm]

theorem shows_dumped : ShowsDisk sampleOs dumpedDisk (str "d") sampleBase
    [(str ".", .dir), (str "link", .lnk), (str "sub", .dir), (str "..", .dir)] sampleTree where
  base_ne_root := List.cons_ne_nil _ _
  opendir := rfl
  lists := lists_sample
  distinct := distinct_sample
  leaf names kind := by
    rw [dumpedDisk_leaf, ← FileTree.mem_leaves_iff distinct_sample]
    show (names, kind) ∈
      [([str "link"], Leaf.symlink), ([str "sub", str "x.css"], Leaf.file)] ↔ _
    simp
  read names data hfile := by
    have hleaf : leafOf (dumpedDisk (Zimdump.place (str "d") names)) = some .file := by rw [hfile]; rfl
    obtain rfl : names = [str "sub", str "x.css"] := by simpa using dumpedDisk_leaf.mp hleaf
    have hdata : dumpedDisk (Zimdump.place (str "d") [str "sub", str "x.css"]) =
        some (.file (str "p {}")) := (dumpedDisk_eq _).trans (by decide)
    cases hfile.symm.trans hdata
    rfl
  realpath names target below data hlink hfollow _ := by
    have hleaf : leafOf (dumpedDisk (Zimdump.place (str "d") names)) = some .symlink := by
      rw [hlink]
      rfl
    obtain rfl : names = [str "link"] := by simpa using dumpedDisk_leaf.mp hleaf
    have htarget : dumpedDisk (Zimdump.place (str "d") [str "link"]) =
        some (.link (str "sub/x.css")) := (dumpedDisk_eq _).trans (by decide)
    cases hlink.symm.trans htarget
    have hplace : Zimdump.followSymlink (Zimdump.place (str "d") [str "link"]) (str "sub/x.css") =
        Zimdump.place (str "d") [str "sub", str "x.css"] := by decide
    obtain rfl := Zimdump.place_inj.mp (hfollow.symm.trans hplace)
    exact ⟨_, rfl, rfl, rfl⟩

end ZimTools.Zimwriterfs
