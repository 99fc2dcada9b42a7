import ZimTools.Incremental.Archive
import ZimTools.Zimrecreate.PatchItem

/-!
# Recreated archives

`zimrecreate` gives a new creator what it reads of a ZIM file.  With the new
namespace scheme that is a copy, which is its own copy (`create_newScheme`), but
for the metadata: of the illustrations only one is given on.  With the old scheme
the entries lose their namespace, and those of some namespaces are dropped.  Where
that leaves all names apart, redirects lead to the same items as before as long as
no redirect led to an entry that has lost its name (`create_oldScheme`).
-/

namespace ZimTools.Zimrecreate

open Bytes Loop Incremental

/-! ## The program -/

/-- What `zimrecreate` reads of a ZIM file.  `iterEfficient` passes over the
entries in the order of their clusters, and `illustration` is the image that
`getIllustrationItem` finds, if there is one. -/
structure Origin where
  archive : Archive
  hasNewNamespaceScheme : Bool
  illustration : Option Bytes
  iterEfficient : List Entry
  perm : iterEfficient.Perm archive.entries

/-- `entry.getItem(true)`, which follows at most `watchdog` redirects. -/
def getItem (archive : Archive) : Nat → Entry → Option Entry
  | watchdog, entry =>
      match entry.kind with
      | .item .. => some entry
      | .redirect target =>
          match watchdog with
          | 0 => none
          | watchdog + 1 => (archive.find target).bind (getItem archive watchdog)

/-- `origin.getMainEntry().getItem(true)`. -/
def getMainItem (archive : Archive) (watchdog : Nat) : Option Entry :=
  (archive.mainPath.bind archive.find).bind (getItem archive watchdog)

def getMetadataKeys (archive : Archive) : List Bytes := archive.metadata.map Prod.fst

/-- Metadata that is not copied: the library makes the counter, and
`addIllustration` gives one of the illustrations. -/
def isSkipped (metakey : Bytes) : Bool :=
  metakey == str "Counter" || (str "Illustration_").isPrefixOf metakey

def illustrationKey : Bytes := str "Illustration_48x48@1"

/-- An entry of the indices, of the metadata or of the well known entries. -/
def isDropped (path : Bytes) : Bool :=
  match path with
  | [] => false
  | ns :: _ => ns == char 'Z' || ns == char 'X' || ns == char 'M' || ns == char 'W'

/-- `path.substr(2, std::string::npos)`. -/
def dropNamespace (path : Bytes) : Program Bytes :=
  if path.length < 2 then throw .exception else pure (path.drop 2)

def setMainPath (origin : Origin) (watchdog : Nat) (zimCreator : Creator) : Creator :=
  match getMainItem origin.archive watchdog with
  | none => zimCreator
  | some item =>
      if origin.hasNewNamespaceScheme then zimCreator.setMainPath item.path
      else if item.path.length < 2 then zimCreator
      else zimCreator.setMainPath (item.path.drop 2)

/-- `zimCreator.addIllustration(48, illustration.getData())`. -/
def addIllustration (origin : Origin) (zimCreator : Creator) : Creator :=
  match origin.illustration with
  | none => zimCreator
  | some data => zimCreator.addMetadata illustrationKey data

def addMetadata (origin : Origin) (zimCreator : Creator) (metakey : Bytes) : Program Creator :=
  if isSkipped metakey then pure zimCreator
  else do
    let metadata ← origin.archive.getMetadata metakey
    pure (zimCreator.addMetadata metakey metadata)

def addEntry (origin : Origin) (zimCreator : Creator) (entry : Entry) : Program Creator :=
  if origin.hasNewNamespaceScheme then zimCreator.copyEntry origin.archive entry
  else if isDropped entry.path then pure zimCreator
  else do
    let path ← dropNamespace entry.path
    match entry.kind with
    | .redirect _ =>
        let target ← origin.archive.getRedirectEntry entry
        let redirectPath ← dropNamespace target.path
        pure (zimCreator.addRedirection path entry.title redirectPath)
    | .item mimetype data =>
        let item : Item := ⟨entry.path, entry.title, mimetype, data⟩
        pure (zimCreator.addItem (PatchItem.getPath item) (PatchItem.getTitle item)
          (PatchItem.getMimeType item) (PatchItem.getContentProvider item).content)

def create (dangling : Creator.Dangling) (origin : Origin) (watchdog : Nat) (uuid : Uuid) :
    Program Archive := do
  let zimCreator := Creator.startZimCreation uuid
  let zimCreator := setMainPath origin watchdog zimCreator
  let zimCreator := addIllustration origin zimCreator
  let zimCreator ← (getMetadataKeys origin.archive).foldlM (addMetadata origin) zimCreator
  let zimCreator ← origin.iterEfficient.foldlM (addEntry origin) zimCreator
  zimCreator.finish dangling

/-! ## What is added -/

/-- The name of an entry in the archive without namespaces.  Redirects are cut
where items go through `PatchItem::getPath`. -/
def newPath (entry : Entry) : Bytes :=
  match entry.kind with
  | .item mimetype data => PatchItem.getPath ⟨entry.path, entry.title, mimetype, data⟩
  | .redirect _ => entry.path.drop 2

/-- An entry of the old scheme in the archive without namespaces. -/
def recreated (entry : Entry) : Entry where
  path := newPath entry
  title := entry.title
  kind :=
    match entry.kind with
    | .item mimetype data =>
        .item mimetype
          (PatchItem.getContentProvider ⟨entry.path, entry.title, mimetype, data⟩).content
    | .redirect target => .redirect (target.drop 2)

/-- The entry that the creator gets for one of the origin. -/
def added (origin : Origin) (entry : Entry) : Option Entry :=
  if origin.hasNewNamespaceScheme then some entry
  else if isDropped entry.path then none
  else some (recreated entry)

/-- What must hold of an entry of the origin for the program to go on. -/
def Addable (origin : Origin) (entry : Entry) : Prop :=
  if origin.hasNewNamespaceScheme then origin.archive.Copyable entry
  else isDropped entry.path = false →
    2 ≤ entry.path.length ∧ origin.archive.Copyable entry ∧
      ∀ target, entry.kind = .redirect target → 2 ≤ target.length

/-- The metadata that a recreated archive has. -/
def metadataOf (origin : Origin) : List (Bytes × Bytes) :=
  (origin.illustration.map (illustrationKey, ·)).toList ++
    ((getMetadataKeys origin.archive).filter fun metakey => !isSkipped metakey).map fun metakey =>
      (metakey, (origin.archive.metadata.lookup metakey).getD [])

/-- The main path that a recreated archive has. -/
def mainPathOf (origin : Origin) (watchdog : Nat) : Option Bytes :=
  (getMainItem origin.archive watchdog).bind fun item =>
    if origin.hasNewNamespaceScheme then some item.path
    else if item.path.length < 2 then none
    else some (item.path.drop 2)

@[simp] theorem returns_dropNamespace {path r : Bytes} :
    Returns (dropNamespace path) r ↔ 2 ≤ path.length ∧ r = path.drop 2 := by
  rw [dropNamespace]
  split
  · next h => simp [Nat.not_le.mpr h]
  · next h => simp [Nat.not_lt.mp h]

theorem setMainPath_eq (origin : Origin) (watchdog : Nat) (uuid : Uuid) :
    setMainPath origin watchdog (Creator.startZimCreation uuid) =
      ⟨[], [], uuid, mainPathOf origin watchdog⟩ := by
  rw [setMainPath, mainPathOf]
  cases getMainItem origin.archive watchdog with
  | none => rfl
  | some item =>
      dsimp only [Option.bind_some]
      split
      · rfl
      · split <;> rfl

theorem lookup_isSome {archive : Archive} {metakey : Bytes} :
    (archive.metadata.lookup metakey).isSome = true ↔ metakey ∈ getMetadataKeys archive := by
  rw [List.lookup_isSome_iff, getMetadataKeys, List.mem_map]
  constructor
  · rintro ⟨pair, hmem, heq⟩
    exact ⟨pair, hmem, (eq_of_beq heq).symm⟩
  · rintro ⟨pair, hmem, rfl⟩
    exact ⟨pair, hmem, BEq.rfl⟩

theorem returns_addMetadata {origin : Origin} {zimCreator r : Creator} {metakey : Bytes}
    (h : metakey ∈ getMetadataKeys origin.archive) :
    Returns (addMetadata origin zimCreator metakey) r ↔
      r = { zimCreator with
        metadata := zimCreator.metadata ++
          if isSkipped metakey then []
          else [(metakey, (origin.archive.metadata.lookup metakey).getD [])] } := by
  obtain ⟨value, hvalue⟩ := Option.isSome_iff_exists.mp (lookup_isSome.mpr h)
  rw [addMetadata, hvalue]
  split
  · simp
  · simp only [returns_bind, Archive.returns_getMetadata, hvalue, Option.some.injEq,
      exists_eq_left', returns_pure, Creator.addMetadata, Option.getD_some]

theorem returns_metadataLoop {origin : Origin} : ∀ {metakeys : List Bytes} {zimCreator r : Creator},
    (∀ metakey ∈ metakeys, metakey ∈ getMetadataKeys origin.archive) →
    (Returns (metakeys.foldlM (addMetadata origin) zimCreator) r ↔
      r = { zimCreator with
        metadata := zimCreator.metadata ++
          (metakeys.filter fun metakey => !isSkipped metakey).map fun metakey =>
            (metakey, (origin.archive.metadata.lookup metakey).getD []) })
  | [], zimCreator, r, _ => by simp
  | metakey :: metakeys, zimCreator, r, h => by
      obtain ⟨hmetakey, hmetakeys⟩ := List.forall_mem_cons.mp h
      rw [List.foldlM_cons, returns_bind]
      simp only [returns_addMetadata hmetakey, exists_eq_left, returns_metadataLoop hmetakeys]
      cases hskipped : isSkipped metakey <;> simp [hskipped]

/-- An entry that does not stop the program is added in its new form. -/
theorem returns_addEntry {origin : Origin} {zimCreator r : Creator} {entry : Entry} :
    Returns (addEntry origin zimCreator entry) r ↔
      Addable origin entry ∧ r = zimCreator.addAll (added origin entry).toList := by
  rw [addEntry, Addable, added]
  cases origin.hasNewNamespaceScheme with
  | true => simp [Creator.returns_copyEntry]
  | false =>
      cases hdropped : isDropped entry.path with
      | true => simp
      | false =>
          simp only [Bool.false_eq_true, if_false, forall_const]
          obtain ⟨path, title, kind⟩ := entry
          cases kind with
          | item mimetype data =>
              simp only [returns_bind, returns_dropNamespace, returns_pure]
              constructor
              · rintro ⟨_, ⟨hlength, -⟩, rfl⟩
                refine ⟨⟨hlength, fun _ hkind => ?_, fun _ hkind => ?_⟩, rfl⟩
                · cases hkind
                · cases hkind
              · rintro ⟨hadd, rfl⟩
                exact ⟨_, ⟨hadd.1, rfl⟩, rfl⟩
          | redirect target =>
              simp only [returns_bind, returns_dropNamespace, returns_pure,
                Archive.getRedirectEntry, Archive.returns_getEntryByPath]
              constructor
              · rintro ⟨_, ⟨hlength, rfl⟩, entry', hfind, _, ⟨htarget, rfl⟩, rfl⟩
                obtain rfl := Archive.find_path hfind
                refine ⟨⟨hlength, ?_, ?_⟩, rfl⟩
                · rintro _ ⟨⟩
                  rw [Archive.hasEntryByPath, hfind]
                  rfl
                · rintro _ ⟨⟩
                  exact htarget
              · rintro ⟨⟨hlength, hcopy, htarget⟩, rfl⟩
                obtain ⟨entry', hfind⟩ := Option.isSome_iff_exists.mp (hcopy target rfl)
                obtain rfl := Archive.find_path hfind
                exact ⟨_, ⟨hlength, rfl⟩, entry', hfind, _, ⟨htarget _ rfl, rfl⟩, rfl⟩

/-- What the creator has been given in the end. -/
def outCreator (origin : Origin) (watchdog : Nat) (uuid : Uuid) : Creator where
  entries := origin.iterEfficient.filterMap (added origin)
  metadata := metadataOf origin
  uuid := uuid
  mainPath := mainPathOf origin watchdog

theorem returns_create {dangling : Creator.Dangling} {origin : Origin} {watchdog : Nat}
    {uuid : Uuid} {out : Archive} :
    Returns (create dangling origin watchdog uuid) out ↔
      (∀ entry ∈ origin.archive.entries, Addable origin entry) ∧
        ∃ nodup count_lt, out = ((outCreator origin watchdog uuid).stored dangling).toArchive
          (Creator.nodup_stored nodup) (Creator.length_stored_lt count_lt) := by
  have hstart : addIllustration origin (setMainPath origin watchdog (.startZimCreation uuid)) =
      ⟨[], (origin.illustration.map (illustrationKey, ·)).toList, uuid,
        mainPathOf origin watchdog⟩ := by
    rw [setMainPath_eq, addIllustration]
    cases origin.illustration <;> rfl
  have hentries : ∀ {creator r : Creator},
      Returns (origin.iterEfficient.foldlM (addEntry origin) creator) r ↔
        (∀ entry ∈ origin.archive.entries, Addable origin entry) ∧
          r = creator.addAll (origin.iterEfficient.filterMap (added origin)) := by
    intro creator r
    simp only [Creator.returns_foldlM_addAll fun entry _ creator r =>
      @returns_addEntry origin creator r entry,
      origin.perm.mem_iff]
  rw [create]
  simp only [returns_bind, hstart, returns_metadataLoop fun _ h => h, exists_eq_left, hentries,
    Creator.returns_finish]
  constructor
  · rintro ⟨_, ⟨hadd, rfl⟩, hout⟩
    exact ⟨hadd, hout⟩
  · rintro ⟨hadd, hout⟩
    exact ⟨_, ⟨hadd, rfl⟩, hout⟩

/-! ## Metadata -/

theorem lookup_map_key {α β : Type} [BEq α] [LawfulBEq α] (f : α → β) (a : α) :
    ∀ l : List α, (l.map fun x => (x, f x)).lookup a = if l.elem a then some (f a) else none
  | [] => rfl
  | b :: l => by
      rw [List.map_cons, List.lookup_cons, List.elem_cons, lookup_map_key f a l]
      cases hab : a == b with
      | true => rw [eq_of_beq hab]; simp
      | false => simp

/-- Metadata that the creator does not make itself is copied. -/
theorem lookup_metadataOf {origin : Origin} {metakey : Bytes} (h : isSkipped metakey = false) :
    (metadataOf origin).lookup metakey = origin.archive.metadata.lookup metakey := by
  have hillustration : ((origin.illustration.map (illustrationKey, ·)).toList).lookup metakey = none := by
    rw [List.lookup_eq_none_iff]
    intro pair hpair
    obtain ⟨data, -, rfl⟩ : ∃ data, origin.illustration = some data ∧ (illustrationKey, data) = pair := by
      simpa using hpair
    have hne : metakey ≠ illustrationKey := by
      rintro rfl
      exact absurd h (by decide)
    simpa using hne
  have hkey : metakey ∈ (getMetadataKeys origin.archive).filter (fun metakey => !isSkipped metakey) ↔
      (origin.archive.metadata.lookup metakey).isSome = true := by
    rw [List.mem_filter, h, lookup_isSome]
    exact and_iff_left rfl
  rw [metadataOf, List.lookup_append, hillustration, Option.none_or, lookup_map_key]
  cases hlookup : origin.archive.metadata.lookup metakey with
  | none =>
      refine if_neg fun helem => ?_
      have hsome := hkey.mp (List.elem_iff.mp helem)
      rw [hlookup] at hsome
      cases hsome
  | some value => exact if_pos (List.elem_iff.mpr (hkey.mpr (by rw [hlookup]; rfl)))

/-- Of what the creator makes itself only the illustration is there. -/
theorem lookup_metadataOf_skipped {origin : Origin} {metakey : Bytes}
    (h : isSkipped metakey = true) :
    (metadataOf origin).lookup metakey =
      if metakey = illustrationKey then origin.illustration else none := by
  have hkey : metakey ∉ (getMetadataKeys origin.archive).filter fun metakey => !isSkipped metakey := by
    rw [List.mem_filter, h]
    exact fun hmem => Bool.false_ne_true hmem.2
  rw [metadataOf, List.lookup_append, lookup_map_key,
    if_neg fun helem => hkey (List.elem_iff.mp helem), Option.or_none]
  cases origin.illustration with
  | none => simp
  | some data => simp only [Option.map_some, Option.toList_some, List.lookup_singleton, beq_iff_eq]

/-- The metadata that a recreated archive has for a key. -/
def newMetadata (origin : Origin) (metakey : Bytes) : Option Bytes :=
  if isSkipped metakey then if metakey = illustrationKey then origin.illustration else none
  else origin.archive.metadata.lookup metakey

theorem lookup_metadataOf_eq (origin : Origin) (metakey : Bytes) :
    (metadataOf origin).lookup metakey = newMetadata origin metakey := by
  rw [newMetadata]
  split
  · next hskipped => exact lookup_metadataOf_skipped hskipped
  · next hskipped => exact lookup_metadataOf (Bool.not_eq_true _ ▸ hskipped)

/-! ## Following redirects -/

theorem getItem_item (archive : Archive) (watchdog : Nat) (path title mimetype data : Bytes) :
    getItem archive watchdog ⟨path, title, .item mimetype data⟩ =
      some ⟨path, title, .item mimetype data⟩ := by
  rw [getItem]

theorem getItem_redirect (archive : Archive) (watchdog : Nat) (path title target : Bytes) :
    getItem archive (watchdog + 1) ⟨path, title, .redirect target⟩ =
      (archive.find target).bind (getItem archive watchdog) := by
  rw [getItem]

theorem getItem_redirect_zero (archive : Archive) (path title target : Bytes) :
    getItem archive 0 ⟨path, title, .redirect target⟩ = none := by
  rw [getItem]

/-- What `getItem` comes to is an item, and following it stays there. -/
theorem getItem_of_getItem {archive : Archive} {watchdog' : Nat} : ∀ {watchdog : Nat}
    {entry item : Entry}, getItem archive watchdog entry = some item →
      ∀ archive', getItem archive' watchdog' item = some item
  | watchdog, ⟨path, title, .item mimetype data⟩, item, h, archive' => by
      rw [getItem_item] at h
      obtain rfl := Option.some.inj h
      exact getItem_item ..
  | 0, ⟨path, title, .redirect target⟩, item, h, archive' => by
      rw [getItem_redirect_zero] at h
      cases h
  | watchdog + 1, ⟨path, title, .redirect target⟩, item, h, archive' => by
      rw [getItem_redirect] at h
      obtain ⟨entry, -, hentry⟩ := Option.bind_eq_some_iff.mp h
      exact getItem_of_getItem hentry archive'

/-- From an entry of an archive it comes to one. -/
theorem mem_of_getItem {archive : Archive} : ∀ {watchdog : Nat} {entry item : Entry},
    entry ∈ archive.entries → getItem archive watchdog entry = some item → item ∈ archive.entries
  | watchdog, ⟨path, title, .item mimetype data⟩, item, hentry, h => by
      rw [getItem_item] at h
      obtain rfl := Option.some.inj h
      exact hentry
  | 0, ⟨path, title, .redirect target⟩, item, hentry, h => by
      rw [getItem_redirect_zero] at h
      cases h
  | watchdog + 1, ⟨path, title, .redirect target⟩, item, hentry, h => by
      rw [getItem_redirect] at h
      obtain ⟨entry, hfind, hitem⟩ := Option.bind_eq_some_iff.mp h
      exact mem_of_getItem (Archive.find_eq_some_iff.mp hfind).1 hitem

theorem mem_of_getMainItem {archive : Archive} {watchdog : Nat} {item : Entry}
    (h : getMainItem archive watchdog = some item) : item ∈ archive.entries := by
  obtain ⟨entry, hentry, hitem⟩ := Option.bind_eq_some_iff.mp h
  obtain ⟨path, -, hfind⟩ := Option.bind_eq_some_iff.mp hentry
  exact mem_of_getItem (Archive.find_eq_some_iff.mp hfind).1 hitem

/-! ## The new namespace scheme -/

section NewScheme

variable {dangling : Creator.Dangling} {origin : Origin} {watchdog : Nat} {uuid : Uuid}
  {out : Archive}

theorem added_newScheme (hnew : origin.hasNewNamespaceScheme = true) :
    added origin = some := by
  funext entry
  rw [added, hnew]
  rfl

theorem entries_newScheme (hnew : origin.hasNewNamespaceScheme = true) :
    (outCreator origin watchdog uuid).entries.Perm origin.archive.entries := by
  rw [outCreator, added_newScheme hnew, List.filterMap_some]
  exact origin.perm

/-- Where no redirect dangles, nothing is discarded. -/
theorem stored_newScheme (hnew : origin.hasNewNamespaceScheme = true)
    (hclosed : origin.archive.Closed) :
    (outCreator origin watchdog uuid).stored dangling = outCreator origin watchdog uuid := by
  refine Creator.stored_eq_self fun entry hentry => Creator.resolves_eq_true_iff.mpr ?_
  intro target htarget
  have hperm : (outCreator origin watchdog uuid).entries.Perm origin.archive.entries :=
    entries_newScheme hnew
  have hkind : entry.kind = .redirect target := Entry.redirectTarget_eq_some_iff.mp htarget
  obtain ⟨entry', hfind⟩ :=
    Option.isSome_iff_exists.mp (hclosed entry (hperm.mem_iff.mp hentry) target hkind)
  obtain ⟨hmem, hpath⟩ := Archive.find_eq_some_iff.mp hfind
  exact ⟨entry', hperm.mem_iff.mpr hmem, hpath⟩

theorem returns_newScheme (hnew : origin.hasNewNamespaceScheme = true) :
    Returns (create dangling origin watchdog uuid) out ↔ origin.archive.Closed ∧
      ∃ nodup count_lt, out = (outCreator origin watchdog uuid).toArchive nodup count_lt := by
  have hclosed : (∀ entry ∈ origin.archive.entries, Addable origin entry) ↔ origin.archive.Closed := by
    refine forall₂_congr fun entry _ => ?_
    rw [Addable, hnew]
    rfl
  rw [returns_create, hclosed]
  refine and_congr_right fun h => ?_
  simp only [stored_newScheme hnew h]

/-- The entries of an archive, and the metadata that are given on. -/
structure SameContent (origin : Origin) (out : Archive) : Prop where
  entries : ∀ path, out.find path = origin.archive.find path
  metadata : ∀ metakey, out.metadata.lookup metakey = newMetadata origin metakey

theorem sameContent_newScheme (hnew : origin.hasNewNamespaceScheme = true)
    (h : Returns (create dangling origin watchdog uuid) out) : SameContent origin out := by
  obtain ⟨-, nodup, count_lt, rfl⟩ := (returns_newScheme hnew).mp h
  refine ⟨fun path => Option.ext fun entry => ?_, lookup_metadataOf_eq origin⟩
  rw [Archive.find_eq_some_iff, Archive.find_eq_some_iff, Creator.mem_toArchive,
    (entries_newScheme hnew).mem_iff]

theorem mainPath_newScheme (hnew : origin.hasNewNamespaceScheme = true) :
    mainPathOf origin watchdog = (getMainItem origin.archive watchdog).map Entry.path := by
  rw [mainPathOf, hnew]
  cases getMainItem origin.archive watchdog <;> rfl

/-- The main page is the item behind the main entry, and remains it. -/
theorem getMainItem_newScheme (hnew : origin.hasNewNamespaceScheme = true)
    (h : Returns (create dangling origin watchdog uuid) out) (watchdog' : Nat) :
    getMainItem out watchdog' = getMainItem origin.archive watchdog := by
  have hsame := sameContent_newScheme hnew h
  obtain ⟨-, nodup, count_lt, rfl⟩ := (returns_newScheme hnew).mp h
  have hmain : ((outCreator origin watchdog uuid).toArchive nodup count_lt).mainPath =
      (getMainItem origin.archive watchdog).map Entry.path := mainPath_newScheme hnew
  rw [getMainItem, hmain]
  cases hitem : getMainItem origin.archive watchdog with
  | none => rfl
  | some item =>
      obtain ⟨entry, -, hget⟩ := Option.bind_eq_some_iff.mp hitem
      rw [Option.map_some, Option.bind_some, hsame.entries,
        Archive.find_of_mem (mem_of_getMainItem hitem), Option.bind_some,
        getItem_of_getItem hget]

/-- The entries of a finished archive are in the order of their paths. -/
theorem sorted_toArchive (creator : Creator) (nodup count_lt) :
    (creator.toArchive nodup count_lt).entries.Pairwise fun a b => a.path ≤ b.path := by
  have : Std.Total (fun a b : Entry => a.path ≤ b.path) := ⟨fun a b => List.le_total a.path b.path⟩
  have : IsTrans Entry (fun a b => a.path ≤ b.path) := ⟨fun _ _ _ => List.le_trans⟩
  exact List.pairwise_insertionSort _ _

/-- Archives that a creator has made are determined by their sets of entries. -/
theorem entries_eq_of_perm {creator : Creator} (nodup count_lt) {archive : Archive}
    (hsorted : archive.entries.Pairwise fun a b => a.path ≤ b.path)
    (h : creator.entries.Perm archive.entries) :
    (creator.toArchive nodup count_lt).entries = archive.entries := by
  refine List.Perm.eq_of_pairwise (fun a b ha hb hab hba => ?_) (sorted_toArchive ..) hsorted
    ((List.perm_insertionSort _ _).trans h)
  exact List.inj_on_of_nodup_map archive.nodup (h.mem_iff.mp (Creator.mem_toArchive.mp ha)) hb
    (Std.le_antisymm hab hba)

/-- What a recreated archive has as metadata is what it would be recreated with. -/
theorem metadataOf_metadataOf {origin' : Origin}
    (hmetadata : origin'.archive.metadata = metadataOf origin)
    (hillustration : origin'.illustration = origin'.archive.metadata.lookup illustrationKey) :
    metadataOf origin' = metadataOf origin := by
  let kept := (getMetadataKeys origin.archive).filter fun metakey => !isSkipped metakey
  have hkeys : (getMetadataKeys origin'.archive).filter (fun metakey => !isSkipped metakey) = kept := by
    have hskipped : (!isSkipped illustrationKey) = false := by decide
    rw [getMetadataKeys, hmetadata, metadataOf, List.map_append, List.filter_append, List.map_map]
    have hmade : ((origin.illustration.map (illustrationKey, ·)).toList.map Prod.fst).filter
        (fun metakey => !isSkipped metakey) = [] := by
      cases origin.illustration <;> simp [hskipped]
    have hcopied : (Prod.fst ∘ fun metakey : Bytes =>
        (metakey, (origin.archive.metadata.lookup metakey).getD [])) = id := rfl
    rw [hmade, List.nil_append, hcopied, List.map_id, List.filter_filter]
    simp only [Bool.and_self, kept]
  have hlookup : ∀ metakey ∈ kept, (metakey, (origin'.archive.metadata.lookup metakey).getD []) =
      (metakey, (origin.archive.metadata.lookup metakey).getD []) := by
    intro metakey hmem
    have hskipped : isSkipped metakey = false := by simpa using (List.mem_filter.mp hmem).2
    rw [hmetadata, lookup_metadataOf hskipped]
  have hmade : origin'.illustration = origin.illustration := by
    rw [hillustration, hmetadata, lookup_metadataOf_skipped (by decide), if_pos rfl]
  rw [metadataOf, hkeys, hmade, List.map_congr_left hlookup, metadataOf]

/-- An archive with the new scheme can be recreated exactly when no redirect
leads nowhere.  The result has its entries, the metadata that are given on, and the
item behind the main entry as main page.  To recreate the result changes nothing
but the UUID. -/
theorem create_newScheme (hnew : origin.hasNewNamespaceScheme = true)
    (dangling : Creator.Dangling) (watchdog : Nat) (uuid : Uuid) :
    ((∃ out, Returns (create dangling origin watchdog uuid) out) ↔ origin.archive.Closed) ∧
      ∀ out, Returns (create dangling origin watchdog uuid) out →
        SameContent origin out ∧
        out.mainPath = (getMainItem origin.archive watchdog).map Entry.path ∧
        ∀ origin' watchdog' uuid' out', origin'.archive = out →
          origin'.hasNewNamespaceScheme = true →
          origin'.illustration = out.metadata.lookup illustrationKey →
          Returns (create dangling origin' watchdog' uuid') out' →
            out' = { out with uuid := uuid' } := by
  constructor
  · constructor
    · rintro ⟨out, hout⟩
      exact ((returns_newScheme hnew).mp hout).1
    · intro hclosed
      have hperm : (outCreator origin watchdog uuid).entries.Perm origin.archive.entries :=
        entries_newScheme hnew
      exact ⟨_, (returns_newScheme hnew).mpr ⟨hclosed,
        (hperm.map Entry.path).nodup_iff.mpr origin.archive.nodup,
        hperm.length_eq ▸ origin.archive.count_lt, rfl⟩⟩
  · intro out hout
    refine ⟨sameContent_newScheme hnew hout, ?_, ?_⟩
    · obtain ⟨-, nodup, count_lt, rfl⟩ := (returns_newScheme hnew).mp hout
      exact mainPath_newScheme hnew
    · intro origin' watchdog' uuid' out' harchive hnew' hillustration hout'
      have hmain := getMainItem_newScheme hnew hout watchdog'
      obtain ⟨-, nodup, count_lt, rfl⟩ := (returns_newScheme hnew).mp hout
      obtain ⟨-, nodup', count_lt', rfl⟩ := (returns_newScheme hnew').mp hout'
      have hperm : (outCreator origin' watchdog' uuid').entries.Perm origin'.archive.entries :=
        entries_newScheme hnew'
      rw [harchive] at hperm
      rw [← harchive] at hillustration
      have hpath : mainPathOf origin' watchdog' = mainPathOf origin watchdog := by
        rw [mainPath_newScheme hnew', mainPath_newScheme hnew, harchive, hmain]
      rw [Creator.toArchive, Archive.mk.injEq]
      exact ⟨entries_eq_of_perm nodup' count_lt' (sorted_toArchive ..) hperm,
        metadataOf_metadataOf (by rw [harchive]; rfl) hillustration, rfl, hpath⟩

end NewScheme

def sampleUuid : Uuid := ⟨List.replicate 16 7, rfl⟩

/-- A page and a redirect to it, which is the main entry. -/
def newSample : Origin where
  archive :=
    { entries := [⟨str "home", str "Home", .item (str "text/html") (str "x")⟩,
        ⟨str "index", str "Index", .redirect (str "home")⟩]
      nodup := by decide
      count_lt := by decide
      metadata := [(str "Counter", str "text/html=1"), (str "Title", str "T")]
      uuid := sampleUuid
      mainPath := some (str "index") }
  hasNewNamespaceScheme := true
  illustration := none
  iterEfficient := [⟨str "index", str "Index", .redirect (str "home")⟩,
    ⟨str "home", str "Home", .item (str "text/html") (str "x")⟩]
  perm := List.Perm.swap ..

theorem create_newScheme_sample : ∃ out, Returns (create .discarded newSample 50 sampleUuid) out ∧
    SameContent newSample out ∧ out.mainPath = some (str "home") := by
  have hcreate := @create_newScheme newSample rfl .discarded 50 sampleUuid
  obtain ⟨out, hout⟩ := hcreate.1.mpr (by decide)
  exact ⟨out, hout, (hcreate.2 out hout).1, (hcreate.2 out hout).2.1⟩

/-! ## The old namespace scheme -/

section OldScheme

/-- Every path is a namespace, a slash and a name. -/
def Namespaced (archive : Archive) : Prop :=
  ∀ entry ∈ archive.entries, 2 ≤ entry.path.length ∧ entry.path[1]? = some (char '/')

/-- An entry that is not dropped. -/
def Remains (entry : Entry) : Prop := isDropped entry.path = false

instance (archive : Archive) : Decidable (Namespaced archive) :=
  inferInstanceAs (Decidable (∀ entry ∈ archive.entries,
    2 ≤ entry.path.length ∧ entry.path[1]? = some (char '/')))

instance (entry : Entry) : Decidable (Remains entry) :=
  inferInstanceAs (Decidable (isDropped entry.path = false))

/-- The entries that remain have different names. -/
def Distinct (archive : Archive) : Prop :=
  ∀ a ∈ archive.entries, ∀ b ∈ archive.entries, Remains a → Remains b → newPath a = newPath b → a = b

instance (archive : Archive) : Decidable (Distinct archive) :=
  inferInstanceAs (Decidable (∀ a ∈ archive.entries, ∀ b ∈ archive.entries,
    Remains a → Remains b → newPath a = newPath b → a = b))

/-- The redirects that remain lead to entries that do, by their new names. -/
def LeadsOn (archive : Archive) : Prop :=
  ∀ entry ∈ archive.entries, Remains entry → ∀ entry' ∈ archive.entries,
    entry.kind = .redirect entry'.path → Remains entry' ∧ newPath entry' = entry'.path.drop 2

instance (archive : Archive) : Decidable (LeadsOn archive) :=
  inferInstanceAs (Decidable (∀ entry ∈ archive.entries, Remains entry → ∀ entry' ∈ archive.entries,
    entry.kind = .redirect entry'.path → Remains entry' ∧ newPath entry' = entry'.path.drop 2))

/-- What a redirect leads to has its new name in the new archive, or something
else has. -/
def Leads (archive : Archive) (entry : Entry) : Prop :=
  ∀ target, entry.kind = .redirect target →
    ∃ entry' ∈ archive.entries, Remains entry' ∧ newPath entry' = target.drop 2

variable {dangling : Creator.Dangling} {origin : Origin} {watchdog : Nat} {uuid : Uuid}
  {out : Archive}

theorem added_oldScheme (hold : origin.hasNewNamespaceScheme = false) (entry : Entry) :
    added origin entry = if Remains entry then some (recreated entry) else none := by
  rw [added, hold]
  cases hdropped : isDropped entry.path with
  | true => exact (if_neg fun h : Remains entry => Bool.false_ne_true (h.symm.trans hdropped)).symm
  | false => exact (if_pos hdropped).symm

theorem entries_oldScheme (hold : origin.hasNewNamespaceScheme = false) :
    (outCreator origin watchdog uuid).entries =
      (origin.iterEfficient.filter (Remains ·)).map recreated := by
  rw [outCreator, ← List.filterMap_eq_map, List.filterMap_filter]
  refine List.filterMap_congr fun entry _ => ?_
  rw [added_oldScheme hold]
  simp only [decide_eq_true_eq, Function.comp]

theorem mem_oldScheme (hold : origin.hasNewNamespaceScheme = false) {entry' : Entry} :
    entry' ∈ (outCreator origin watchdog uuid).entries ↔
      ∃ entry ∈ origin.archive.entries, Remains entry ∧ recreated entry = entry' := by
  simp only [entries_oldScheme hold, List.mem_map, List.mem_filter, decide_eq_true_eq,
    origin.perm.mem_iff, and_assoc]

theorem nodup_oldScheme (hold : origin.hasNewNamespaceScheme = false)
    (hdistinct : Distinct origin.archive) :
    ((outCreator origin watchdog uuid).entries.map Entry.path).Nodup := by
  have hnodup : origin.iterEfficient.Nodup := origin.perm.nodup_iff.mpr origin.archive.nodup.of_map
  rw [entries_oldScheme hold, List.map_map]
  refine (hnodup.filter _).map_on fun a ha b hb hab => ?_
  simp only [List.mem_filter, decide_eq_true_eq, origin.perm.mem_iff] at ha hb
  exact hdistinct a ha.1 b hb.1 ha.2 hb.2 hab

theorem addable_oldScheme (hold : origin.hasNewNamespaceScheme = false)
    (hpaths : Namespaced origin.archive) {entry : Entry} (hentry : entry ∈ origin.archive.entries) :
    Addable origin entry ↔ (Remains entry → origin.archive.Copyable entry) := by
  rw [Addable, hold, Remains]
  simp only [Bool.false_eq_true, if_false]
  refine forall_congr' fun _ => ⟨fun h => h.2.1, fun hcopy => ⟨(hpaths entry hentry).1, hcopy, ?_⟩⟩
  intro target hkind
  obtain ⟨entry', hfind⟩ := Option.isSome_iff_exists.mp (hcopy target hkind)
  obtain ⟨hmem, rfl⟩ := Archive.find_eq_some_iff.mp hfind
  exact (hpaths entry' hmem).1

theorem returns_oldScheme (hold : origin.hasNewNamespaceScheme = false)
    (hpaths : Namespaced origin.archive) :
    Returns (create dangling origin watchdog uuid) out ↔
      (∀ entry ∈ origin.archive.entries, Remains entry → origin.archive.Copyable entry) ∧
        ∃ nodup count_lt, out = ((outCreator origin watchdog uuid).stored dangling).toArchive
          (Creator.nodup_stored nodup) (Creator.length_stored_lt count_lt) := by
  rw [returns_create]
  exact and_congr_left fun _ => forall₂_congr fun entry => addable_oldScheme hold hpaths

theorem resolves_oldScheme (hold : origin.hasNewNamespaceScheme = false) (entry : Entry) :
    (outCreator origin watchdog uuid).resolves (recreated entry) = true ↔
      Leads origin.archive entry := by
  rw [Creator.resolves_eq_true_iff]
  obtain ⟨path, title, kind⟩ := entry
  cases kind with
  | item mimetype data =>
      refine iff_of_true (fun target h => ?_) fun target h => ?_
      · cases h
      · cases h
  | redirect target =>
      have hnew : (∃ entry' ∈ (outCreator origin watchdog uuid).entries,
            entry'.path = target.drop 2) ↔
          ∃ entry' ∈ origin.archive.entries, Remains entry' ∧ newPath entry' = target.drop 2 := by
        simp only [mem_oldScheme hold]
        constructor
        · rintro ⟨_, ⟨entry', hmem, hremains, rfl⟩, hpath⟩
          exact ⟨entry', hmem, hremains, hpath⟩
        · rintro ⟨entry', hmem, hremains, hpath⟩
          exact ⟨_, ⟨entry', hmem, hremains, rfl⟩, hpath⟩
      constructor
      · rintro h _ ⟨⟩
        exact hnew.mp (h _ rfl)
      · rintro h _ ⟨⟩
        exact hnew.mpr (h target rfl)

/-- Following redirects goes the same way under the new names. -/
theorem getItem_recreated (hfind : ∀ entry ∈ origin.archive.entries, Remains entry →
      out.find (newPath entry) = some (recreated entry))
    (hleads : LeadsOn origin.archive)
    (hcopy : ∀ entry ∈ origin.archive.entries, Remains entry → origin.archive.Copyable entry) :
    ∀ (watchdog : Nat) (entry : Entry), entry ∈ origin.archive.entries → Remains entry →
      getItem out watchdog (recreated entry) = (getItem origin.archive watchdog entry).map recreated
  | watchdog, ⟨path, title, .item mimetype data⟩, hentry, hremains => by
      rw [recreated, getItem_item, getItem_item]
      rfl
  | 0, ⟨path, title, .redirect target⟩, hentry, hremains => by
      rw [recreated, getItem_redirect_zero, getItem_redirect_zero]
      rfl
  | watchdog + 1, ⟨path, title, .redirect target⟩, hentry, hremains => by
      obtain ⟨entry', htarget⟩ := Option.isSome_iff_exists.mp (hcopy _ hentry hremains target rfl)
      obtain ⟨hmem, rfl⟩ := Archive.find_eq_some_iff.mp htarget
      obtain ⟨hremains', hname⟩ := hleads _ hentry hremains entry' hmem rfl
      rw [recreated, getItem_redirect, getItem_redirect, htarget, Option.bind_some, ← hname,
        hfind entry' hmem hremains', Option.bind_some]
      exact getItem_recreated hfind hleads hcopy watchdog entry' hmem hremains'

theorem find_oldScheme (hold : origin.hasNewNamespaceScheme = false) {nodup count_lt} {path : Bytes}
    {entry' : Entry} :
    (((outCreator origin watchdog uuid).stored dangling).toArchive nodup count_lt).find path =
        some entry' ↔
      ∃ entry ∈ origin.archive.entries, Remains entry ∧
        (dangling = .discarded → Leads origin.archive entry) ∧ newPath entry = path ∧
          recreated entry = entry' := by
  rw [Archive.find_eq_some_iff, Creator.mem_toArchive, Creator.mem_stored, mem_oldScheme hold]
  constructor
  · rintro ⟨⟨⟨entry, hentry, hremains, rfl⟩, hresolves⟩, rfl⟩
    exact ⟨entry, hentry, hremains, fun hd => (resolves_oldScheme hold entry).mp (hresolves hd), rfl,
      rfl⟩
  · rintro ⟨entry, hentry, hremains, hleads, rfl, rfl⟩
    exact ⟨⟨⟨entry, hentry, hremains, rfl⟩,
      fun hd => (resolves_oldScheme hold entry).mpr (hleads hd)⟩, rfl⟩

/-- An item remains an item. -/
theorem getItem_recreated_item {archive : Archive} {item : Entry}
    (h : getItem archive 0 item = some item) (watchdog' : Nat) :
    getItem out watchdog' (recreated item) = some (recreated item) := by
  obtain ⟨path, title, kind⟩ := item
  cases kind with
  | item mimetype data => exact getItem_item ..
  | redirect target =>
      rw [getItem_redirect_zero] at h
      cases h

theorem leads_of_item {archive archive' : Archive} {item : Entry}
    (h : getItem archive 0 item = some item) : Leads archive' item := by
  obtain ⟨path, title, kind⟩ := item
  cases kind with
  | item mimetype data =>
      intro target htarget
      cases htarget
  | redirect target =>
      rw [getItem_redirect_zero] at h
      cases h

/-- The main page is kept if it has kept its name. -/
theorem getMainItem_oldScheme (hold : origin.hasNewNamespaceScheme = false)
    (hpaths : Namespaced origin.archive) {nodup count_lt} {item : Entry}
    (hitem : getMainItem origin.archive watchdog = some item) (hremains : Remains item)
    (hname : newPath item = item.path.drop 2) (watchdog' : Nat) :
    getMainItem (((outCreator origin watchdog uuid).stored dangling).toArchive nodup count_lt)
      watchdog' = some (recreated item) := by
  have hmem : item ∈ origin.archive.entries := mem_of_getMainItem hitem
  have hmain : (((outCreator origin watchdog uuid).stored dangling).toArchive nodup
      count_lt).mainPath = some (newPath item) := by
    have hstored : ((outCreator origin watchdog uuid).stored dangling).mainPath =
        mainPathOf origin watchdog := Creator.mainPath_stored ..
    refine hstored.trans ?_
    rw [mainPathOf, hitem, Option.bind_some, hold, hname]
    exact if_neg (Nat.not_lt.mpr (hpaths item hmem).1)
  obtain ⟨entry, -, hget⟩ := Option.bind_eq_some_iff.mp hitem
  have hself : getItem origin.archive 0 item = some item := getItem_of_getItem hget origin.archive
  rw [getMainItem, hmain, Option.bind_some,
    (find_oldScheme hold).mpr ⟨item, hmem, hremains, fun _ => leads_of_item hself, rfl, rfl⟩,
    Option.bind_some]
  exact getItem_recreated_item hself watchdog'

theorem leads_of_leadsOn {archive : Archive} (hleads : LeadsOn archive) {entry : Entry}
    (hentry : entry ∈ archive.entries) (hremains : Remains entry) (hcopy : archive.Copyable entry) :
    Leads archive entry := by
  intro target hkind
  obtain ⟨entry', hfind⟩ := Option.isSome_iff_exists.mp (hcopy target hkind)
  obtain ⟨hmem, rfl⟩ := Archive.find_eq_some_iff.mp hfind
  exact ⟨entry', hmem, hleads entry hentry hremains entry' hmem hkind⟩

/-- An archive with the old scheme in which the names of the entries that remain
are distinct can be recreated exactly when no redirect of these leads nowhere.
The result has these entries under their names, with their links patched, but for
redirects that dangle now, if the library discards these, and the metadata that
are given on.  Where no redirect led to an entry that is gone, or that has lost its
name, each leads to the same item as before.  The main page is kept when its item
remains and keeps its name. -/
theorem create_oldScheme (hold : origin.hasNewNamespaceScheme = false)
    (hpaths : Namespaced origin.archive) (hdistinct : Distinct origin.archive)
    (dangling : Creator.Dangling) (watchdog : Nat) (uuid : Uuid) :
    ((∃ out, Returns (create dangling origin watchdog uuid) out) ↔
        ∀ entry ∈ origin.archive.entries, Remains entry → origin.archive.Copyable entry) ∧
      ∀ out, Returns (create dangling origin watchdog uuid) out →
        (∀ path entry', out.find path = some entry' ↔
          ∃ entry ∈ origin.archive.entries, Remains entry ∧
            (dangling = .discarded → Leads origin.archive entry) ∧ newPath entry = path ∧
              recreated entry = entry') ∧
        (∀ metakey, out.metadata.lookup metakey = newMetadata origin metakey) ∧
        (LeadsOn origin.archive → ∀ watchdog', ∀ entry ∈ origin.archive.entries, Remains entry →
          out.find (newPath entry) = some (recreated entry) ∧
            getItem out watchdog' (recreated entry) =
              (getItem origin.archive watchdog' entry).map recreated) ∧
        ∀ item, getMainItem origin.archive watchdog = some item → Remains item →
          newPath item = item.path.drop 2 →
          ∀ watchdog', getMainItem out watchdog' = some (recreated item) := by
  constructor
  · constructor
    · rintro ⟨out, hout⟩
      exact ((returns_oldScheme hold hpaths).mp hout).1
    · intro hcopy
      refine ⟨_, (returns_oldScheme hold hpaths).mpr
        ⟨hcopy, nodup_oldScheme hold hdistinct, ?_, rfl⟩⟩
      refine Nat.lt_of_le_of_lt ?_ origin.archive.count_lt
      rw [← origin.perm.length_eq]
      exact List.length_filterMap_le ..
  · intro out hout
    obtain ⟨hcopy, nodup, count_lt, rfl⟩ := (returns_oldScheme hold hpaths).mp hout
    have hmetadata : ((outCreator origin watchdog uuid).stored dangling).metadata =
        metadataOf origin := Creator.metadata_stored ..
    refine ⟨fun path entry' => find_oldScheme hold,
      fun metakey => (congrArg _ hmetadata).trans (lookup_metadataOf_eq origin metakey), ?_,
      fun item => getMainItem_oldScheme hold hpaths⟩
    intro hleads
    have hfind (entry : Entry) (hentry : entry ∈ origin.archive.entries) (hremains : Remains entry) :
        (((outCreator origin watchdog uuid).stored dangling).toArchive (Creator.nodup_stored nodup)
          (Creator.length_stored_lt count_lt)).find (newPath entry) = some (recreated entry) :=
      (find_oldScheme hold).mpr ⟨entry, hentry, hremains,
        fun _ => leads_of_leadsOn hleads hentry hremains (hcopy entry hentry hremains), rfl, rfl⟩
    exact fun watchdog' entry hentry hremains => ⟨hfind entry hentry hremains,
      getItem_recreated hfind hleads hcopy watchdog' entry hentry hremains⟩

end OldScheme

/-- A page, an image, a redirect to the page, and metadata. -/
def oldSample : Origin where
  archive :=
    { entries := [⟨str "A/home", str "Home", .item (str "text/html") (str "'../I/logo'")⟩,
        ⟨str "A/index", str "Index", .redirect (str "A/home")⟩,
        ⟨str "I/logo", [], .item (str "image/png") (str "p")⟩,
        ⟨str "M/Title", [], .item (str "text/plain") (str "T")⟩]
      nodup := by decide
      count_lt := by decide
      metadata := [(str "Title", str "T")]
      uuid := sampleUuid
      mainPath := some (str "A/index") }
  hasNewNamespaceScheme := false
  illustration := none
  iterEfficient := _
  perm := List.Perm.refl _

theorem create_oldScheme_sample : ∃ out, Returns (create .discarded oldSample 50 sampleUuid) out ∧
    out.find (str "home") =
      some ⟨str "home", str "Home", .item (str "text/html") (str "'logo'")⟩ ∧
    getItem out 1 ⟨str "index", str "Index", .redirect (str "home")⟩ =
      some ⟨str "home", str "Home", .item (str "text/html") (str "'logo'")⟩ := by
  have hcreate := @create_oldScheme oldSample rfl (by decide) (by decide) .discarded 50 sampleUuid
  obtain ⟨out, hout⟩ := hcreate.1.mpr (by decide)
  obtain ⟨-, -, hget, -⟩ := hcreate.2 out hout
  have hleads : LeadsOn oldSample.archive := by decide
  refine ⟨out, hout, ?_, ?_⟩
  · exact (hget hleads 0 ⟨str "A/home", str "Home", .item (str "text/html") (str "'../I/logo'")⟩
      (by decide) (by decide)).1
  · exact (hget hleads 1 ⟨str "A/index", str "Index", .redirect (str "A/home")⟩ (by decide)
      (by decide)).2

end ZimTools.Zimrecreate
