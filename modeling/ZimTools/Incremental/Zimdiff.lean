import ZimTools.Incremental.Lines

/-!
# Diffs

`create` of `zimdiff`.  The diff of two archives holds the entries of the second
that are not in the first, and the items with other data.  What else there is
to know is text in its metadata: the paths that are gone, the redirects of the
second archive with their targets, and both UUIDs.

An entry that is a redirect in one of the archives and an item in the other is
left out.  `diff` is what `create` makes of archives whose redirects lead
somewhere (`returns_create`).
-/

namespace ZimTools.Incremental.Zimdiff

open Loop

/-! ## The program -/

def dlist (archive1 archive2 : Archive) : Bytes :=
  archive1.entries.foldl (fun dlist entry =>
    if archive2.hasEntryByPath entry.path then dlist
    else dlist ++ (entry.path ++ str "\n")) []

def redirectList (archive2 : Archive) : Program Bytes :=
  archive2.entries.foldlM (fun list entry =>
    if entry.isRedirect then do
      let target ← archive2.getRedirectEntry entry
      pure (list ++ (entry.path ++ str "\n" ++ target.path ++ str "\n"))
    else pure list) []

/-- `startFileUID` and `endFileUID`. -/
def fileUID (uuid : Uuid) : Bytes :=
  uuid.data.foldl (fun uid c => uid ++ (numberToString (charToInt c) ++ str "\n")) []

/-- A pass of the item loop.  The exception that is caught there is the one for
a path that is not in the first archive. -/
def addChanged (archive1 archive2 : Archive) (zimCreator : Creator) (entry2 : Entry) :
    Program Creator :=
  match archive1.find entry2.path with
  | some entry1 =>
      match entry2.kind, entry1.kind with
      | .item mimetype data2, .item _ data1 =>
          if data2 ≠ data1 then
            pure (zimCreator.addItem entry2.path entry2.title mimetype data2)
          else pure zimCreator
      -- A redirect in one of the archives, which the source marks as unhandled.
      | _, _ => pure zimCreator
  | none => zimCreator.copyEntry archive2 entry2

/-- `create` up to the end of the creation. -/
def fill (archive1 archive2 : Archive) (uuid : Uuid) : Program Creator := do
  let zimCreator := Creator.startZimCreation uuid
  let zimCreator := zimCreator.addMetadata (str "dlist") (dlist archive1 archive2)
  let redirectList ← redirectList archive2
  let zimCreator := zimCreator.addMetadata (str "redirectlist") redirectList
  let zimCreator := zimCreator.addMetadata (str "startfileuid") (fileUID archive1.uuid)
  let zimCreator := zimCreator.addMetadata (str "endfileuid") (fileUID archive2.uuid)
  let zimCreator := zimCreator.addMetadata (str "mainaurl") (archive2.mainPath.getD [])
  archive2.entries.foldlM (addChanged archive1 archive2) zimCreator

def create (archive1 archive2 : Archive) (uuid : Uuid) : Program Archive :=
  fill archive1 archive2 uuid >>= Creator.finishZimCreation

/-! ## Its lists -/

/-- The paths of the first archive that the second does not have. -/
def deleted (archive1 archive2 : Archive) : List Bytes :=
  (archive1.entries.filter fun entry => !archive2.hasEntryByPath entry.path).map Entry.path

/-- Whether an entry of the second archive is new, or an item with other data. -/
def changed (archive1 : Archive) (entry2 : Entry) : Bool :=
  match archive1.find entry2.path with
  | none => true
  | some entry1 =>
      match entry2.kind, entry1.kind with
      | .item _ data2, .item _ data1 => data2 ≠ data1
      | _, _ => false

theorem dlist_eq (archive1 archive2 : Archive) :
    dlist archive1 archive2 = unlines (deleted archive1 archive2) := by
  suffices h : ∀ (l : List Entry) (text : Bytes),
      l.foldl (fun dlist entry => if archive2.hasEntryByPath entry.path then dlist
        else dlist ++ (entry.path ++ str "\n")) text =
      text ++ unlines ((l.filter fun entry => !archive2.hasEntryByPath entry.path).map Entry.path)
    from h archive1.entries []
  intro l
  induction l with
  | nil => simp [unlines]
  | cons entry l ih =>
      intro text
      rw [List.foldl_cons, ih]
      cases h : archive2.hasEntryByPath entry.path <;> simp [h, unlines]

theorem fileUID_eq (uuid : Uuid) : fileUID uuid = unlines (uidLines uuid) := by
  rw [fileUID, uidLines, unlines, List.flatMap_map, List.flatMap_eq_foldl]

theorem returns_redirectList {archive2 : Archive} {text : Bytes} :
    Returns (redirectList archive2) text ↔
      archive2.Closed ∧ text = unlines (archive2.entries.flatMap redirectLines) := by
  have hpass (entry : Entry) (list r : Bytes) :
      Returns (if entry.isRedirect then do
          let target ← archive2.getRedirectEntry entry
          pure (list ++ (entry.path ++ str "\n" ++ target.path ++ str "\n"))
        else pure list : Program Bytes) r ↔
      archive2.Copyable entry ∧ r = list ++ unlines (redirectLines entry) := by
    obtain ⟨path, title, kind⟩ := entry
    cases kind with
    | item mimetype data => simp [Entry.isRedirect, Archive.Copyable, redirectLines, unlines]
    | redirect target =>
        simp only [Entry.isRedirect, if_true, Archive.getRedirectEntry, returns_bind,
          Archive.returns_getEntryByPath, returns_pure, Archive.Copyable, Archive.hasEntryByPath,
          Option.isSome_iff_exists]
        constructor
        · rintro ⟨entry', hfind, rfl⟩
          refine ⟨?_, by rw [Archive.find_path hfind]; simp [redirectLines, unlines]⟩
          rintro _ ⟨⟩
          exact ⟨entry', hfind⟩
        · rintro ⟨hcopy, rfl⟩
          obtain ⟨entry', hfind⟩ := hcopy target rfl
          exact ⟨entry', hfind, by rw [Archive.find_path hfind]; simp [redirectLines, unlines]⟩
  rw [redirectList, returns_foldlM (fun _ => True) (fun _ _ => id) trivial
    fun entry _ list r _ => hpass entry list r, Archive.Closed, unlines, List.flatMap_assoc,
    List.flatMap_eq_foldl]
  rfl

theorem returns_addChanged {archive1 archive2 : Archive} {zimCreator r : Creator}
    {entry2 : Entry} :
    Returns (addChanged archive1 archive2 zimCreator entry2) r ↔
      (archive1.find entry2.path = none → archive2.Copyable entry2) ∧
        r = zimCreator.addAll (Option.guard (changed archive1) entry2).toList := by
  rw [addChanged, Option.guard, changed]
  cases archive1.find entry2.path with
  | none => simp [Creator.returns_copyEntry]
  | some entry1 =>
      obtain ⟨path, title, kind⟩ := entry2
      obtain ⟨path1, title1, kind1⟩ := entry1
      cases kind with
      | redirect target => simp
      | item mimetype data2 =>
          cases kind1 with
          | redirect target => simp
          | item mimetype1 data1 =>
              by_cases hdata : data2 = data1 <;> simp [hdata, Creator.addItem, Creator.addAll]

theorem returns_itemLoop {archive1 archive2 : Archive} {zimCreator r : Creator} :
    Returns (archive2.entries.foldlM (addChanged archive1 archive2) zimCreator) r ↔
      (∀ entry2 ∈ archive2.entries,
        archive1.find entry2.path = none → archive2.Copyable entry2) ∧
      r = zimCreator.addAll (archive2.entries.filter (changed archive1)) := by
  rw [Creator.returns_foldlM_addAll (h := Option.guard (changed archive1))
    fun entry2 _ _ _ => returns_addChanged, List.filterMap_eq_filter]

/-! ## The diff -/

/-- What the creator of a diff is given. -/
def diffCreator (archive1 archive2 : Archive) (uuid : Uuid) : Creator where
  entries := archive2.entries.filter (changed archive1)
  metadata := [(str "dlist", unlines (deleted archive1 archive2)),
    (str "redirectlist", unlines (archive2.entries.flatMap redirectLines)),
    (str "startfileuid", unlines (uidLines archive1.uuid)),
    (str "endfileuid", unlines (uidLines archive2.uuid)),
    (str "mainaurl", archive2.mainPath.getD [])]
  uuid := uuid
  mainPath := none

def diff (archive1 archive2 : Archive) (uuid : Uuid) : Archive :=
  (diffCreator archive1 archive2 uuid).toArchive
    (archive2.nodup.sublist (List.filter_sublist.map _))
    (Nat.lt_of_le_of_lt (List.length_filter_le ..) archive2.count_lt)

theorem returns_fill {archive1 archive2 : Archive} {uuid : Uuid} {r : Creator} :
    Returns (fill archive1 archive2 uuid) r ↔
      archive2.Closed ∧ r = diffCreator archive1 archive2 uuid := by
  simp only [fill, returns_bind, returns_redirectList, dlist_eq, fileUID_eq, returns_itemLoop]
  constructor
  · rintro ⟨text, ⟨hclosed, rfl⟩, -, rfl⟩
    exact ⟨hclosed, rfl⟩
  · rintro ⟨hclosed, rfl⟩
    exact ⟨_, ⟨hclosed, rfl⟩, fun entry2 h _ => hclosed entry2 h, rfl⟩

theorem returns_create {archive1 archive2 : Archive} {uuid : Uuid} {r : Archive} :
    Returns (create archive1 archive2 uuid) r ↔
      archive2.Closed ∧ r = diff archive1 archive2 uuid := by
  simp only [create, returns_bind, returns_fill, Creator.returns_finishZimCreation]
  constructor
  · rintro ⟨zimCreator, ⟨hclosed, rfl⟩, nodup, count_lt, rfl⟩
    exact ⟨hclosed, rfl⟩
  · rintro ⟨hclosed, rfl⟩
    exact ⟨_, ⟨hclosed, rfl⟩, archive2.nodup.sublist (List.filter_sublist.map _),
      Nat.lt_of_le_of_lt (List.length_filter_le ..) archive2.count_lt, rfl⟩

theorem mem_diff {archive1 archive2 : Archive} {uuid : Uuid} {entry : Entry} :
    entry ∈ (diff archive1 archive2 uuid).entries ↔
      entry ∈ archive2.entries ∧ changed archive1 entry := by
  rw [diff, Creator.mem_toArchive, diffCreator, List.mem_filter]

/-- The diff has an entry exactly where the second archive has a changed one. -/
theorem find_diff (archive1 archive2 : Archive) (uuid : Uuid) (path : Bytes) :
    (diff archive1 archive2 uuid).find path =
      (archive2.find path).filter (changed archive1) := by
  ext entry
  rw [Archive.find_eq_some_iff, mem_diff, Option.filter_eq_some_iff, Archive.find_eq_some_iff]
  tauto

end ZimTools.Incremental.Zimdiff
