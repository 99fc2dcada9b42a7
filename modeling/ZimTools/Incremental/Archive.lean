import Mathlib.Data.List.Sort
import ZimTools.Lib.Loop
import ZimTools.Std.Bytes

/-!
# Archives and their creation

What `zimdiff` and `zimpatch` see of a ZIM file, and how they make one.  An
archive has at most one entry at a path, and fewer than 2^32 entries.  It need
not have the entry that a redirect leads to.

Lookups are exact, and a `Creator` stores the entries it was given, in the order
of their paths.  What it makes of redirections to a path that it was not given is
up to the library (`Dangling`).
-/

namespace ZimTools.Incremental

open Loop

/-- An exception that nothing catches, or an access out of range. -/
inductive Fault where
  | exception
  | undefined
deriving DecidableEq, Repr

/-- A run of a tool, `none` when a loop has not ended within its bound. -/
abbrev Program (α : Type) := ExceptT Fault Option α

/-! ## Archives -/

inductive Kind where
  | item (mimetype data : Bytes)
  | redirect (target : Bytes)
deriving DecidableEq, Repr

structure Entry where
  path : Bytes
  title : Bytes
  kind : Kind
deriving DecidableEq, Repr

def Entry.isRedirect (entry : Entry) : Bool :=
  match entry.kind with
  | .item .. => false
  | .redirect _ => true

/-- Where a redirect leads to. -/
def Entry.redirectTarget (entry : Entry) : Option Bytes :=
  match entry.kind with
  | .item .. => none
  | .redirect target => some target

theorem Entry.redirectTarget_eq_some_iff {entry : Entry} {target : Bytes} :
    entry.redirectTarget = some target ↔ entry.kind = .redirect target := by
  obtain ⟨path, title, kind⟩ := entry
  cases kind with
  | item mimetype data => simp [redirectTarget]
  | redirect target' => simp [redirectTarget]

@[ext]
structure Uuid where
  data : Bytes
  length_eq : data.length = 16
deriving DecidableEq

/-- A UUID with another byte at a position. -/
def Uuid.set (uuid : Uuid) (k : Nat) (c : UInt8) : Uuid :=
  ⟨uuid.data.set k c, by rw [List.length_set, uuid.length_eq]⟩

/-- An archive, with its entries in the order of their indices.  `mainPath` is
the path of the main entry, if there is one. -/
structure Archive where
  entries : List Entry
  nodup : (entries.map Entry.path).Nodup
  count_lt : entries.length < UInt32.size
  metadata : List (Bytes × Bytes)
  uuid : Uuid
  mainPath : Option Bytes
deriving DecidableEq

namespace Archive

/-- The entry at a path, if there is one. -/
def find (archive : Archive) (path : Bytes) : Option Entry :=
  archive.entries.find? (·.path == path)

def hasEntryByPath (archive : Archive) (path : Bytes) : Bool := (archive.find path).isSome

def getEntryByPath (archive : Archive) (path : Bytes) : Program Entry :=
  match archive.find path with
  | some entry => pure entry
  | none => throw .exception

def getEntryCount (archive : Archive) : Nat := archive.entries.length

/-- The index of the entry at a path, if there is one. -/
def index (archive : Archive) (path : Bytes) : Option Nat :=
  archive.entries.findIdx? (·.path == path)

/-- `getEntryByPath(path).getIndex()`. -/
def getIndex (archive : Archive) (path : Bytes) : Program Nat :=
  match archive.index path with
  | some index => pure index
  | none => throw .exception

/-- `entry.getRedirectEntry()`, for an entry of the archive. -/
def getRedirectEntry (archive : Archive) (entry : Entry) : Program Entry :=
  match entry.kind with
  | .item .. => throw .exception
  | .redirect target => archive.getEntryByPath target

def getMetadata (archive : Archive) (name : Bytes) : Program Bytes :=
  match archive.metadata.lookup name with
  | some value => pure value
  | none => throw .exception

/-- An entry can be copied from an archive unless it is a redirect that leads
nowhere in it. -/
def Copyable (archive : Archive) (entry : Entry) : Prop :=
  ∀ target, entry.kind = .redirect target → archive.hasEntryByPath target

instance (archive : Archive) (entry : Entry) : Decidable (archive.Copyable entry) :=
  match h : entry.kind with
  | .item .. => isTrue fun target ht => by rw [h] at ht; cases ht
  | .redirect target =>
      decidable_of_iff (archive.hasEntryByPath target = true)
        ⟨fun hhas t ht => by rw [h] at ht; cases ht; exact hhas, fun hc => hc target h⟩

/-- Every redirect of the archive leads to an entry of it. -/
def Closed (archive : Archive) : Prop := ∀ entry ∈ archive.entries, archive.Copyable entry

instance (archive : Archive) : Decidable archive.Closed :=
  inferInstanceAs (Decidable (∀ entry ∈ archive.entries, archive.Copyable entry))

theorem find_eq_some_iff {archive : Archive} {path : Bytes} {entry : Entry} :
    archive.find path = some entry ↔ entry ∈ archive.entries ∧ entry.path = path := by
  constructor
  · intro h
    exact ⟨List.mem_of_find?_eq_some h, by simpa using List.find?_some h⟩
  · rintro ⟨hmem, rfl⟩
    cases h : archive.find entry.path with
    | none =>
        rw [find, List.find?_eq_none] at h
        exact absurd BEq.rfl (h entry hmem)
    | some entry' =>
        have hpath : entry'.path = entry.path := by simpa using List.find?_some h
        rw [List.inj_on_of_nodup_map archive.nodup (List.mem_of_find?_eq_some h) hmem hpath]

theorem find_eq_none_iff {archive : Archive} {path : Bytes} :
    archive.find path = none ↔ ∀ entry ∈ archive.entries, entry.path ≠ path := by
  simp [find, List.find?_eq_none]

theorem find_path {archive : Archive} {path : Bytes} {entry : Entry}
    (h : archive.find path = some entry) : entry.path = path :=
  (find_eq_some_iff.mp h).2

theorem find_of_mem {archive : Archive} {entry : Entry} (h : entry ∈ archive.entries) :
    archive.find entry.path = some entry :=
  find_eq_some_iff.mpr ⟨h, rfl⟩

theorem index_eq_some_iff {archive : Archive} {path : Bytes} {i : Nat} :
    archive.index path = some i ↔ ∃ entry, archive.entries[i]? = some entry ∧ entry.path = path := by
  rw [index, List.findIdx?_eq_some_iff_getElem]
  constructor
  · rintro ⟨hi, hpath, -⟩
    exact ⟨archive.entries[i], List.getElem?_eq_getElem hi, by simpa using hpath⟩
  · rintro ⟨entry, hentry, rfl⟩
    obtain ⟨hi, rfl⟩ := List.getElem?_eq_some_iff.mp hentry
    refine ⟨hi, by simp, fun j hji hj => ?_⟩
    have hi' : i < (archive.entries.map Entry.path).length := by rwa [List.length_map]
    have hj' : j < (archive.entries.map Entry.path).length := by omega
    have hpath : (archive.entries.map Entry.path)[j] = (archive.entries.map Entry.path)[i] := by
      simpa using hj
    exact absurd (archive.nodup.getElem_inj_iff.mp hpath) (by omega)

@[simp] theorem returns_getIndex {archive : Archive} {path : Bytes} {i : Nat} :
    Returns (archive.getIndex path) i ↔ archive.index path = some i := by
  rw [getIndex]
  cases archive.index path with
  | none => simp
  | some index => simp [eq_comm]

@[simp] theorem returns_getEntryByPath {archive : Archive} {path : Bytes} {entry : Entry} :
    Returns (archive.getEntryByPath path) entry ↔ archive.find path = some entry := by
  rw [getEntryByPath]
  cases archive.find path with
  | none => simp
  | some entry' => simp [eq_comm]

@[simp] theorem returns_getMetadata {archive : Archive} {name value : Bytes} :
    Returns (archive.getMetadata name) value ↔ archive.metadata.lookup name = some value := by
  rw [getMetadata]
  cases archive.metadata.lookup name with
  | none => simp
  | some value' => simp [eq_comm]

end Archive

/-! ## Creation -/

/-- What a `zim::writer::Creator` was given. -/
structure Creator where
  entries : List Entry
  metadata : List (Bytes × Bytes)
  uuid : Uuid
  mainPath : Option Bytes

namespace Creator

/-- A new creator makes up a UUID. -/
def startZimCreation (uuid : Uuid) : Creator := ⟨[], [], uuid, none⟩

def addMetadata (creator : Creator) (name content : Bytes) : Creator :=
  { creator with metadata := creator.metadata ++ [(name, content)] }

def addItem (creator : Creator) (path title mimetype data : Bytes) : Creator :=
  { creator with entries := creator.entries ++ [⟨path, title, .item mimetype data⟩] }

def addRedirection (creator : Creator) (path title target : Bytes) : Creator :=
  { creator with entries := creator.entries ++ [⟨path, title, .redirect target⟩] }

def setUuid (creator : Creator) (uuid : Uuid) : Creator := { creator with uuid := uuid }

def setMainPath (creator : Creator) (path : Bytes) : Creator :=
  { creator with mainPath := some path }

/-- A redirection to what a redirect of `archive` leads to, or a `CopyItem`. -/
def copyEntry (creator : Creator) (archive : Archive) (entry : Entry) : Program Creator :=
  match entry.kind with
  | .redirect _ => do
      let target ← archive.getRedirectEntry entry
      pure (creator.addRedirection entry.path entry.title target.path)
  | .item mimetype data => pure (creator.addItem entry.path entry.title mimetype data)

/-- The archive of a creator that was given no path twice. -/
def toArchive (creator : Creator) (nodup : (creator.entries.map Entry.path).Nodup)
    (count_lt : creator.entries.length < UInt32.size) : Archive where
  entries := creator.entries.insertionSort (·.path ≤ ·.path)
  nodup := ((List.perm_insertionSort _ _).map Entry.path).nodup_iff.mpr nodup
  count_lt := by rwa [List.length_insertionSort]
  metadata := creator.metadata
  uuid := creator.uuid
  mainPath := creator.mainPath

/-- What the library makes of the redirections to a path that was not added. -/
inductive Dangling where
  | stored
  | discarded
deriving DecidableEq

/-- Whether what a redirection leads to was added. -/
def resolves (creator : Creator) (entry : Entry) : Bool :=
  match entry.redirectTarget with
  | none => true
  | some target => creator.entries.any (·.path == target)

def pruned (creator : Creator) : Creator :=
  { creator with entries := creator.entries.filter creator.resolves }

/-- The creator with what is stored of its entries. -/
def stored (dangling : Dangling) (creator : Creator) : Creator :=
  match dangling with
  | .stored => creator
  | .discarded => creator.pruned

@[simp] theorem metadata_stored (dangling : Dangling) (creator : Creator) :
    (creator.stored dangling).metadata = creator.metadata := by
  cases dangling <;> rfl

@[simp] theorem mainPath_stored (dangling : Dangling) (creator : Creator) :
    (creator.stored dangling).mainPath = creator.mainPath := by
  cases dangling <;> rfl

theorem nodup_stored {dangling : Dangling} {creator : Creator}
    (h : (creator.entries.map Entry.path).Nodup) :
    ((creator.stored dangling).entries.map Entry.path).Nodup := by
  cases dangling with
  | stored => exact h
  | discarded => exact h.sublist (List.filter_sublist.map _)

theorem length_stored_lt {dangling : Dangling} {creator : Creator}
    (h : creator.entries.length < UInt32.size) :
    (creator.stored dangling).entries.length < UInt32.size := by
  cases dangling with
  | stored => exact h
  | discarded => exact Nat.lt_of_le_of_lt (List.length_filter_le ..) h

/-- The end of a creation. -/
def finish (dangling : Dangling) (creator : Creator) : Program Archive :=
  if h : (creator.entries.map Entry.path).Nodup ∧ creator.entries.length < UInt32.size then
    pure ((creator.stored dangling).toArchive (nodup_stored h.1) (length_stored_lt h.2))
  else throw .exception

/-- `finishZimCreation` of a creator that stores exactly what it was given. -/
def finishZimCreation (creator : Creator) : Program Archive := creator.finish .stored

/-- A creator that was given some more entries. -/
def addAll (creator : Creator) (entries : List Entry) : Creator :=
  { creator with entries := creator.entries ++ entries }

@[simp] theorem addAll_nil (creator : Creator) : creator.addAll [] = creator := by
  simp [addAll]

theorem addAll_addAll (creator : Creator) (a b : List Entry) :
    (creator.addAll a).addAll b = creator.addAll (a ++ b) := by
  simp [addAll]

/-- A loop that gives a creator at most one entry in each pass. -/
theorem returns_foldlM_addAll {α : Type} {f : Creator → α → Program Creator} {P : α → Prop}
    {h : α → Option Entry} {l : List α} {creator r : Creator}
    (hf : ∀ a ∈ l, ∀ creator r, Returns (f creator a) r ↔
      P a ∧ r = creator.addAll (h a).toList) :
    Returns (l.foldlM f creator) r ↔ (∀ a ∈ l, P a) ∧ r = creator.addAll (l.filterMap h) := by
  rw [returns_foldlM (fun _ => True) (fun _ _ => id) trivial fun a ha s r _ => hf a ha s r]
  suffices hfold : l.foldl (fun creator a => creator.addAll (h a).toList) creator =
      creator.addAll (l.filterMap h) by rw [hfold]
  clear hf
  induction l generalizing creator with
  | nil => simp
  | cons a l ih =>
      rw [List.foldl_cons, ih, addAll_addAll, List.filterMap_cons]
      cases h a <;> rfl

theorem returns_copyEntry {creator : Creator} {archive : Archive} {entry : Entry} {r : Creator} :
    Returns (creator.copyEntry archive entry) r ↔
      archive.Copyable entry ∧ r = creator.addAll [entry] := by
  obtain ⟨path, title, kind⟩ := entry
  cases kind with
  | item mimetype data => simp [copyEntry, Archive.Copyable, addItem, addAll]
  | redirect target =>
      simp only [copyEntry, Archive.Copyable, Archive.getRedirectEntry, returns_bind,
        Archive.returns_getEntryByPath, returns_pure, Archive.hasEntryByPath,
        Option.isSome_iff_exists]
      constructor
      · rintro ⟨entry', hfind, rfl⟩
        refine ⟨?_, by rw [Archive.find_path hfind]; rfl⟩
        rintro _ ⟨⟩
        exact ⟨entry', hfind⟩
      · rintro ⟨hcopy, rfl⟩
        obtain ⟨entry', hfind⟩ := hcopy target rfl
        exact ⟨entry', hfind, by rw [Archive.find_path hfind]; rfl⟩

theorem returns_finish {dangling : Dangling} {creator : Creator} {archive : Archive} :
    Returns (creator.finish dangling) archive ↔
      ∃ nodup count_lt, archive =
        (creator.stored dangling).toArchive (nodup_stored nodup) (length_stored_lt count_lt) := by
  rw [finish]
  split
  · rename_i h
    simp [h]
  · rename_i h
    simp only [returns_throw, false_iff]
    rintro ⟨nodup, count_lt, -⟩
    exact h ⟨nodup, count_lt⟩

theorem returns_finishZimCreation {creator : Creator} {archive : Archive} :
    Returns creator.finishZimCreation archive ↔
      ∃ nodup count_lt, archive = creator.toArchive nodup count_lt :=
  returns_finish

theorem resolves_eq_true_iff {creator : Creator} {entry : Entry} :
    creator.resolves entry = true ↔
      ∀ target, entry.redirectTarget = some target → ∃ entry' ∈ creator.entries, entry'.path = target := by
  rw [resolves]
  cases entry.redirectTarget with
  | none => simp
  | some target => simp

theorem stored_eq_self {dangling : Dangling} {creator : Creator}
    (h : ∀ entry ∈ creator.entries, creator.resolves entry = true) :
    creator.stored dangling = creator := by
  cases dangling with
  | stored => rfl
  | discarded => rw [stored, pruned, List.filter_eq_self.mpr h]

theorem mem_stored {dangling : Dangling} {creator : Creator} {entry : Entry} :
    entry ∈ (creator.stored dangling).entries ↔
      entry ∈ creator.entries ∧ (dangling = .discarded → creator.resolves entry = true) := by
  cases dangling with
  | stored => simp [stored]
  | discarded => simp [stored, pruned]

@[simp] theorem mem_toArchive {creator : Creator} {nodup count_lt} {entry : Entry} :
    entry ∈ (creator.toArchive nodup count_lt).entries ↔ entry ∈ creator.entries :=
  (List.perm_insertionSort _ _).mem_iff

@[simp] theorem length_toArchive {creator : Creator} {nodup count_lt} :
    (creator.toArchive nodup count_lt).entries.length = creator.entries.length :=
  List.length_insertionSort ..

end Creator

end ZimTools.Incremental
