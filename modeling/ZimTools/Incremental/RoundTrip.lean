import ZimTools.Incremental.Zimdiff
import ZimTools.Incremental.Zimpatch

/-!
# Patching with a diff

What `zimpatch` makes of a start archive and of its diff to an end archive.  It
makes an archive exactly when its counters suffice and it meets no redirect that
it cannot copy (`exists_returns_create`).  The new archive is `patch`, and
`merged` says what it has at a path (`content_patch`).  That is what the end
archive has, but for two kinds of paths: a redirect stays where the end archive
has an item, and a new entry is left out when it has the name of an additional
metadata entry.
-/

namespace ZimTools.Incremental

open Loop Zimdiff Zimpatch

/-! ## What an archive holds -/

/-- What there is at a path: the data of an item, or the target of a redirect. -/
inductive Content where
  | item (data : Bytes)
  | redirect (target : Bytes)
deriving DecidableEq, Repr

def Entry.content (entry : Entry) : Content :=
  match entry.kind with
  | .item _ data => .item data
  | .redirect target => .redirect target

def Archive.content (archive : Archive) (path : Bytes) : Option Content :=
  (archive.find path).map Entry.content

/-- No path of the archive has a newline. -/
def Archive.NewlineFree (archive : Archive) : Prop :=
  ∀ entry ∈ archive.entries, char '\n' ∉ entry.path

instance (archive : Archive) : Decidable archive.NewlineFree :=
  inferInstanceAs (Decidable (∀ entry ∈ archive.entries, char '\n' ∉ entry.path))

section

variable {startArchive endArchive : Archive}

/-! ## The lists of a diff -/

theorem mem_deleted {path : Bytes} : path ∈ deleted startArchive endArchive ↔
    startArchive.find path ≠ none ∧ endArchive.find path = none := by
  rw [deleted, List.mem_map]
  constructor
  · rintro ⟨entry, hentry, rfl⟩
    obtain ⟨hmem, hend⟩ := List.mem_filter.mp hentry
    refine ⟨by simp [Archive.find_of_mem hmem], ?_⟩
    simpa [Archive.hasEntryByPath] using hend
  · rintro ⟨hstart, hend⟩
    obtain ⟨entry, hentry⟩ := Option.ne_none_iff_exists'.mp hstart
    obtain ⟨hmem, rfl⟩ := Archive.find_eq_some_iff.mp hentry
    exact ⟨entry, List.mem_filter.mpr ⟨hmem, by simp [Archive.hasEntryByPath, hend]⟩, rfl⟩

theorem newline_notMem_deleted (h : startArchive.NewlineFree) :
    ∀ line ∈ deleted startArchive endArchive, char '\n' ∉ line := by
  intro line hline
  obtain ⟨entry, hentry, rfl⟩ := List.mem_map.mp hline
  exact h entry (List.mem_of_mem_filter hentry)

theorem newline_notMem_redirectLines (h : endArchive.NewlineFree) (hclosed : endArchive.Closed) :
    ∀ line ∈ endArchive.entries.flatMap redirectLines, char '\n' ∉ line := by
  intro line hline
  obtain ⟨entry, hentry, hline⟩ := List.mem_flatMap.mp hline
  obtain ⟨path, title, kind⟩ := entry
  cases kind with
  | item mimetype data => simp [redirectLines] at hline
  | redirect target =>
      rcases List.mem_cons.mp hline with rfl | hline
      · exact h _ hentry
      · obtain rfl := List.mem_singleton.mp hline
        obtain ⟨entry', hfind⟩ := Option.isSome_iff_exists.mp (hclosed _ hentry line rfl)
        obtain ⟨hmem, rfl⟩ := Archive.find_eq_some_iff.mp hfind
        exact h entry' hmem

theorem index_ne_none {path : Bytes} (h : startArchive.find path ≠ none) :
    startArchive.index path ≠ none := by
  obtain ⟨entry, hentry⟩ := Option.ne_none_iff_exists'.mp h
  obtain ⟨hmem, rfl⟩ := Archive.find_eq_some_iff.mp hentry
  obtain ⟨i, hi⟩ := List.getElem?_of_mem hmem
  rw [Archive.index_eq_some_iff.mpr ⟨entry, hi, rfl⟩]
  exact Option.some_ne_none i

/-- The redirect list that `zimpatch` reads gives the targets in the end archive. -/
theorem lookup_redirects (endArchive : Archive) (path : Bytes) :
    (pairs endArchive.entries []).lookup path =
      (endArchive.find path).bind Entry.redirectTarget := by
  rw [lookup_pairs path [] endArchive.nodup]
  exact Option.or_none

theorem describes_diff (hstart : startArchive.NewlineFree) (hend : endArchive.NewlineFree)
    (hclosed : endArchive.Closed) (uuid : Uuid) :
    Describes (diff startArchive endArchive uuid) endArchive.uuid (endArchive.mainPath.getD [])
      endArchive.entries (deleted startArchive endArchive) where
  endfileuid := rfl
  mainaurl := rfl
  redirectlist := rfl
  dlist := rfl
  redirects_lines := newline_notMem_redirectLines hend hclosed
  deleteList_lines := newline_notMem_deleted hstart

/-! ## When a patch is made -/

/-- The bytes of the redirect list for an entry. -/
def redirectSize (entry : Entry) : Nat :=
  match entry.kind with
  | .item .. => 0
  | .redirect target => entry.path.length + 1 + (target.length + 1)

/-- What `zimpatch` counts with an `unsigned int` has fewer than 2^32: the bytes
of the redirect list, the bytes of the list of deleted paths, and the entries of
the start archive together with those of the diff. -/
structure Fits (startArchive endArchive : Archive) : Prop where
  redirectlist : (endArchive.entries.map redirectSize).sum < UInt32.size
  dlist : ((startArchive.entries.filter fun entry =>
    !endArchive.hasEntryByPath entry.path).map fun entry => entry.path.length + 1).sum < UInt32.size
  count : startArchive.entries.length + (endArchive.entries.filter (changed startArchive)).length <
    UInt32.size

/-- Every redirect of the start archive that is an item in the end archive leads
to an entry of the start archive. -/
def StaleCopyable (startArchive endArchive : Archive) : Prop :=
  ∀ entry1 ∈ startArchive.entries, ∀ entry2 ∈ endArchive.entries, entry2.path = entry1.path →
    entry2.redirectTarget = none → startArchive.Copyable entry1

instance (startArchive endArchive : Archive) : Decidable (StaleCopyable startArchive endArchive) :=
  inferInstanceAs (Decidable (∀ entry1 ∈ startArchive.entries, ∀ entry2 ∈ endArchive.entries,
    entry2.path = entry1.path → entry2.redirectTarget = none → startArchive.Copyable entry1))

theorem length_redirectlist (archive : Archive) :
    (unlines (archive.entries.flatMap redirectLines)).length =
      (archive.entries.map redirectSize).sum := by
  induction archive.entries with
  | nil => rfl
  | cons entry entries ih =>
      rw [length_unlines] at ih
      rw [length_unlines, List.flatMap_cons, List.map_append, List.sum_append, ih, List.map_cons,
        List.sum_cons]
      obtain ⟨path, title, kind⟩ := entry
      cases kind <;> simp [redirectLines, redirectSize]

theorem length_dlist (startArchive endArchive : Archive) :
    (unlines (deleted startArchive endArchive)).length =
      ((startArchive.entries.filter fun entry =>
        !endArchive.hasEntryByPath entry.path).map fun entry => entry.path.length + 1).sum := by
  rw [length_unlines, deleted, List.map_map]
  rfl

theorem length_diff (startArchive endArchive : Archive) (uuid : Uuid) :
    (diff startArchive endArchive uuid).entries.length =
      (endArchive.entries.filter (changed startArchive)).length :=
  Creator.length_toArchive

/-- The sum of the counts wraps exactly when the marks are too few. -/
theorem length_le_mod_iff {a b : Nat} (hb : b < UInt32.size) :
    a ≤ (a + b) % UInt32.size ↔ a + b < UInt32.size := by
  unfold UInt32.size at *
  omega

theorem copyable_of_redirectTarget {archive : Archive} {entry : Entry}
    (h : entry.redirectTarget = none) : archive.Copyable entry := by
  intro target hkind
  rw [Entry.redirectTarget, hkind] at h
  cases h

theorem addedCopyable_diff (startArchive endArchive : Archive) (uuid : Uuid) :
    AddedCopyable startArchive (diff startArchive endArchive uuid) (pairs endArchive.entries []) := by
  intro entry hentry _ _ hlookup
  refine copyable_of_redirectTarget ?_
  have hmem := (mem_diff.mp hentry).1
  rwa [lookup_redirects, Archive.find_of_mem hmem] at hlookup

/-- What the first loop takes for an entry that is an item in the end archive. -/
theorem source_diff {entry1 entry2 : Entry} (h2 : entry2 ∈ endArchive.entries)
    (hpath : entry2.path = entry1.path) (uuid : Uuid) :
    source startArchive (diff startArchive endArchive uuid) entry1 =
      if changed startArchive entry2 then (diff startArchive endArchive uuid, entry2)
      else (startArchive, entry1) := by
  rw [source, find_diff, ← hpath, Archive.find_of_mem h2, Option.filter_some]
  cases changed startArchive entry2 <;> rfl

theorem changed_of_redirect {entry1 entry2 : Entry} (h1 : entry1 ∈ startArchive.entries)
    (hpath : entry2.path = entry1.path) (h : entry1.redirectTarget ≠ none) :
    changed startArchive entry2 = false := by
  rw [changed, hpath, Archive.find_of_mem h1]
  obtain ⟨path, title, kind⟩ := entry1
  cases kind with
  | item mimetype data => exact absurd rfl h
  | redirect target => cases entry2.kind <;> rfl

theorem keptCopyable_diff (uuid : Uuid) :
    KeptCopyable startArchive (diff startArchive endArchive uuid) (pairs endArchive.entries [])
        (deleted startArchive endArchive) ↔
      StaleCopyable startArchive endArchive := by
  constructor
  · intro h entry1 h1 entry2 h2 hpath hitem
    by_cases hredirect : entry1.redirectTarget = none
    · exact copyable_of_redirectTarget hredirect
    · have hkept := h entry1 h1 (by simp [mem_deleted, ← hpath, Archive.find_of_mem h2])
        (by rw [lookup_redirects, ← hpath, Archive.find_of_mem h2]; exact hitem)
      rwa [source_diff h2 hpath, changed_of_redirect h1 hpath hredirect, if_neg nofun] at hkept
  · intro h entry1 h1 hdeleted hlookup
    rw [mem_deleted, Archive.find_of_mem h1] at hdeleted
    obtain ⟨entry2, hentry2⟩ := Option.ne_none_iff_exists'.mp fun hnone =>
      hdeleted ⟨Option.some_ne_none _, hnone⟩
    obtain ⟨h2, hpath⟩ := Archive.find_eq_some_iff.mp hentry2
    rw [lookup_redirects, hentry2] at hlookup
    rw [source_diff h2 hpath]
    split
    · exact copyable_of_redirectTarget hlookup
    · exact h entry1 h1 entry2 h2 hpath hlookup

/-- What the new archive has at a path. -/
def merged (startArchive endArchive : Archive) (path : Bytes) : Option Content :=
  match endArchive.find path with
  | none => none
  | some entry2 =>
      match startArchive.find path with
      | none => if isAdditionalMetadata path then none else some entry2.content
      | some entry1 =>
          if entry2.redirectTarget = none ∧ entry1.redirectTarget ≠ none then some entry1.content
          else some entry2.content

/-- The creator of the new archive. -/
def patchCreator (startArchive endArchive : Archive) (uuid : Uuid) : Creator :=
  outCreator startArchive (diff startArchive endArchive uuid) endArchive.uuid
    (endArchive.mainPath.getD []) (pairs endArchive.entries []) (deleted startArchive endArchive)

theorem mem_outCreator {diffArchive : Archive} {uuid : Uuid} {mainPath : Bytes}
    {redirectList : List (Bytes × Bytes)} {deleteList : List Bytes} {entry : Entry} :
    entry ∈ (outCreator startArchive diffArchive uuid mainPath redirectList deleteList).entries ↔
      (∃ entry1 ∈ startArchive.entries, entry1.path ∉ deleteList ∧
        entry = redirected redirectList (source startArchive diffArchive entry1).2) ∨
      ∃ entry2 ∈ diffArchive.entries, startArchive.find entry2.path = none ∧
        isAdditionalMetadata entry2.path = false ∧ entry = redirected redirectList entry2 := by
  simp only [outCreator, List.mem_append, kept, added, List.mem_filterMap,
    Option.ite_none_left_eq_some, Option.some.injEq, Archive.hasEntryByPath, Bool.or_eq_true,
    not_or, Bool.not_eq_true, Option.isSome_eq_false_iff, Option.isNone_iff_eq_none]
  refine or_congr (exists_congr fun entry1 => and_congr_right fun _ => and_congr_right fun _ =>
    eq_comm) (exists_congr fun entry2 => and_congr_right fun _ => ?_)
  rw [and_assoc, eq_comm (b := entry)]

theorem mem_patchCreator {uuid : Uuid} {entry : Entry} :
    entry ∈ (patchCreator startArchive endArchive uuid).entries ↔
      (∃ entry1 ∈ startArchive.entries, entry1.path ∉ deleted startArchive endArchive ∧
        entry = redirected (pairs endArchive.entries [])
          (source startArchive (diff startArchive endArchive uuid) entry1).2) ∨
      ∃ entry2 ∈ endArchive.entries, startArchive.find entry2.path = none ∧
        isAdditionalMetadata entry2.path = false ∧
        entry = redirected (pairs endArchive.entries []) entry2 := by
  have hchanged (entry2 : Entry) (h : startArchive.find entry2.path = none) :
      changed startArchive entry2 = true := by rw [changed, h]
  rw [patchCreator, mem_outCreator]
  simp only [mem_diff]
  refine or_congr_right (exists_congr fun entry2 => ?_)
  constructor
  · rintro ⟨⟨h2, -⟩, hnew⟩
    exact ⟨h2, hnew⟩
  · rintro ⟨h2, hfind, hnew⟩
    exact ⟨⟨h2, hchanged entry2 hfind⟩, hfind, hnew⟩

/-- Entries keep their paths. -/
theorem map_path_filterMap_sublist {f : Entry → Option Entry}
    (h : ∀ entry entry', f entry = some entry' → entry'.path = entry.path) (entries : List Entry) :
    ((entries.filterMap f).map Entry.path).Sublist (entries.map Entry.path) := by
  induction entries with
  | nil => exact .slnil
  | cons entry entries ih =>
      cases hf : f entry with
      | none => rw [List.filterMap_cons_none hf]; exact ih.cons _
      | some entry' =>
          rw [List.filterMap_cons_some hf, List.map_cons, List.map_cons, h entry entry' hf]
          exact ih.cons_cons _

/-- No path is added twice. -/
theorem nodup_outCreator (startArchive diffArchive : Archive) (uuid : Uuid) (mainPath : Bytes)
    (redirectList : List (Bytes × Bytes)) (deleteList : List Bytes) :
    ((outCreator startArchive diffArchive uuid mainPath redirectList
      deleteList).entries.map Entry.path).Nodup := by
  have hkept : ((kept startArchive diffArchive redirectList deleteList).map Entry.path).Sublist
      (startArchive.entries.map Entry.path) :=
    map_path_filterMap_sublist (fun entry entry' h => by
      rw [Option.ite_none_left_eq_some] at h
      rw [← Option.some.inj h.2, redirected_path, source_path]) _
  have hadded : ((added startArchive diffArchive redirectList).map Entry.path).Sublist
      (diffArchive.entries.map Entry.path) :=
    map_path_filterMap_sublist (fun entry entry' h => by
      rw [Option.ite_none_left_eq_some] at h
      rw [← Option.some.inj h.2, redirected_path]) _
  rw [outCreator, List.map_append]
  refine (startArchive.nodup.sublist hkept).append (diffArchive.nodup.sublist hadded)
    fun path hpath hpath' => ?_
  obtain ⟨entry1, h1, rfl⟩ := List.mem_map.mp (hkept.subset hpath)
  obtain ⟨entry', hentry', hpath'⟩ := List.mem_map.mp hpath'
  obtain ⟨entry2, -, h⟩ := List.mem_filterMap.mp hentry'
  rw [Option.ite_none_left_eq_some, Option.some.injEq] at h
  obtain ⟨hnew, rfl⟩ := h
  rw [redirected_path] at hpath'
  simp [Archive.hasEntryByPath, hpath', Archive.find_of_mem h1] at hnew

/-- What is added has paths of the end archive, so that it is not too much. -/
theorem length_outCreator_lt {diffArchive : Archive}
    (h : ∀ entry2 ∈ diffArchive.entries, entry2 ∈ endArchive.entries) (uuid : Uuid)
    (mainPath : Bytes) (redirectList : List (Bytes × Bytes)) :
    (outCreator startArchive diffArchive uuid mainPath redirectList
      (deleted startArchive endArchive)).entries.length < UInt32.size := by
  have hsubset : (outCreator startArchive diffArchive uuid mainPath redirectList
      (deleted startArchive endArchive)).entries.map Entry.path ⊆
        endArchive.entries.map Entry.path := by
    intro path hpath
    obtain ⟨entry, hentry, rfl⟩ := List.mem_map.mp hpath
    rcases mem_outCreator.mp hentry with ⟨entry1, h1, hkept, rfl⟩ | ⟨entry2, h2, -, -, rfl⟩
    · rw [redirected_path, source_path]
      rw [mem_deleted, Archive.find_of_mem h1] at hkept
      obtain ⟨entry2, hentry2⟩ := Option.ne_none_iff_exists'.mp fun hnone =>
        hkept ⟨Option.some_ne_none _, hnone⟩
      obtain ⟨h2, hpath⟩ := Archive.find_eq_some_iff.mp hentry2
      exact List.mem_map.mpr ⟨entry2, h2, hpath⟩
    · rw [redirected_path]
      exact List.mem_map_of_mem (h entry2 h2)
  have hle := (List.subperm_of_subset (nodup_outCreator startArchive diffArchive uuid mainPath
    redirectList (deleted startArchive endArchive)) hsubset).length_le
  rw [List.length_map, List.length_map] at hle
  exact Nat.lt_of_le_of_lt hle endArchive.count_lt

theorem nodup_patchCreator (startArchive endArchive : Archive) (uuid : Uuid) :
    ((patchCreator startArchive endArchive uuid).entries.map Entry.path).Nodup :=
  nodup_outCreator ..

theorem length_patchCreator_lt (startArchive endArchive : Archive) (uuid : Uuid) :
    (patchCreator startArchive endArchive uuid).entries.length < UInt32.size :=
  length_outCreator_lt (fun _ h => (mem_diff.mp h).1) ..

/-- The archive that `zimpatch` makes of the start archive and the diff. -/
def patch (startArchive endArchive : Archive) (uuid : Uuid) : Archive :=
  (patchCreator startArchive endArchive uuid).toArchive
    (nodup_patchCreator startArchive endArchive uuid)
    (length_patchCreator_lt startArchive endArchive uuid)

/-- The patch is made exactly when the counters suffice and every redirect that
stays can be copied. -/
theorem exists_returns_create {uuid uuid' tempArray : Uuid} {out : Archive}
    (hstart : startArchive.NewlineFree) (hend : endArchive.NewlineFree)
    (hclosed : endArchive.Closed) :
    (∃ fuel, Returns (Zimpatch.create startArchive (diff startArchive endArchive uuid) uuid'
        tempArray fuel) out) ↔
      Fits startArchive endArchive ∧ StaleCopyable startArchive endArchive ∧
        out = patch startArchive endArchive uuid := by
  have hrun (fuel : Nat) := returns_create (r := out) uuid' tempArray fuel
    (describes_diff hstart hend hclosed uuid)
    fun url hurl => index_ne_none (mem_deleted.mp hurl).1
  simp only [hrun, length_redirectlist, length_dlist, length_diff, keptCopyable_diff,
    length_le_mod_iff (Nat.lt_of_le_of_lt (List.length_filter_le ..) endArchive.count_lt)]
  constructor
  · rintro ⟨fuel, -, hredirect, -, hdlist, -, hcount, hstale, -, nodup, count_lt, rfl⟩
    exact ⟨⟨hredirect, hdlist, hcount⟩, hstale, rfl⟩
  · rintro ⟨⟨hredirect, hdlist, hcount⟩, hstale, rfl⟩
    have huid := length_uidLines endArchive.uuid
    exact ⟨UInt32.size, Nat.lt_of_le_of_lt huid (by decide), hredirect, hredirect, hdlist, hdlist, hcount, hstale,
      addedCopyable_diff startArchive endArchive uuid, _, _, rfl⟩

/-! ## What the patch holds -/

theorem redirected_content {entry : Entry} (h : entry ∈ endArchive.entries) :
    (redirected (pairs endArchive.entries []) entry).content = entry.content := by
  rw [redirected, lookup_redirects, Archive.find_of_mem h]
  obtain ⟨path, title, kind⟩ := entry
  cases kind <;> rfl

theorem content_of_mem {archive : Archive} {entry : Entry} (h : entry ∈ archive.entries) :
    archive.content entry.path = some entry.content := by
  rw [Archive.content, Archive.find_of_mem h]
  rfl

theorem mem_patch {uuid : Uuid} {entry : Entry} :
    entry ∈ (patch startArchive endArchive uuid).entries ↔
      entry ∈ (patchCreator startArchive endArchive uuid).entries :=
  Creator.mem_toArchive

theorem content_of_unchanged {entry1 entry2 : Entry} (h1 : entry1 ∈ startArchive.entries)
    (hpath : entry2.path = entry1.path) (hitem1 : entry1.redirectTarget = none)
    (hitem2 : entry2.redirectTarget = none) (h : changed startArchive entry2 = false) :
    entry1.content = entry2.content := by
  rw [changed, hpath, Archive.find_of_mem h1] at h
  obtain ⟨path, title, kind⟩ := entry1
  obtain ⟨path2, title2, kind2⟩ := entry2
  cases kind with
  | redirect target => cases hitem1
  | item mimetype data =>
      cases kind2 with
      | redirect target => cases hitem2
      | item mimetype2 data2 =>
          have hdata : data2 = data := by simpa using h
          rw [hdata]
          rfl

/-- Where both archives have an entry, the new one has that of the end archive,
except for a redirect that became an item. -/
theorem content_patch_of_mem {entry1 entry2 : Entry} (h1 : entry1 ∈ startArchive.entries)
    (h2 : entry2 ∈ endArchive.entries) (hpath : entry2.path = entry1.path) (uuid : Uuid) :
    (patch startArchive endArchive uuid).content entry1.path =
      if entry2.redirectTarget = none ∧ entry1.redirectTarget ≠ none then some entry1.content
      else some entry2.content := by
  have hmem : redirected (pairs endArchive.entries [])
      (source startArchive (diff startArchive endArchive uuid) entry1).2 ∈
        (patch startArchive endArchive uuid).entries :=
    mem_patch.mpr (mem_patchCreator.mpr (Or.inl ⟨entry1, h1,
      by simp [mem_deleted, ← hpath, Archive.find_of_mem h2], rfl⟩))
  have hcontent := content_of_mem hmem
  rw [redirected_path, source_path] at hcontent
  rw [hcontent, redirected, source_path, lookup_redirects, ← hpath, Archive.find_of_mem h2,
    Option.bind_some]
  cases htarget : entry2.redirectTarget with
  | some target =>
      obtain ⟨path2, title2, kind2⟩ := entry2
      cases kind2 <;> cases htarget
      rfl
  | none =>
      rw [source_diff h2 hpath]
      cases hchanged : changed startArchive entry2 with
      | true =>
          have hitem : entry1.redirectTarget = none := by
            by_contra hredirect
            rw [changed_of_redirect h1 hpath hredirect] at hchanged
            cases hchanged
          simp [hitem]
      | false =>
          by_cases hitem : entry1.redirectTarget = none
          · simp [hitem, content_of_unchanged h1 hpath hitem htarget hchanged]
          · simp [hitem]

theorem content_patch (startArchive endArchive : Archive) (uuid : Uuid) (path : Bytes) :
    (patch startArchive endArchive uuid).content path = merged startArchive endArchive path := by
  rw [merged]
  cases hend : endArchive.find path with
  | none =>
      rw [Archive.content, Option.map_eq_none_iff, Archive.find_eq_none_iff]
      rintro entry hentry rfl
      rcases mem_patchCreator.mp (mem_patch.mp hentry) with
        ⟨entry1, h1, hkept, rfl⟩ | ⟨entry2, h2, -, -, rfl⟩
      · rw [redirected_path, source_path] at hend
        exact hkept (mem_deleted.mpr ⟨by simp [Archive.find_of_mem h1], hend⟩)
      · rw [redirected_path, Archive.find_of_mem h2] at hend
        cases hend
  | some entry2 =>
      obtain ⟨h2, rfl⟩ := Archive.find_eq_some_iff.mp hend
      cases hstart : startArchive.find entry2.path with
      | some entry1 =>
          obtain ⟨h1, hpath⟩ := Archive.find_eq_some_iff.mp hstart
          rw [← hpath]
          exact content_patch_of_mem h1 h2 hpath.symm uuid
      | none =>
          cases hname : isAdditionalMetadata entry2.path with
          | false =>
              have hmem : redirected (pairs endArchive.entries []) entry2 ∈
                  (patch startArchive endArchive uuid).entries :=
                mem_patch.mpr (mem_patchCreator.mpr (Or.inr ⟨entry2, h2, hstart, hname, rfl⟩))
              have hcontent := content_of_mem hmem
              rwa [redirected_path, redirected_content h2] at hcontent
          | true =>
              change (patch startArchive endArchive uuid).content entry2.path = none
              rw [Archive.content, Option.map_eq_none_iff, Archive.find_eq_none_iff]
              intro entry hentry hpath
              rcases mem_patchCreator.mp (mem_patch.mp hentry) with
                ⟨entry1, h1, -, rfl⟩ | ⟨entry', -, -, hname', rfl⟩
              · rw [redirected_path, source_path] at hpath
                rw [← hpath, Archive.find_of_mem h1] at hstart
                cases hstart
              · rw [redirected_path] at hpath
                rw [hpath, hname] at hname'
                cases hname'

end

end ZimTools.Incremental
