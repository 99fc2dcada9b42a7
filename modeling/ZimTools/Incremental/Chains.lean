import ZimTools.Incremental.Update

/-!
# Chains of updates

Whoever follows a file from release to release patches what the last patch has
made, with a diff of two releases that he need not have.  His archive holds a
release when it has its content and its UUID; titles and MIME types may be older.
To be patched that is enough: from an archive that holds a release the diff to
the next one makes an archive that holds the next (`holds_step`), so that a chain
of diffs leads to the last release (`follows_iff`).
-/

namespace ZimTools.Incremental

open Loop Zimdiff Zimpatch

/-! ## Archives that hold a release -/

/-- The archive has the content of the release and its UUID. -/
structure Holds (archive release : Archive) : Prop where
  content : ∀ path, archive.content path = release.content path
  uuid : archive.uuid = release.uuid

theorem Holds.refl (release : Archive) : Holds release release := ⟨fun _ => rfl, rfl⟩

theorem redirectTarget_of_content {entry entry' : Entry} (h : entry.content = entry'.content) :
    entry.redirectTarget = entry'.redirectTarget := by
  obtain ⟨path, title, kind⟩ := entry
  obtain ⟨path', title', kind'⟩ := entry'
  cases kind with
  | item mimetype data =>
      cases kind' with
      | item mimetype' data' => rfl
      | redirect target' => cases h
  | redirect target =>
      cases kind' with
      | item mimetype' data' => cases h
      | redirect target' =>
          cases h
          rfl

section

variable {archive release next : Archive}

theorem Holds.find_none (h : Holds archive release) {path : Bytes} :
    archive.find path = none ↔ release.find path = none := by
  have hcontent := h.content path
  rw [Archive.content, Archive.content] at hcontent
  rw [← Option.map_eq_none_iff, hcontent, Option.map_eq_none_iff]

/-- An entry of the archive is one of the release, with the same content. -/
theorem Holds.exists_entry (h : Holds archive release) {entry : Entry}
    (hentry : entry ∈ archive.entries) :
    ∃ entry' ∈ release.entries, entry'.path = entry.path ∧ entry'.content = entry.content := by
  have hcontent := h.content entry.path
  rw [content_of_mem hentry, Archive.content, eq_comm, Option.map_eq_some_iff] at hcontent
  obtain ⟨entry', hfind, hcontent⟩ := hcontent
  obtain ⟨hmem, hpath⟩ := Archive.find_eq_some_iff.mp hfind
  exact ⟨entry', hmem, hpath, hcontent⟩

theorem Holds.length_eq (h : Holds archive release) :
    archive.entries.length = release.entries.length := by
  have hmem : ∀ path, path ∈ archive.entries.map Entry.path ↔ path ∈ release.entries.map Entry.path := by
    intro path
    rw [← not_iff_not]
    have hnone : archive.find path = none ↔ release.find path = none := h.find_none
    simp only [Archive.find_eq_none_iff] at hnone
    simpa [List.mem_map] using hnone
  have hperm := (List.perm_ext_iff_of_nodup archive.nodup release.nodup).mpr hmem
  rw [← List.length_map Entry.path, hperm.length_eq, List.length_map]

/-! ## One step -/

/-- What `zimpatch` gives the creator for an archive and the diff of two releases. -/
def stepCreator (archive release next : Archive) (uuid : Uuid) : Creator :=
  outCreator archive (diff release next uuid) next.uuid (next.mainPath.getD [])
    (pairs next.entries []) (deleted release next)

/-- Where paths keep their kinds, an entry that is not replaced is an item or
leads on. -/
theorem keptCopyable_step (h : Holds archive release) (hkinds : SameKinds release next)
    (uuid : Uuid) :
    KeptCopyable archive (diff release next uuid) (pairs next.entries []) (deleted release next) := by
  intro entry hentry hdeleted hlookup
  obtain ⟨entry1, h1, hpath, hcontent⟩ := h.exists_entry hentry
  rw [mem_deleted, ← hpath, Archive.find_of_mem h1] at hdeleted
  obtain ⟨entry2, hfind2⟩ := Option.ne_none_iff_exists'.mp fun hnone =>
    hdeleted ⟨Option.some_ne_none _, hnone⟩
  obtain ⟨h2, hpath2⟩ := Archive.find_eq_some_iff.mp hfind2
  rw [lookup_redirects, ← hpath, hfind2, Option.bind_some] at hlookup
  refine copyable_of_redirectTarget ?_
  rw [source, find_diff, ← hpath, hfind2, Option.filter_some]
  cases changed release entry2 with
  | true => exact hlookup
  | false =>
      have hitem := hkinds entry1 h1 entry2 h2 hpath2.symm
      rw [isRedirect_eq_false_iff.mpr hlookup, isRedirect_eq_false_iff,
        redirectTarget_of_content hcontent] at hitem
      exact hitem

theorem addedCopyable_step (uuid : Uuid) :
    AddedCopyable archive (diff release next uuid) (pairs next.entries []) := by
  intro entry hentry _ _ hlookup
  rw [lookup_redirects, Archive.find_of_mem (mem_diff.mp hentry).1] at hlookup
  exact copyable_of_redirectTarget hlookup

/-- What is added has a path of the next release. -/
theorem path_mem_stepCreator (h : Holds archive release) {uuid : Uuid} {entry : Entry}
    (hentry : entry ∈ (stepCreator archive release next uuid).entries) :
    next.find entry.path ≠ none := by
  rw [stepCreator, mem_outCreator] at hentry
  rcases hentry with ⟨entry1, h1, hkept, rfl⟩ | ⟨entry2, h2, -, -, rfl⟩
  · rw [redirected_path, source_path]
    intro hnone
    refine hkept (mem_deleted.mpr ⟨fun hrelease => ?_, hnone⟩)
    rw [← h.find_none, Archive.find_of_mem h1] at hrelease
    cases hrelease
  · rw [redirected_path, Archive.find_of_mem (mem_diff.mp h2).1]
    exact Option.some_ne_none _

theorem nodup_stepCreator (archive release next : Archive) (uuid : Uuid) :
    ((stepCreator archive release next uuid).entries.map Entry.path).Nodup :=
  nodup_outCreator ..

theorem length_stepCreator_lt (h : Holds archive release) (next : Archive) (uuid : Uuid) :
    (stepCreator archive release next uuid).entries.length < UInt32.size := by
  have hsubset : (stepCreator archive release next uuid).entries.map Entry.path ⊆
      next.entries.map Entry.path := by
    intro path hpath
    obtain ⟨entry, hentry, rfl⟩ := List.mem_map.mp hpath
    obtain ⟨entry2, hfind⟩ := Option.ne_none_iff_exists'.mp (path_mem_stepCreator h hentry)
    obtain ⟨h2, hpath⟩ := Archive.find_eq_some_iff.mp hfind
    exact hpath ▸ List.mem_map_of_mem h2
  have hle := (List.subperm_of_subset (nodup_stepCreator archive release next uuid) hsubset).length_le
  rw [List.length_map, List.length_map] at hle
  exact Nat.lt_of_le_of_lt hle next.count_lt

/-- The archive that `zimpatch` makes of one that holds a release. -/
def step (h : Holds archive release) (next : Archive) (uuid : Uuid) : Archive :=
  (stepCreator archive release next uuid).toArchive (nodup_stepCreator archive release next uuid)
    (length_stepCreator_lt h next uuid)

/-- It is made exactly when the release itself could be patched. -/
theorem returns_step (h : Holds archive release) (hrelease : release.NewlineFree)
    (hnext : next.NewlineFree) (hclosed : next.Closed) (hkinds : SameKinds release next)
    {uuid uuid' tempArray : Uuid} {out : Archive} :
    (∃ fuel, Returns (Zimpatch.create archive (diff release next uuid) uuid' tempArray fuel) out) ↔
      Fits release next ∧ out = step h next uuid := by
  have hpresent : ∀ url ∈ deleted release next, archive.index url ≠ none := fun url hurl =>
    index_ne_none (h.find_none.not.mpr (mem_deleted.mp hurl).1)
  have hrun (fuel : Nat) := returns_create (r := out) uuid' tempArray fuel
    (describes_diff hrelease hnext hclosed uuid) hpresent
  simp only [hrun, length_redirectlist, length_dlist, length_diff, h.length_eq,
    length_le_mod_iff (Nat.lt_of_le_of_lt (List.length_filter_le ..) next.count_lt)]
  constructor
  · rintro ⟨fuel, -, hredirect, -, hdlist, -, hcount, -, -, nodup, count_lt, rfl⟩
    exact ⟨⟨hredirect, hdlist, hcount⟩, rfl⟩
  · rintro ⟨⟨hredirect, hdlist, hcount⟩, rfl⟩
    have huid := length_uidLines next.uuid
    exact ⟨UInt32.size, Nat.lt_of_le_of_lt huid (by decide), hredirect, hredirect, hdlist, hdlist,
      hcount, keptCopyable_step h hkinds uuid, addedCopyable_step uuid, _, _, rfl⟩

/-- What is added for an entry of the archive has the content of the next release. -/
theorem content_kept (h : Holds archive release) (hkinds : SameKinds release next) {uuid : Uuid}
    {entry entry2 : Entry} (hentry : entry ∈ archive.entries) (h2 : entry2 ∈ next.entries)
    (hpath : entry2.path = entry.path) :
    (redirected (pairs next.entries []) (source archive (diff release next uuid) entry).2).content =
      entry2.content := by
  obtain ⟨entry1, h1, hpath1, hcontent⟩ := h.exists_entry hentry
  have hkind := hkinds entry1 h1 entry2 h2 (hpath1.trans hpath.symm)
  rw [redirected, source_path, lookup_redirects, ← hpath, Archive.find_of_mem h2, Option.bind_some]
  cases htarget : entry2.redirectTarget with
  | some target =>
      obtain ⟨path2, title2, kind2⟩ := entry2
      cases kind2 with
      | item mimetype2 data2 => cases htarget
      | redirect target2 =>
          cases htarget
          rfl
  | none =>
      rw [source, find_diff, ← hpath, Archive.find_of_mem h2, Option.filter_some]
      cases hchanged : changed release entry2 with
      | true => rfl
      | false =>
          have hitem : entry1.redirectTarget = none := by
            rwa [isRedirect_eq_false_iff.mpr htarget, isRedirect_eq_false_iff] at hkind
          exact hcontent.symm.trans
            (content_of_unchanged h1 (hpath.trans hpath1.symm) hitem htarget hchanged)

theorem content_step (h : Holds archive release) (hkinds : SameKinds release next)
    (hnames : ∀ entry ∈ next.entries, isAdditionalMetadata entry.path = false) (uuid : Uuid)
    (path : Bytes) : (step h next uuid).content path = next.content path := by
  have hcontent : ∀ entry ∈ (stepCreator archive release next uuid).entries,
      (step h next uuid).content entry.path = some entry.content := fun entry hentry =>
    content_of_mem (Creator.mem_toArchive.mpr hentry)
  cases hfind : next.find path with
  | none =>
      rw [Archive.content, Archive.content, hfind, Option.map_none, Option.map_eq_none_iff,
        Archive.find_eq_none_iff]
      rintro entry hentry rfl
      exact path_mem_stepCreator h (Creator.mem_toArchive.mp hentry) hfind
  | some entry2 =>
      obtain ⟨h2, rfl⟩ := Archive.find_eq_some_iff.mp hfind
      rw [content_of_mem h2]
      cases hold : archive.find entry2.path with
      | some entry =>
          obtain ⟨hentry, hpath⟩ := Archive.find_eq_some_iff.mp hold
          have hkept := hcontent _ (mem_outCreator.mpr (Or.inl ⟨entry, hentry, ?_, rfl⟩))
          · rwa [redirected_path, source_path, hpath,
              content_kept h hkinds hentry h2 hpath.symm] at hkept
          · rw [mem_deleted, hpath, hfind]
            exact fun hdeleted => Option.some_ne_none _ hdeleted.2
      | none =>
          have hchanged : changed release entry2 = true := by rw [changed, h.find_none.mp hold]
          have hadded := hcontent _ (mem_outCreator.mpr (Or.inr ⟨entry2,
            mem_diff.mpr ⟨h2, hchanged⟩, hold, hnames entry2 h2, rfl⟩))
          rwa [redirected_path, redirected_content h2] at hadded

theorem holds_step (h : Holds archive release) (hkinds : SameKinds release next)
    (hnames : ∀ entry ∈ next.entries, isAdditionalMetadata entry.path = false) (uuid : Uuid) :
    Holds (step h next uuid) next where
  content := content_step h hkinds hnames uuid
  uuid := rfl

end

/-! ## A chain -/

/-- From an archive that holds a release, each diff to the next release is made
and applied. -/
def Follows : Archive → Archive → List Archive → Archive → Prop
  | archive, _, [], out => out = archive
  | archive, release, next :: releases, out =>
      ∃ diffArchive archive' uuid uuid' tempArray fuel,
        Returns (Zimdiff.create release next uuid) diffArchive ∧
        Returns (Zimpatch.create archive diffArchive uuid' tempArray fuel) archive' ∧
        Follows archive' next releases out

theorem follows_cons {archive release next out : Archive} {releases : List Archive}
    (hrelease : release.Plain) (hnext : next.Plain) (hkinds : SameKinds release next)
    (hholds : Holds archive release) :
    Follows archive release (next :: releases) out ↔
      Fits release next ∧ ∃ uuid, Follows (step hholds next uuid) next releases out := by
  constructor
  · rintro ⟨diffArchive, archive', uuid, uuid', tempArray, fuel, hdiff, hpatch, hout⟩
    obtain ⟨hclosed, rfl⟩ := Zimdiff.returns_create.mp hdiff
    obtain ⟨hfits, rfl⟩ := (returns_step hholds hrelease.newlineFree hnext.newlineFree hclosed
      hkinds).mp ⟨fuel, hpatch⟩
    exact ⟨hfits, uuid, hout⟩
  · rintro ⟨hfits, uuid, hout⟩
    have hpatch : ∃ fuel, Returns (Zimpatch.create archive (diff release next uuid) zeroUuid zeroUuid
        fuel) (step hholds next uuid) :=
      (returns_step hholds hrelease.newlineFree hnext.newlineFree hnext.closed hkinds).mpr
        ⟨hfits, rfl⟩
    obtain ⟨fuel, hpatch⟩ := hpatch
    exact ⟨_, _, uuid, zeroUuid, zeroUuid, fuel, Zimdiff.returns_create.mpr ⟨hnext.closed, rfl⟩,
      hpatch, hout⟩

/-- A chain of diffs can be applied exactly when the counters of `zimpatch`
suffice for each of them, and then leads to an archive that holds the last
release. -/
theorem follows_iff {release : Archive} {releases : List Archive}
    (hplain : ∀ r ∈ release :: releases, r.Plain)
    (hkinds : (release :: releases).IsChain SameKinds) {archive : Archive}
    (hholds : Holds archive release) :
    ((∃ out, Follows archive release releases out) ↔ (release :: releases).IsChain Fits) ∧
      ∀ out, Follows archive release releases out →
        Holds out ((release :: releases).getLast (List.cons_ne_nil _ _)) := by
  induction releases generalizing archive release with
  | nil =>
      refine ⟨⟨fun _ => .singleton _, fun _ => ⟨archive, rfl⟩⟩, ?_⟩
      rintro out rfl
      exact hholds
  | cons next releases ih =>
      obtain ⟨hrelease, hrest⟩ := List.forall_mem_cons.mp hplain
      have hnext : next.Plain := hrest next (List.mem_cons_self ..)
      obtain ⟨hkind, hkinds⟩ := List.isChain_cons_cons.mp hkinds
      have hrec (uuid : Uuid) := ih hrest hkinds (holds_step hholds hkind hnext.noMetadata uuid)
      simp only [follows_cons hrelease hnext hkind hholds, List.isChain_cons_cons]
      constructor
      · constructor
        · rintro ⟨out, hfits, uuid, hout⟩
          exact ⟨hfits, (hrec uuid).1.mp ⟨out, hout⟩⟩
        · rintro ⟨hfits, hchain⟩
          obtain ⟨out, hout⟩ := (hrec zeroUuid).1.mpr hchain
          exact ⟨out, hfits, zeroUuid, hout⟩
      · rintro out ⟨-, uuid, hout⟩
        rw [List.getLast_cons (List.cons_ne_nil _ _)]
        exact (hrec uuid).2 out hout

/-- One update and another one back. -/
theorem follows_sample :
    ∃ out, Follows startSample startSample [endSample, startSample] out ∧ Holds out startSample := by
  have hstart : startSample.Plain := ⟨by decide, by decide, by decide⟩
  have hend : endSample.Plain := ⟨by decide, by decide, by decide⟩
  have hplain : ∀ r ∈ [startSample, endSample, startSample], r.Plain := by simp [hstart, hend]
  have hkinds : [startSample, endSample, startSample].IsChain SameKinds :=
    .cons_cons (by decide) (.cons_cons (by decide) (.singleton _))
  have hchain := follows_iff hplain hkinds (Holds.refl startSample)
  have hfits : [startSample, endSample, startSample].IsChain Fits :=
    .cons_cons ⟨by decide, by decide, by decide⟩
      (.cons_cons ⟨by decide, by decide, by decide⟩ (.singleton _))
  obtain ⟨out, hout⟩ := hchain.1.mpr hfits
  exact ⟨out, hout, hchain.2 out hout⟩

end ZimTools.Incremental
