import ZimTools.Incremental.Update

/-!
# Updates when dangling redirections are discarded

A creator may look at its redirections when it finishes, and discard those to a
path that was not added to the same archive.  A diff then has a new redirect
only when it also has what the redirect leads to, and `zimpatch` adds no new
path that the diff does not have.  So a new redirect to an entry that stays is
lost (`update_loses_redirect`).  `Survives` says which new redirects are in the
new archive (`new_redirect_iff`).
-/

namespace ZimTools.Incremental

open Loop Zimdiff Zimpatch

/-! ## Pruning -/

namespace Creator

/-- `finishZimCreation` of a creator that discards dangling redirections. -/
def finishPruning (creator : Creator) : Program Archive := creator.finish .discarded

theorem mem_pruned {creator : Creator} {nodup count_lt} {entry : Entry} :
    entry ∈ (creator.pruned.toArchive nodup count_lt).entries ↔
      entry ∈ creator.entries ∧ creator.resolves entry = true := by
  rw [mem_toArchive, pruned, List.mem_filter]

theorem returns_finishPruning {creator : Creator} {archive : Archive} :
    Returns creator.finishPruning archive ↔
      ∃ nodup count_lt, archive = (creator.stored .discarded).toArchive (nodup_stored nodup)
        (length_stored_lt count_lt) :=
  returns_finish

end Creator

/-- `zimdiff` and then `zimpatch`, both with such a creator. -/
def UpdatesPruning (startArchive endArchive : Archive) (uuid uuid' tempArray : Uuid)
    (out : Archive) : Prop :=
  ∃ diffArchive fuel,
    Returns (Zimdiff.fill startArchive endArchive uuid >>= Creator.finishPruning) diffArchive ∧
    Returns (Zimpatch.fill startArchive diffArchive uuid' tempArray fuel >>=
      Creator.finishPruning) out

section

variable {startArchive endArchive : Archive}

/-! ## The diff -/

/-- Whether the diff has an entry of the end archive. -/
def inDiff (startArchive endArchive : Archive) (entry : Entry) : Bool :=
  changed startArchive entry &&
    match entry.redirectTarget with
    | none => true
    | some target => (endArchive.find target).any (changed startArchive)

theorem nodup_diffCreator (startArchive endArchive : Archive) (uuid : Uuid) :
    ((diffCreator startArchive endArchive uuid).entries.map Entry.path).Nodup :=
  endArchive.nodup.sublist (List.filter_sublist.map _)

theorem length_diffCreator_lt (startArchive endArchive : Archive) (uuid : Uuid) :
    (diffCreator startArchive endArchive uuid).entries.length < UInt32.size :=
  Nat.lt_of_le_of_lt (List.length_filter_le ..) endArchive.count_lt

def prunedDiff (startArchive endArchive : Archive) (uuid : Uuid) : Archive :=
  ((diffCreator startArchive endArchive uuid).stored .discarded).toArchive
    (Creator.nodup_stored (nodup_diffCreator startArchive endArchive uuid))
    (Creator.length_stored_lt (length_diffCreator_lt startArchive endArchive uuid))

theorem any_find_iff {archive : Archive} {path : Bytes} {p : Entry → Bool} :
    (archive.find path).any p = true ↔
      ∃ entry ∈ archive.entries, p entry = true ∧ entry.path = path := by
  rw [Option.any_eq_true]
  constructor
  · rintro ⟨entry, hfind, hp⟩
    obtain ⟨hmem, hpath⟩ := Archive.find_eq_some_iff.mp hfind
    exact ⟨entry, hmem, hp, hpath⟩
  · rintro ⟨entry, hmem, hp, hpath⟩
    exact ⟨entry, Archive.find_eq_some_iff.mpr ⟨hmem, hpath⟩, hp⟩

theorem changed_and_resolves (uuid : Uuid) (entry : Entry) :
    (changed startArchive entry && (diffCreator startArchive endArchive uuid).resolves entry) =
      inDiff startArchive endArchive entry := by
  rw [inDiff, Creator.resolves]
  cases entry.redirectTarget with
  | none => rfl
  | some target =>
      refine congrArg _ (Bool.eq_iff_iff.mpr ?_)
      simp only [any_find_iff, List.any_eq_true, diffCreator, List.mem_filter, and_assoc,
        beq_iff_eq]

theorem pruned_diffCreator (uuid : Uuid) :
    ((diffCreator startArchive endArchive uuid).stored .discarded).entries =
      endArchive.entries.filter (inDiff startArchive endArchive) := by
  rw [Creator.stored, Creator.pruned, diffCreator, List.filter_filter]
  refine List.filter_congr fun entry _ => ?_
  rw [Bool.and_comm]
  exact changed_and_resolves uuid entry

theorem mem_prunedDiff {uuid : Uuid} {entry : Entry} :
    entry ∈ (prunedDiff startArchive endArchive uuid).entries ↔
      entry ∈ endArchive.entries ∧ inDiff startArchive endArchive entry = true := by
  rw [prunedDiff, Creator.mem_toArchive, pruned_diffCreator, List.mem_filter]

theorem length_prunedDiff (uuid : Uuid) :
    (prunedDiff startArchive endArchive uuid).entries.length =
      (endArchive.entries.filter (inDiff startArchive endArchive)).length := by
  rw [prunedDiff, Creator.length_toArchive, pruned_diffCreator]

theorem describes_prunedDiff (hstart : startArchive.NewlineFree) (hend : endArchive.NewlineFree)
    (hclosed : endArchive.Closed) (uuid : Uuid) :
    Describes (prunedDiff startArchive endArchive uuid) endArchive.uuid
      (endArchive.mainPath.getD []) endArchive.entries (deleted startArchive endArchive) where
  endfileuid := rfl
  mainaurl := rfl
  redirectlist := rfl
  dlist := rfl
  redirects_lines := newline_notMem_redirectLines hend hclosed
  deleteList_lines := newline_notMem_deleted hstart

/-! ## The new archive -/

def prunedPatchCreator (startArchive endArchive : Archive) (uuid : Uuid) : Creator :=
  outCreator startArchive (prunedDiff startArchive endArchive uuid) endArchive.uuid
    (endArchive.mainPath.getD []) (pairs endArchive.entries []) (deleted startArchive endArchive)

def prunedPatch (startArchive endArchive : Archive) (uuid : Uuid) : Archive :=
  ((prunedPatchCreator startArchive endArchive uuid).stored .discarded).toArchive
    (Creator.nodup_stored (nodup_outCreator ..))
    (Creator.length_stored_lt (length_outCreator_lt (fun _ h => (mem_prunedDiff.mp h).1) ..))

/-- `Fits`, with the diff that is left. -/
structure FitsPruned (startArchive endArchive : Archive) : Prop where
  redirectlist : (endArchive.entries.map redirectSize).sum < UInt32.size
  dlist : ((startArchive.entries.filter fun entry =>
    !endArchive.hasEntryByPath entry.path).map fun entry => entry.path.length + 1).sum < UInt32.size
  count : startArchive.entries.length +
    (endArchive.entries.filter (inDiff startArchive endArchive)).length < UInt32.size

/-- An entry of the end archive that no redirect list names is an item. -/
theorem redirectTarget_eq_none {entry : Entry} (h : entry ∈ endArchive.entries)
    (hlookup : (pairs endArchive.entries []).lookup entry.path = none) :
    entry.redirectTarget = none := by
  rwa [lookup_redirects, Archive.find_of_mem h] at hlookup

theorem keptCopyable_prunedDiff (hclosed : startArchive.Closed) (uuid : Uuid) :
    KeptCopyable startArchive (prunedDiff startArchive endArchive uuid)
      (pairs endArchive.entries []) (deleted startArchive endArchive) := by
  intro entry1 h1 _ hlookup
  rw [source]
  split
  · next entry2 hfind =>
      obtain ⟨h2, hpath⟩ := Archive.find_eq_some_iff.mp hfind
      exact copyable_of_redirectTarget
        (redirectTarget_eq_none (mem_prunedDiff.mp h2).1 (hpath ▸ hlookup))
  · exact hclosed entry1 h1

theorem addedCopyable_prunedDiff (uuid : Uuid) :
    AddedCopyable startArchive (prunedDiff startArchive endArchive uuid)
      (pairs endArchive.entries []) :=
  fun _ h2 _ _ hlookup =>
    copyable_of_redirectTarget (redirectTarget_eq_none (mem_prunedDiff.mp h2).1 hlookup)

theorem updatesPruning_iff (hstart : startArchive.NewlineFree) (hend : endArchive.NewlineFree)
    (hclosed1 : startArchive.Closed) (hclosed2 : endArchive.Closed) {uuid uuid' tempArray : Uuid}
    {out : Archive} :
    UpdatesPruning startArchive endArchive uuid uuid' tempArray out ↔
      FitsPruned startArchive endArchive ∧ out = prunedPatch startArchive endArchive uuid := by
  have hrun (fuel : Nat) (r : Creator) := returns_fill (r := r) uuid' tempArray fuel
    (describes_prunedDiff hstart hend hclosed2 uuid)
    fun url hurl => index_ne_none (mem_deleted.mp hurl).1
  have hmod : ∀ a, a ≤ (a + (prunedDiff startArchive endArchive uuid).entries.length) %
      UInt32.size ↔ a + (endArchive.entries.filter (inDiff startArchive endArchive)).length <
        UInt32.size := fun a => by
    rw [length_prunedDiff]
    exact length_le_mod_iff (Nat.lt_of_le_of_lt (List.length_filter_le ..) endArchive.count_lt)
  simp only [length_redirectlist, length_dlist, hmod] at hrun
  simp only [UpdatesPruning, returns_bind, Zimdiff.returns_fill, Creator.returns_finishPruning]
  constructor
  · rintro ⟨_, fuel, ⟨_, ⟨-, rfl⟩, _, _, rfl⟩, _, hfill, _, _, rfl⟩
    obtain ⟨-, hredirect, -, hdlist, -, hcount, -, -, rfl⟩ := (hrun fuel _).mp hfill
    exact ⟨⟨hredirect, hdlist, hcount⟩, rfl⟩
  · rintro ⟨⟨hredirect, hdlist, hcount⟩, rfl⟩
    have huid := length_uidLines endArchive.uuid
    refine ⟨prunedDiff startArchive endArchive uuid, UInt32.size,
      ⟨_, ⟨hclosed2, rfl⟩, nodup_diffCreator startArchive endArchive uuid,
        length_diffCreator_lt startArchive endArchive uuid, rfl⟩, _, (hrun UInt32.size _).mpr
      ⟨Nat.lt_of_le_of_lt huid (by decide), hredirect, hredirect, hdlist, hdlist, hcount,
        keptCopyable_prunedDiff hclosed1 uuid, addedCopyable_prunedDiff uuid, rfl⟩,
      nodup_outCreator .., length_outCreator_lt (fun _ h => (mem_prunedDiff.mp h).1) .., rfl⟩

/-! ## New redirects -/

/-- What is to hold of a new redirect, and of the entry it leads to: the diff has
that entry, which is added, and no name is one of an additional metadata entry. -/
def Survives (startArchive endArchive : Archive) (path target : Bytes) : Prop :=
  isAdditionalMetadata path = false ∧
    ∃ entry ∈ endArchive.entries, entry.path = target ∧ changed startArchive entry = true ∧
      (startArchive.find target ≠ none ∨
        isAdditionalMetadata target = false ∧ inDiff startArchive endArchive entry = true)

/-- Which paths of the end archive are added. -/
theorem mem_prunedPatchCreator {entry : Entry} (h2 : entry ∈ endArchive.entries) (uuid : Uuid) :
    (∃ entry' ∈ (prunedPatchCreator startArchive endArchive uuid).entries,
        entry'.path = entry.path) ↔
      startArchive.find entry.path ≠ none ∨
        isAdditionalMetadata entry.path = false ∧ inDiff startArchive endArchive entry = true := by
  constructor
  · rintro ⟨entry', hentry', hpath⟩
    rcases mem_outCreator.mp hentry' with ⟨entry1, h1, -, rfl⟩ | ⟨entry3, h3, -, hname, rfl⟩
    · rw [redirected_path, source_path] at hpath
      rw [← hpath, Archive.find_of_mem h1]
      exact Or.inl (Option.some_ne_none _)
    · rw [redirected_path] at hpath
      obtain ⟨h3, hdiff⟩ := mem_prunedDiff.mp h3
      obtain rfl := List.inj_on_of_nodup_map endArchive.nodup h3 h2 hpath
      exact Or.inr ⟨hname, hdiff⟩
  · intro h
    cases hfind : startArchive.find entry.path with
    | some entry1 =>
        obtain ⟨h1, hpath⟩ := Archive.find_eq_some_iff.mp hfind
        refine ⟨_, mem_outCreator.mpr (Or.inl ⟨entry1, h1, fun hdeleted => ?_, rfl⟩), ?_⟩
        · have hgone := (mem_deleted.mp hdeleted).2
          rw [hpath, Archive.find_of_mem h2] at hgone
          cases hgone
        · rw [redirected_path, source_path, hpath]
    | none =>
        rcases h with h | ⟨hname, hdiff⟩
        · exact absurd hfind h
        · exact ⟨_, mem_outCreator.mpr (Or.inr ⟨entry, mem_prunedDiff.mpr ⟨h2, hdiff⟩, hfind,
            hname, rfl⟩), redirected_path _ _⟩

theorem redirected_of_redirect {entry : Entry} {target : Bytes} (h2 : entry ∈ endArchive.entries)
    (hkind : entry.kind = .redirect target) :
    redirected (pairs endArchive.entries []) entry = entry := by
  obtain ⟨path, title, kind⟩ := entry
  obtain rfl : kind = .redirect target := hkind
  rw [redirected, lookup_redirects, Archive.find_of_mem h2]
  rfl

/-- An archive holds a redirect exactly when it has an entry that is one. -/
theorem content_eq_redirect_iff {archive : Archive} {path target : Bytes} :
    archive.content path = some (.redirect target) ↔
      ∃ entry ∈ archive.entries, entry.path = path ∧ entry.kind = .redirect target := by
  rw [Archive.content, Option.map_eq_some_iff]
  have hkind (entry : Entry) : entry.content = .redirect target ↔
      entry.kind = .redirect target := by
    obtain ⟨path', title, kind⟩ := entry
    cases kind <;> simp [Entry.content]
  simp only [hkind, Archive.find_eq_some_iff, and_assoc]

theorem content_prunedPatch {entry : Entry} {target : Bytes} (h2 : entry ∈ endArchive.entries)
    (hkind : entry.kind = .redirect target) (hnew : startArchive.find entry.path = none)
    (hcopy : endArchive.Copyable entry) (uuid : Uuid) :
    (prunedPatch startArchive endArchive uuid).content entry.path = some (.redirect target) ↔
      Survives startArchive endArchive entry.path target := by
  have htarget : entry.redirectTarget = some target := by rw [Entry.redirectTarget, hkind]
  have hchanged : changed startArchive entry = true := by rw [changed, hnew]
  have hhas := hcopy target hkind
  obtain ⟨entry', hfind⟩ := Option.isSome_iff_exists.mp hhas
  have hdiff : inDiff startArchive endArchive entry = changed startArchive entry' := by
    rw [inDiff, hchanged, htarget, Bool.true_and]
    exact congrArg (Option.any (changed startArchive)) hfind
  obtain ⟨h', rfl⟩ := Archive.find_eq_some_iff.mp hfind
  rw [content_eq_redirect_iff]
  constructor
  · rintro ⟨out, hout, hpath, hout'⟩
    obtain ⟨hout, hresolves⟩ := Creator.mem_pruned.mp hout
    have hadded := (mem_prunedPatchCreator h2 uuid).mp ⟨out, hout, hpath⟩
    obtain ⟨hname, hin⟩ := hadded.resolve_left (absurd hnew)
    have hresolved := Creator.resolves_eq_true_iff.mp hresolves entry'.path
      (by rw [Entry.redirectTarget, hout'])
    exact ⟨hname, entry', h', rfl, hdiff ▸ hin, (mem_prunedPatchCreator h' uuid).mp hresolved⟩
  · rintro ⟨hname, entry'', h'', hpath, hin, hadded⟩
    obtain rfl := List.inj_on_of_nodup_map endArchive.nodup h'' h' hpath
    have hmem : entry ∈ (prunedPatchCreator startArchive endArchive uuid).entries :=
      mem_outCreator.mpr (Or.inr ⟨entry, mem_prunedDiff.mpr ⟨h2, hdiff ▸ hin⟩, hnew, hname,
        (redirected_of_redirect h2 hkind).symm⟩)
    refine ⟨entry, Creator.mem_pruned.mpr ⟨hmem, ?_⟩, rfl, hkind⟩
    refine Creator.resolves_eq_true_iff.mpr fun target' htarget' => ?_
    obtain rfl := Option.some.inj (htarget.symm.trans htarget')
    exact (mem_prunedPatchCreator h' uuid).mpr hadded

/-- A new redirect is in the new archive exactly when it survives, and the update
is made. -/
theorem new_redirect_iff (hstart : startArchive.NewlineFree) (hend : endArchive.NewlineFree)
    (hclosed1 : startArchive.Closed) (hclosed2 : endArchive.Closed) {entry : Entry}
    {target : Bytes} (h2 : entry ∈ endArchive.entries) (hkind : entry.kind = .redirect target)
    (hnew : startArchive.find entry.path = none) (uuid uuid' tempArray : Uuid) :
    (∃ out, UpdatesPruning startArchive endArchive uuid uuid' tempArray out ∧
        out.content entry.path = some (.redirect target)) ↔
      FitsPruned startArchive endArchive ∧
        Survives startArchive endArchive entry.path target := by
  have hcontent := content_prunedPatch h2 hkind hnew (hclosed2 entry h2) uuid
  simp only [updatesPruning_iff hstart hend hclosed1 hclosed2]
  constructor
  · rintro ⟨out, ⟨hfits, rfl⟩, hpath⟩
    exact ⟨hfits, hcontent.mp hpath⟩
  · rintro ⟨hfits, hsurvives⟩
    exact ⟨_, ⟨hfits, rfl⟩, hcontent.mpr hsurvives⟩

end

/-- A page that stays, and a new redirect to it. -/
def newLinkStart : Archive where
  entries := [page "home" "1"]
  nodup := by decide
  count_lt := by decide
  metadata := []
  uuid := zeroUuid
  mainPath := none

theorem newLink_paths (data : String) :
    ([page "home" data, link "index" "home"].map Entry.path).Nodup := by
  change [str "home", str "index"].Nodup
  decide

theorem newLink_count (data : String) :
    [page "home" data, link "index" "home"].length < UInt32.size := by
  change 2 < UInt32.size
  decide

def newLinkEnd (data : String) : Archive where
  entries := [page "home" data, link "index" "home"]
  nodup := newLink_paths data
  count_lt := newLink_count data
  metadata := []
  uuid := zeroUuid
  mainPath := none

theorem new_redirect_changed :
    ∃ out, UpdatesPruning newLinkStart (newLinkEnd "2") zeroUuid zeroUuid zeroUuid out ∧
      out.content (str "index") = some (.redirect (str "home")) :=
  (new_redirect_iff (by decide) (by decide) (by decide) (by decide)
    (show link "index" "home" ∈ (newLinkEnd "2").entries by decide) rfl (by decide)
    zeroUuid zeroUuid zeroUuid).mpr
    ⟨⟨by decide, by decide, by decide⟩, by decide, page "home" "2", by decide, by decide,
      by decide, Or.inl (by decide)⟩

/-- The redirect is not in the new archive, since the page stays. -/
theorem update_loses_redirect :
    newLinkStart.NewlineFree ∧ (newLinkEnd "1").NewlineFree ∧ newLinkStart.Closed ∧
      (newLinkEnd "1").Closed ∧ (newLinkEnd "1").content (str "index") = some (.redirect (str "home")) ∧
      newLinkStart.find (str "index") = none ∧
      ¬ ∃ out, UpdatesPruning newLinkStart (newLinkEnd "1") zeroUuid zeroUuid zeroUuid out ∧
        out.content (str "index") = some (.redirect (str "home")) := by
  refine ⟨by decide, by decide, by decide, by decide, by decide, by decide, ?_⟩
  rintro ⟨out, hout, hcontent⟩
  obtain ⟨-, rfl⟩ := (updatesPruning_iff (by decide) (by decide) (by decide) (by decide)).mp hout
  have hlink : link "index" "home" ∈ (newLinkEnd "1").entries := by decide
  obtain ⟨-, entry, hentry, hpath, hchanged, -⟩ :=
    (content_prunedPatch hlink rfl (by decide) (by decide) zeroUuid).mp hcontent
  rcases List.mem_pair.mp hentry with rfl | rfl
  · exact absurd hchanged (by decide)
  · exact absurd hpath (by decide)

end ZimTools.Incremental
