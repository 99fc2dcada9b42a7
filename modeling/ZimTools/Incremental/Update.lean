import ZimTools.Incremental.RoundTrip

/-!
# Updates

A start archive is updated by the diff to an end archive.  Where every path
keeps its kind the result is the end archive, as long as the counters of
`zimpatch` suffice (`update_eq_end_iff`).  Where a path changes its kind the
result is right when a redirect takes the place of an item, and never the other
way round (`update_changed_kind_iff`).
-/

namespace ZimTools.Incremental

open Loop Zimdiff Zimpatch

/-- `zimdiff` and then `zimpatch` end with the archive `out`. -/
def Updates (startArchive endArchive : Archive) (uuid uuid' tempArray : Uuid) (out : Archive) :
    Prop :=
  ∃ diffArchive fuel, Returns (Zimdiff.create startArchive endArchive uuid) diffArchive ∧
    Returns (Zimpatch.create startArchive diffArchive uuid' tempArray fuel) out

/-- No path has a newline or is an additional metadata name, and every redirect
leads to an entry. -/
structure Archive.Plain (archive : Archive) : Prop where
  newlineFree : archive.NewlineFree
  closed : archive.Closed
  noMetadata : ∀ entry ∈ archive.entries, isAdditionalMetadata entry.path = false

/-- No path is a redirect in one of the archives and an item in the other. -/
def SameKinds (startArchive endArchive : Archive) : Prop :=
  ∀ entry1 ∈ startArchive.entries, ∀ entry2 ∈ endArchive.entries, entry1.path = entry2.path →
    entry1.isRedirect = entry2.isRedirect

instance (startArchive endArchive : Archive) : Decidable (SameKinds startArchive endArchive) :=
  inferInstanceAs (Decidable (∀ entry1 ∈ startArchive.entries, ∀ entry2 ∈ endArchive.entries,
    entry1.path = entry2.path → entry1.isRedirect = entry2.isRedirect))

theorem isRedirect_eq_false_iff {entry : Entry} :
    entry.isRedirect = false ↔ entry.redirectTarget = none := by
  obtain ⟨path, title, kind⟩ := entry
  cases kind <;> simp [Entry.isRedirect, Entry.redirectTarget]

section

variable {startArchive endArchive : Archive}

theorem updates_iff (hstart : startArchive.NewlineFree) (hend : endArchive.NewlineFree)
    {uuid uuid' tempArray : Uuid} {out : Archive} :
    Updates startArchive endArchive uuid uuid' tempArray out ↔
      endArchive.Closed ∧ Fits startArchive endArchive ∧ StaleCopyable startArchive endArchive ∧
        out = patch startArchive endArchive uuid := by
  simp only [Updates, Zimdiff.returns_create]
  constructor
  · rintro ⟨_, fuel, ⟨hclosed, rfl⟩, hout⟩
    exact ⟨hclosed, (exists_returns_create hstart hend hclosed).mp ⟨fuel, hout⟩⟩
  · rintro ⟨hclosed, hout⟩
    obtain ⟨fuel, hout⟩ := (exists_returns_create hstart hend hclosed).mpr hout
    exact ⟨_, fuel, ⟨hclosed, rfl⟩, hout⟩

/-- Where every path keeps its kind, no redirect stays. -/
theorem staleCopyable_of_sameKinds (h : SameKinds startArchive endArchive) :
    StaleCopyable startArchive endArchive := by
  intro entry1 h1 entry2 h2 hpath hitem
  rw [← isRedirect_eq_false_iff, ← h entry1 h1 entry2 h2 hpath.symm, isRedirect_eq_false_iff] at hitem
  exact copyable_of_redirectTarget hitem

theorem merged_of_sameKinds (h : SameKinds startArchive endArchive)
    (hend : ∀ entry ∈ endArchive.entries, isAdditionalMetadata entry.path = false) (path : Bytes) :
    merged startArchive endArchive path = endArchive.content path := by
  rw [merged, Archive.content]
  cases hfind2 : endArchive.find path with
  | none => rfl
  | some entry2 =>
      obtain ⟨h2, rfl⟩ := Archive.find_eq_some_iff.mp hfind2
      cases hfind1 : startArchive.find entry2.path with
      | none => simp [hend entry2 h2]
      | some entry1 =>
          obtain ⟨h1, hpath⟩ := Archive.find_eq_some_iff.mp hfind1
          have hkind := h entry1 h1 entry2 h2 hpath
          have hboth : ¬ (entry2.redirectTarget = none ∧ entry1.redirectTarget ≠ none) := by
            rw [← isRedirect_eq_false_iff, ne_eq, ← isRedirect_eq_false_iff, hkind]
            exact fun h => h.2 h.1
          exact if_neg hboth

/-- An update gives the end archive back exactly when the counters of `zimpatch`
suffice. -/
theorem update_eq_end_iff (hstart : startArchive.Plain) (hend : endArchive.Plain)
    (hkinds : SameKinds startArchive endArchive) (uuid uuid' tempArray : Uuid) :
    (∃ out, Updates startArchive endArchive uuid uuid' tempArray out ∧
        (∀ path, out.content path = endArchive.content path) ∧ out.uuid = endArchive.uuid) ↔
      Fits startArchive endArchive := by
  simp only [updates_iff hstart.newlineFree hend.newlineFree]
  constructor
  · rintro ⟨out, ⟨-, hfits, -, -⟩, -⟩
    exact hfits
  · intro hfits
    refine ⟨_, ⟨hend.closed, hfits, staleCopyable_of_sameKinds hkinds, rfl⟩, fun path => ?_, rfl⟩
    rw [content_patch, merged_of_sameKinds hkinds hend.noMetadata]

end

/-! ## Two updates -/

def zeroUuid : Uuid := ⟨List.replicate 16 0, rfl⟩

def page (path data : String) : Entry := ⟨str path, str path, .item (str "text/html") (str data)⟩

def link (path target : String) : Entry := ⟨str path, str path, .redirect (str target)⟩

/-- Two pages and a redirect to the first. -/
def startSample : Archive where
  entries := [page "home" "1", link "index" "home", page "old" "x"]
  nodup := by decide
  count_lt := by decide
  metadata := []
  uuid := zeroUuid
  mainPath := some (str "home")

/-- A page has other data, one is gone, one was added, and the redirect leads there. -/
def endSample : Archive where
  entries := [page "home" "2", link "index" "new", page "new" "y"]
  nodup := by decide
  count_lt := by decide
  metadata := []
  uuid := ⟨List.replicate 16 200, rfl⟩
  mainPath := some (str "home")

theorem update_eq_end_sample :
    ∃ out, Updates startSample endSample zeroUuid zeroUuid zeroUuid out ∧
      (∀ path, out.content path = endSample.content path) ∧ out.uuid = endSample.uuid :=
  (update_eq_end_iff ⟨by decide, by decide, by decide⟩ ⟨by decide, by decide, by decide⟩
    (by decide) zeroUuid zeroUuid zeroUuid).mpr ⟨by decide, by decide, by decide⟩

/-- An archive of `n` items with paths of `n` bytes and more. -/
def longPaths (n : Nat) (hn : n < UInt32.size) : Archive where
  entries := (List.range n).map fun k => ⟨List.replicate (n + k) (char 'a'), [], .item [] []⟩
  nodup := by
    rw [List.map_map]
    refine List.nodup_range.map fun k k' h => ?_
    have hlength := congrArg List.length h
    simp only [Function.comp, List.length_replicate] at hlength
    omega
  count_lt := by simpa using hn
  metadata := []
  uuid := zeroUuid
  mainPath := none

def emptyArchive : Archive := ⟨[], List.nodup_nil, by decide, [], zeroUuid, none⟩

theorem plain_longPaths {n : Nat} (hn : n < UInt32.size) (hpos : 0 < n) : (longPaths n hn).Plain := by
  have hpath (entry : Entry) (h : entry ∈ (longPaths n hn).entries) :
      ∃ k, entry = ⟨List.replicate (n + k) (char 'a'), [], .item [] []⟩ := by
    obtain ⟨k, -, rfl⟩ := List.mem_map.mp h
    exact ⟨k, rfl⟩
  refine ⟨fun entry h => ?_, fun entry h => ?_, fun entry h => ?_⟩
  · obtain ⟨k, rfl⟩ := hpath entry h
    rw [List.mem_replicate]
    exact fun hmem => absurd hmem.2 (by decide)
  · obtain ⟨k, rfl⟩ := hpath entry h
    exact copyable_of_redirectTarget rfl
  · obtain ⟨k, rfl⟩ := hpath entry h
    obtain ⟨m, hm⟩ : ∃ m, n + k = m + 1 := ⟨n + k - 1, by omega⟩
    rw [hm, List.replicate_succ]
    simp [isAdditionalMetadata, str, char]

/-- The list of its deleted paths has `n * n` bytes or more. -/
theorem not_fits_longPaths {n : Nat} (hn : n < UInt32.size) (hlarge : UInt32.size ≤ n * n) :
    ¬ Fits (longPaths n hn) emptyArchive := by
  intro h
  have hsum (l : List Nat) : l.length * n ≤ (l.map fun k => n + k + 1).sum := by
    induction l with
    | nil => simp
    | cons k l ih =>
        rw [List.length_cons, List.map_cons, List.sum_cons, Nat.succ_mul]
        omega
  have hall : ((longPaths n hn).entries.filter fun entry =>
      !emptyArchive.hasEntryByPath entry.path) = (longPaths n hn).entries :=
    List.filter_eq_self.mpr fun _ _ => rfl
  have hlt := h.dlist
  rw [hall, longPaths, List.map_map] at hlt
  have hle := hsum (List.range n)
  rw [List.length_range] at hle
  simp only [Function.comp_def, List.length_replicate] at hlt
  omega

/-- All of 65536 entries with long paths are deleted: the list of their paths is
too long for the counter that reads it. -/
theorem update_never_ends :
    (longPaths 65536 (by decide)).Plain ∧ emptyArchive.Plain ∧
      SameKinds (longPaths 65536 (by decide)) emptyArchive ∧
      ¬ ∃ out, Updates (longPaths 65536 (by decide)) emptyArchive zeroUuid zeroUuid zeroUuid out := by
  have hplain : (longPaths 65536 (by decide)).Plain := plain_longPaths _ (by decide)
  have hempty : emptyArchive.Plain := ⟨by decide, by decide, by decide⟩
  refine ⟨hplain, hempty, fun _ _ _ h => absurd h (List.not_mem_nil), ?_⟩
  rintro ⟨out, hout⟩
  exact not_fits_longPaths _ (by decide)
    ((updates_iff hplain.newlineFree hempty.newlineFree).mp hout).2.1

section

variable {startArchive endArchive : Archive}

/-- At a path that changes its kind an update is right exactly when the entry
was an item before, and the update is made. -/
theorem update_changed_kind_iff (hstart : startArchive.NewlineFree)
    (hend : endArchive.NewlineFree) {path : Bytes} {entry1 entry2 : Entry}
    (h1 : startArchive.find path = some entry1) (h2 : endArchive.find path = some entry2)
    (hkinds : entry1.isRedirect ≠ entry2.isRedirect) (uuid uuid' tempArray : Uuid) :
    (∃ out, Updates startArchive endArchive uuid uuid' tempArray out ∧
        out.content path = endArchive.content path) ↔
      entry1.isRedirect = false ∧ endArchive.Closed ∧ Fits startArchive endArchive ∧
        StaleCopyable startArchive endArchive := by
  simp only [updates_iff hstart hend]
  have hcontent : (patch startArchive endArchive uuid).content path = endArchive.content path ↔
      entry1.isRedirect = false := by
    rw [content_patch, merged, Archive.content, h1, h2]
    obtain ⟨path1, title1, kind1⟩ := entry1
    obtain ⟨path2, title2, kind2⟩ := entry2
    cases kind1 with
    | item mimetype1 data1 =>
        cases kind2 with
        | item mimetype2 data2 => exact absurd rfl hkinds
        | redirect target2 => simp [Entry.isRedirect, Entry.redirectTarget]
    | redirect target1 =>
        cases kind2 with
        | item mimetype2 data2 => simp [Entry.isRedirect, Entry.redirectTarget, Entry.content]
        | redirect target2 => exact absurd rfl hkinds
  constructor
  · rintro ⟨out, ⟨hclosed, hfits, hstale, rfl⟩, hpath⟩
    exact ⟨hcontent.mp hpath, hclosed, hfits, hstale⟩
  · rintro ⟨hitem, hclosed, hfits, hstale⟩
    exact ⟨_, ⟨hclosed, hfits, hstale, rfl⟩, hcontent.mpr hitem⟩

end

/-- A redirect that becomes a page, and back. -/
def linkSample : Archive where
  entries := [link "a" "b", page "b" "x"]
  nodup := by decide
  count_lt := by decide
  metadata := []
  uuid := zeroUuid
  mainPath := none

def pageSample : Archive where
  entries := [page "a" "y", page "b" "x"]
  nodup := by decide
  count_lt := by decide
  metadata := []
  uuid := zeroUuid
  mainPath := none

theorem update_page_to_link :
    ∃ out, Updates pageSample linkSample zeroUuid zeroUuid zeroUuid out ∧
      out.content (str "a") = linkSample.content (str "a") :=
  (update_changed_kind_iff (by decide) (by decide)
    (show pageSample.find (str "a") = some (page "a" "y") by decide)
    (show linkSample.find (str "a") = some (link "a" "b") by decide) (by decide)
    zeroUuid zeroUuid zeroUuid).mpr
    ⟨rfl, by decide, ⟨by decide, by decide, by decide⟩, by decide⟩

/-- The redirect stays where there is a page in the end archive. -/
theorem update_link_to_page :
    linkSample.NewlineFree ∧ pageSample.NewlineFree ∧
      linkSample.content (str "a") = some (.redirect (str "b")) ∧
      pageSample.content (str "a") = some (.item (str "y")) ∧
      ¬ ∃ out, Updates linkSample pageSample zeroUuid zeroUuid zeroUuid out ∧
        out.content (str "a") = pageSample.content (str "a") := by
  refine ⟨by decide, by decide, by decide, by decide, ?_⟩
  rintro ⟨out, hout, hcontent⟩
  obtain ⟨-, -, -, rfl⟩ := (updates_iff (by decide) (by decide)).mp hout
  rw [content_patch] at hcontent
  exact absurd hcontent (by decide)

end ZimTools.Incremental
