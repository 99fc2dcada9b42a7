import ZimTools.Incremental.Update

/-!
# Titles and MIME types in an update

`zimdiff` compares the data of items and nothing else.  At a path of both
archives the new archive has the title and the MIME type of the end archive when
the data changed.  Otherwise it keeps those of the start archive
(`attributes_patch`), and so does every redirect that stays one.
-/

namespace ZimTools.Incremental

open Loop Zimdiff Zimpatch

/-- The title of an entry, and the MIME type of an item. -/
def Entry.attributes (entry : Entry) : Bytes × Option Bytes :=
  match entry.kind with
  | .item mimetype _ => (entry.title, some mimetype)
  | .redirect _ => (entry.title, none)

/-- An item whose data are not those of another entry. -/
def OtherData (entry1 entry2 : Entry) : Prop :=
  entry2.isRedirect = false ∧ entry1.content ≠ entry2.content

instance (entry1 entry2 : Entry) : Decidable (OtherData entry1 entry2) :=
  inferInstanceAs (Decidable (entry2.isRedirect = false ∧ entry1.content ≠ entry2.content))

section

variable {startArchive endArchive : Archive}

/-- Where both archives have an entry, the new one has the entry of the first
loop. -/
theorem find_patch {entry1 entry2 : Entry} (h1 : entry1 ∈ startArchive.entries)
    (h2 : entry2 ∈ endArchive.entries) (hpath : entry2.path = entry1.path) (uuid : Uuid) :
    (patch startArchive endArchive uuid).find entry1.path =
      some (redirected (pairs endArchive.entries [])
        (source startArchive (diff startArchive endArchive uuid) entry1).2) := by
  rw [Archive.find_eq_some_iff, redirected_path, source_path]
  refine ⟨mem_patch.mpr (mem_patchCreator.mpr (Or.inl ⟨entry1, h1, fun hdeleted => ?_, rfl⟩)), rfl⟩
  have hgone := (mem_deleted.mp hdeleted).2
  rw [← hpath, Archive.find_of_mem h2] at hgone
  cases hgone

theorem changed_iff {entry1 entry2 : Entry} (h1 : entry1 ∈ startArchive.entries)
    (hpath : entry2.path = entry1.path) (hkinds : entry1.isRedirect = entry2.isRedirect) :
    changed startArchive entry2 = true ↔ OtherData entry1 entry2 := by
  rw [changed, hpath, Archive.find_of_mem h1]
  obtain ⟨path1, title1, kind1⟩ := entry1
  obtain ⟨path2, title2, kind2⟩ := entry2
  cases kind1 with
  | item mimetype1 data1 =>
      cases kind2 with
      | item mimetype2 data2 =>
          simp only [OtherData, Entry.isRedirect, Entry.content, ne_eq, Content.item.injEq,
            true_and, decide_not, Bool.not_eq_true', decide_eq_false_iff_not]
          exact not_congr eq_comm
      | redirect target2 => cases hkinds
  | redirect target1 =>
      cases kind2 with
      | item mimetype2 data2 => cases hkinds
      | redirect target2 => simp [OtherData, Entry.isRedirect]

/-- What the redirect list does to an entry of the kind in the end archive. -/
theorem attributes_redirected {entry entry2 : Entry} (h2 : entry2 ∈ endArchive.entries)
    (hpath : entry2.path = entry.path) (hkinds : entry.isRedirect = entry2.isRedirect) :
    (redirected (pairs endArchive.entries []) entry).attributes = entry.attributes := by
  rw [redirected, lookup_redirects, ← hpath, Archive.find_of_mem h2, Option.bind_some]
  obtain ⟨path, title, kind⟩ := entry
  obtain ⟨path2, title2, kind2⟩ := entry2
  cases kind2 with
  | item mimetype2 data2 => rfl
  | redirect target2 =>
      cases kind with
      | item mimetype data => cases hkinds
      | redirect target => rfl

/-- The attributes in the new archive, where both archives have entries of one
kind. -/
theorem attributes_patch {path : Bytes} {entry1 entry2 : Entry}
    (h1 : startArchive.find path = some entry1) (h2 : endArchive.find path = some entry2)
    (hkinds : entry1.isRedirect = entry2.isRedirect) (uuid : Uuid) :
    ∃ entry, (patch startArchive endArchive uuid).find path = some entry ∧
      entry.attributes =
        if OtherData entry1 entry2 then entry2.attributes else entry1.attributes := by
  obtain ⟨hmem1, rfl⟩ := Archive.find_eq_some_iff.mp h1
  obtain ⟨hmem2, hpath⟩ := Archive.find_eq_some_iff.mp h2
  have hsource := @source_diff startArchive endArchive _ _ hmem2 hpath uuid
  have hfind := find_patch hmem1 hmem2 hpath uuid
  refine ⟨_, hfind, ?_⟩
  by_cases hdata : OtherData entry1 entry2
  · rw [if_pos ((changed_iff hmem1 hpath hkinds).mpr hdata)] at hsource
    rw [if_pos hdata, hsource]
    exact attributes_redirected hmem2 rfl rfl
  · rw [if_neg fun h => hdata ((changed_iff hmem1 hpath hkinds).mp h)] at hsource
    rw [if_neg hdata, hsource]
    exact attributes_redirected hmem2 hpath hkinds

/-- At a path that keeps its kind an update gives the title and the MIME type of
the end archive exactly when the data of an item changed or title and MIME type
did not, and the update is made. -/
theorem update_attributes_iff (hstart : startArchive.NewlineFree) (hend : endArchive.NewlineFree)
    {path : Bytes} {entry1 entry2 : Entry} (h1 : startArchive.find path = some entry1)
    (h2 : endArchive.find path = some entry2) (hkinds : entry1.isRedirect = entry2.isRedirect)
    (uuid uuid' tempArray : Uuid) :
    (∃ out entry, Updates startArchive endArchive uuid uuid' tempArray out ∧
        out.find path = some entry ∧ entry.attributes = entry2.attributes) ↔
      (OtherData entry1 entry2 ∨ entry1.attributes = entry2.attributes) ∧
        endArchive.Closed ∧ Fits startArchive endArchive ∧
          StaleCopyable startArchive endArchive := by
  obtain ⟨entry', hfind, hattributes⟩ := attributes_patch h1 h2 hkinds uuid
  simp only [updates_iff hstart hend]
  have heq : entry'.attributes = entry2.attributes ↔
      OtherData entry1 entry2 ∨ entry1.attributes = entry2.attributes := by
    rw [hattributes]
    split_ifs with hdata
    · exact iff_of_true rfl (Or.inl hdata)
    · exact (or_iff_right hdata).symm
  constructor
  · rintro ⟨out, entry, ⟨hclosed, hfits, hstale, rfl⟩, hentry, hpath⟩
    obtain rfl := Option.some.inj (hfind.symm.trans hentry)
    exact ⟨heq.mp hpath, hclosed, hfits, hstale⟩
  · rintro ⟨hdata, hclosed, hfits, hstale⟩
    exact ⟨_, entry', ⟨hclosed, hfits, hstale, rfl⟩, hfind, heq.mpr hdata⟩

end

theorem update_attributes_home :
    ∃ out entry, Updates startSample endSample zeroUuid zeroUuid zeroUuid out ∧
      out.find (str "home") = some entry ∧ entry.attributes = (page "home" "2").attributes :=
  (update_attributes_iff (by decide) (by decide)
    (show startSample.find (str "home") = some (page "home" "1") by decide)
    (show endSample.find (str "home") = some (page "home" "2") by decide) rfl
    zeroUuid zeroUuid zeroUuid).mpr
    ⟨Or.inl (by decide), by decide, ⟨by decide, by decide, by decide⟩, by decide⟩

/-- A page and a redirect to it, with two titles. -/
def titledSample (title mimetype : String) : Archive where
  entries := [⟨str "a", str title, .item (str mimetype) (str "x")⟩,
    ⟨str "b", str title, .redirect (str "a")⟩]
  nodup := show [str "a", str "b"].Nodup by decide
  count_lt := show 2 < UInt32.size by decide
  metadata := []
  uuid := zeroUuid
  mainPath := none

/-- A page whose data stay keeps its old title and its old MIME type, and a
redirect its old title. -/
theorem update_keeps_attributes :
    (titledSample "Old" "text/plain").NewlineFree ∧ (titledSample "New" "text/html").NewlineFree ∧
      ∀ entry2 ∈ (titledSample "New" "text/html").entries,
        ¬ ∃ out entry, Updates (titledSample "Old" "text/plain") (titledSample "New" "text/html")
            zeroUuid zeroUuid zeroUuid out ∧
          out.find entry2.path = some entry ∧ entry.attributes = entry2.attributes := by
  have hold : (titledSample "Old" "text/plain").NewlineFree := by decide
  have hnew : (titledSample "New" "text/html").NewlineFree := by decide
  refine ⟨hold, hnew, fun entry2 h2 => ?_⟩
  rintro ⟨out, entry, hout, hfind, hattributes⟩
  obtain ⟨-, -, -, rfl⟩ := (updates_iff hold hnew).mp hout
  obtain ⟨entry1, h1, hkinds, hdata, hother⟩ : ∃ entry1,
      (titledSample "Old" "text/plain").find entry2.path = some entry1 ∧
        entry1.isRedirect = entry2.isRedirect ∧ ¬ OtherData entry1 entry2 ∧
          entry1.attributes ≠ entry2.attributes := by
    rcases List.mem_pair.mp h2 with rfl | rfl
    · exact ⟨⟨str "a", str "Old", .item (str "text/plain") (str "x")⟩, by decide, rfl, by decide,
        by decide⟩
    · exact ⟨⟨str "b", str "Old", .redirect (str "a")⟩, by decide, rfl, by decide, by decide⟩
  obtain ⟨entry', hfind', hattributes'⟩ := attributes_patch h1 (Archive.find_of_mem h2) hkinds zeroUuid
  obtain rfl := Option.some.inj (hfind.symm.trans hfind')
  rw [hattributes, if_neg hdata] at hattributes'
  exact hother hattributes'.symm

end ZimTools.Incremental
