import ZimTools.Incremental.DiffBounds
import ZimTools.Incremental.Update

/-!
# The check before a patch

Before `zimpatch` makes anything, `checkDiffFile` looks for six entries of the
diff by their paths in the old scheme, and compares the UUID in one of them with
that of the start archive.  `zimdiff` writes five of them, as metadata.  The
sixth, `M/layoutaurl`, is left from archives with a layout: a diff of `zimdiff`
has it only when the end archive has an entry of that name
(`accepts_own_diff_iff`).
-/

namespace ZimTools.Incremental

open Loop Zimdiff Zimpatch

/-! ## The comparison -/

theorem returns_compareByte {tempArray startfileUID1 : Uuid} {compare r : Bool} {i : Nat}
    (hi : i < 16) :
    Returns (compareByte tempArray startfileUID1 compare i) r ↔
      r = (compare && (tempArray.data[i]? == startfileUID1.data[i]?)) := by
  rw [compareByte, List.getElem?_eq_getElem (hi.trans_eq tempArray.length_eq.symm),
    List.getElem?_eq_getElem (hi.trans_eq startfileUID1.length_eq.symm)]
  dsimp only
  rw [returns_pure]
  split
  · next hne =>
      rw [beq_eq_false_iff_ne.mpr fun heq => hne (Option.some.inj heq), Bool.and_false]
  · next heq => rw [not_not.mp heq, BEq.rfl, Bool.and_true]

theorem returns_compareLoop {tempArray startfileUID1 : Uuid} {l : List Nat} (h : ∀ i ∈ l, i < 16) :
    ∀ {compare r : Bool}, Returns (l.foldlM (compareByte tempArray startfileUID1) compare) r ↔
      r = (compare && l.all fun i => tempArray.data[i]? == startfileUID1.data[i]?) := by
  induction l with
  | nil => simp
  | cons i l ih =>
      intro compare r
      obtain ⟨hi, hl⟩ := List.forall_mem_cons.mp h
      simp only [List.foldlM_cons, returns_bind, returns_compareByte hi, exists_eq_left, ih hl,
        List.all_cons, Bool.and_assoc]

/-- The loop compares the two UUIDs. -/
theorem returns_compare {tempArray startfileUID1 : Uuid} {r : Bool} :
    Returns ((List.range 16).foldlM (compareByte tempArray startfileUID1) true) r ↔
      r = decide (tempArray = startfileUID1) := by
  rw [returns_compareLoop fun i hi => List.mem_range.mp hi, Bool.true_and]
  have hall : (List.range 16).all (fun i => tempArray.data[i]? == startfileUID1.data[i]?) =
      decide (tempArray = startfileUID1) := by
    rw [Bool.eq_iff_iff, List.all_eq_true, decide_eq_true_eq]
    constructor
    · intro h
      refine Uuid.ext (List.ext_getElem? fun i => ?_)
      by_cases hi : i < 16
      · exact eq_of_beq (h i (List.mem_range.mpr hi))
      · rw [List.getElem?_eq_none (by rw [tempArray.length_eq]; omega),
          List.getElem?_eq_none (by rw [startfileUID1.length_eq]; omega)]
    · rintro rfl i -
      exact BEq.rfl
  rw [hall]

/-! ## Metadata by path -/

/-- The metadata of an archive at a path of the old scheme. -/
def metadataEntry (archive : Archive) (path : Bytes) : Option Entry :=
  if (str "M/").isPrefixOf path then
    (archive.metadata.lookup (path.drop 2)).map fun value =>
      ⟨path, [], .item (str "text/plain;charset=utf-8") value⟩
  else none

/-- The library finds the entries of an archive by their paths, and its metadata
by the paths that they have in the old scheme, where there is no entry. -/
def Seen (archive seen : Archive) : Prop :=
  ∀ path, seen.find path = (archive.find path).or (metadataEntry archive path)

def metadataItem (pair : Bytes × Bytes) : Entry :=
  ⟨str "M/" ++ pair.1, [], .item (str "text/plain;charset=utf-8") pair.2⟩

theorem find?_metadataItem (path : Bytes) : ∀ metadata : List (Bytes × Bytes),
    (metadata.map metadataItem).find? (·.path == path) =
      if (str "M/").isPrefixOf path then
        (metadata.lookup (path.drop 2)).map fun value =>
          ⟨path, [], .item (str "text/plain;charset=utf-8") value⟩
      else none
  | [] => by simp
  | (name, value) :: metadata => by
      rw [List.map_cons, List.find?_cons, find?_metadataItem path metadata, List.lookup_cons]
      by_cases hstarts : (str "M/").isPrefixOf path = true
      · obtain ⟨rest, rfl⟩ := List.isPrefixOf_iff_prefix.mp hstarts
        rw [if_pos hstarts, if_pos hstarts, metadataItem,
          List.drop_append_of_le_length (by decide), List.drop_of_length_le (by decide),
          List.nil_append]
        by_cases hname : name = rest
        · subst hname
          simp
        · have hpath : ¬ str "M/" ++ name = str "M/" ++ rest := fun h => hname (List.append_cancel_left h)
          rw [beq_eq_false_iff_ne.mpr hpath, beq_eq_false_iff_ne.mpr (Ne.symm hname)]
      · rw [if_neg hstarts, if_neg hstarts, metadataItem]
        have hpath : ¬ str "M/" ++ name = path := fun h =>
          hstarts (List.isPrefixOf_iff_prefix.mpr ⟨name, h⟩)
        rw [beq_eq_false_iff_ne.mpr hpath]

/-- An archive with its metadata among its entries. -/
def withMetadata (archive : Archive)
    (nodup : ((archive.entries ++ archive.metadata.map metadataItem).map Entry.path).Nodup)
    (count_lt : (archive.entries ++ archive.metadata.map metadataItem).length < UInt32.size) :
    Archive :=
  { archive with
    entries := archive.entries ++ archive.metadata.map metadataItem
    nodup := nodup
    count_lt := count_lt }

theorem seen_withMetadata (archive : Archive) (nodup count_lt) :
    Seen archive (withMetadata archive nodup count_lt) := by
  intro path
  rw [Archive.find, withMetadata, List.find?_append, find?_metadataItem]
  rfl

section

variable {startArchive endArchive diffArchive seen : Archive} {uuid : Uuid}

theorem hasEntryByPath_of_metadata (h : Seen diffArchive seen) {path : Bytes}
    (hmetadata : (metadataEntry diffArchive path).isSome = true) :
    seen.hasEntryByPath path = true := by
  rw [Archive.hasEntryByPath, h path, Option.isSome_or, hmetadata, Bool.or_true]

/-- Of the six entries the last but one alone may be missing in a diff. -/
theorem all_additionalMetadata (h : Seen (diff startArchive endArchive uuid) seen) :
    additionalMetadata.all seen.hasEntryByPath =
      (diff startArchive endArchive uuid).hasEntryByPath (str "M/layoutaurl") := by
  have hlayout : seen.hasEntryByPath (str "M/layoutaurl") =
      (diff startArchive endArchive uuid).hasEntryByPath (str "M/layoutaurl") := by
    have hnone : metadataEntry (diff startArchive endArchive uuid) (str "M/layoutaurl") = none := rfl
    rw [Archive.hasEntryByPath, h, hnone, Option.or_none, Archive.hasEntryByPath]
  have hwritten : ∀ name ∈ [str "M/dlist", str "M/startfileuid", str "M/endfileuid",
      str "M/mainaurl", str "M/redirectlist"], seen.hasEntryByPath name = true := by
    intro name hname
    refine hasEntryByPath_of_metadata h ?_
    simp only [List.mem_cons, List.not_mem_nil, or_false] at hname
    rcases hname with rfl | rfl | rfl | rfl | rfl <;> rfl
  simp only [List.forall_mem_cons] at hwritten
  simp only [additionalMetadata, List.all_cons, List.all_nil, hwritten, hlayout, Bool.and_true,
    Bool.true_and]

/-- The check reads the UUID of the start archive in the diff. -/
theorem returns_startfileuid (h : Seen (diff startArchive endArchive uuid) seen)
    (hname : endArchive.find (str "M/startfileuid") = none) {text : Bytes} :
    Returns (getData seen (str "M/startfileuid")) text ↔
      text = unlines (uidLines startArchive.uuid) := by
  have hmetadata : metadataEntry (diff startArchive endArchive uuid) (str "M/startfileuid") =
      some ⟨str "M/startfileuid", [], .item (str "text/plain;charset=utf-8")
        (unlines (uidLines startArchive.uuid))⟩ := rfl
  rw [returns_getData, h, find_diff, hname, Option.filter_none, Option.none_or, hmetadata]
  constructor
  · rintro ⟨entry, mimetype, hentry, hkind⟩
    cases hentry
    cases hkind
    rfl
  · rintro rfl
    exact ⟨_, _, rfl, rfl⟩

/-- The end archive brings the sixth entry, which the diff then has. -/
def BringsLayout (startArchive endArchive : Archive) : Prop :=
  ∃ entry, endArchive.find (str "M/layoutaurl") = some entry ∧ changed startArchive entry = true

theorem all_additionalMetadata_iff (h : Seen (diff startArchive endArchive uuid) seen) :
    additionalMetadata.all seen.hasEntryByPath = true ↔ BringsLayout startArchive endArchive := by
  rw [all_additionalMetadata h, Archive.hasEntryByPath, find_diff, Option.isSome_iff_exists]
  simp only [Option.filter_eq_some_iff, BringsLayout]

theorem hasStartUid_iff (h : Seen (diff startArchive endArchive uuid) seen)
    (hname : endArchive.find (str "M/startfileuid") = none) {text : Bytes} :
    HasStartUid seen text ↔
      BringsLayout startArchive endArchive ∧ text = unlines (uidLines startArchive.uuid) := by
  rw [HasStartUid, all_additionalMetadata_iff h, ← returns_getData, returns_startfileuid h hname]

theorem returns_copyString {array : Uuid} {r : Bytes} :
    Returns (copyString array) r ↔ 0 ∈ array.data ∧ r = array.data.takeWhile (· ≠ 0) := by
  rw [copyString]
  split_ifs with hzero
  · simp [hzero]
  · simp [hzero]

theorem accepts_iff (h : Seen (diff startArchive endArchive uuid) seen)
    (hname : endArchive.find (str "M/startfileuid") = none) (archive : Archive) :
    (∃ tempArray fuel, Returns (checkDiffFile archive seen tempArray fuel) true) ↔
      archive.uuid = startArchive.uuid ∧ 0 ∈ startArchive.uuid.data ∧
        BringsLayout startArchive endArchive := by
  rw [← all_additionalMetadata_iff h]
  simp only [checkDiffFile]
  split
  · next hall =>
      simp only [returns_bind, returns_adapt, returns_startfileuid h hname, exists_eq_left,
        returns_readUuid, returns_copyString, returns_compare]
      constructor
      · rintro ⟨-, fuel, _, ⟨-, rfl⟩, _, ⟨hzero, -⟩, heq⟩
        exact ⟨(of_decide_eq_true heq.symm).symm, hzero, hall⟩
      · rintro ⟨heq, hzero, -⟩
        have hlength := length_uidLines startArchive.uuid
        exact ⟨startArchive.uuid, UInt32.size, _,
          ⟨Nat.lt_of_le_of_lt hlength (by decide), rfl⟩, _, ⟨hzero, rfl⟩,
          (decide_eq_true heq.symm).symm⟩
  · next hall => simp [hall]

/-- The copy of the array goes on behind it when no byte of the UUID is zero. -/
theorem overruns_iff (h : Seen (diff startArchive endArchive uuid) seen)
    (hname : endArchive.find (str "M/startfileuid") = none) (archive : Archive) :
    (∃ tempArray fuel, Fails (checkDiffFile archive seen tempArray fuel) .unterminated) ↔
      0 ∉ startArchive.uuid.data ∧ BringsLayout startArchive endArchive := by
  have hfault : ∀ fault, CheckFault.fault fault = .unterminated → fault = .undefined := nofun
  simp only [fails_checkDiffFile_iff hfault, hasStartUid_iff h hname, reduceCtorEq, and_false, exists_false, false_or, and_true]
  constructor
  · rintro ⟨tempArray, fuel, _, ⟨hlayout, rfl⟩, array, hread, hzero⟩
    rw [(returns_readUuid.mp hread).2] at hzero
    exact ⟨hzero, hlayout⟩
  · rintro ⟨hzero, hlayout⟩
    have hlength := length_uidLines startArchive.uuid
    exact ⟨startArchive.uuid, UInt32.size, _, ⟨hlayout, rfl⟩, startArchive.uuid,
      returns_readUuid.mpr ⟨Nat.lt_of_le_of_lt hlength (by decide), rfl⟩, hzero⟩

/-- `zimpatch` accepts a diff of `zimdiff` exactly for an archive with the UUID of
the start archive, one of whose bytes is zero, and when the end archive has an
entry `M/layoutaurl` that the start archive did not have, or not with these data.
When no byte is zero it reads behind its array in front of the comparison. -/
theorem accepts_own_diff_iff (hdiff : Returns (Zimdiff.create startArchive endArchive uuid) diffArchive)
    (hseen : Seen diffArchive seen) (hname : endArchive.find (str "M/startfileuid") = none)
    (archive : Archive) :
    ((∃ tempArray fuel, Returns (checkDiffFile archive seen tempArray fuel) true) ↔
        archive.uuid = startArchive.uuid ∧ 0 ∈ startArchive.uuid.data ∧
          BringsLayout startArchive endArchive) ∧
      ((∃ tempArray fuel, Fails (checkDiffFile archive seen tempArray fuel) .unterminated) ↔
        0 ∉ startArchive.uuid.data ∧ BringsLayout startArchive endArchive) := by
  obtain ⟨-, rfl⟩ := Zimdiff.returns_create.mp hdiff
  exact ⟨accepts_iff hseen hname archive, overruns_iff hseen hname archive⟩

end

/-- The start archive itself is refused with the diff that was made for it. -/
theorem own_diff_refused : ∃ diffArchive seen,
    Returns (Zimdiff.create startSample endSample zeroUuid) diffArchive ∧ Seen diffArchive seen ∧
      ¬ ∃ tempArray fuel, Returns (checkDiffFile startSample seen tempArray fuel) true := by
  have hdiff : Returns (Zimdiff.create startSample endSample zeroUuid)
      (diff startSample endSample zeroUuid) := Zimdiff.returns_create.mpr ⟨by decide, rfl⟩
  have hseen := seen_withMetadata (diff startSample endSample zeroUuid) (by decide) (by decide)
  refine ⟨_, _, hdiff, hseen, fun haccepts => ?_⟩
  obtain ⟨-, -, entry, hentry, -⟩ :=
    (accepts_own_diff_iff hdiff hseen (by decide) startSample).1.mp haccepts
  have hnone : endSample.find (str "M/layoutaurl") = none := by decide
  rw [hnone] at hentry
  cases hentry

end ZimTools.Incremental
