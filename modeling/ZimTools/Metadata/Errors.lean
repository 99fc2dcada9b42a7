import Mathlib.Data.List.Sort
import ZimTools.Metadata.Written

/-!
# The errors of a check of metadata

`expectedErrors` says which errors `Metadata::check` gives, name by name: first
the mandatory names that are missing, in the order of the table, then the
violated constraints of the reserved names, in the order of their bytes, and
only when there are none of these the violated constraints between entries.

It asks for the entries of the reserved names only.  So a check is the same for
two metadata that agree on these, in whatever order their entries were set
(`check_eq_expected`).
-/

namespace ZimTools

open Bytes

namespace Metadata

/-! ## The constraints -/

/-- What a record asks of the entry of its name. -/
inductive Constraint where
  | minLength
  | maxLength
  | regex
  | mimeType
deriving DecidableEq, Repr

namespace Constraint

/-- The constraints in the order of their checks. -/
def all : List Constraint := [minLength, maxLength, regex, mimeType]

variable (icu : Icu) (rmr : ReservedMetadataRecord) (v : ValueWithMimeType)

/-- A bound of zero and an empty expression ask for nothing. -/
def Violated : Constraint → Prop
  | minLength => rmr.minLength ≠ 0 ∧ getTextLength icu v.value < rmr.minLength
  | maxLength => rmr.maxLength ≠ 0 ∧ rmr.maxLength < getTextLength icu v.value
  | regex => rmr.regex ≠ [] ∧ searchRegex rmr.regex v.value = some false
  | mimeType => checkMimeType v.mimeType rmr.mimeType = false

instance : (c : Constraint) → Decidable (Violated icu rmr v c)
  | minLength => inferInstanceAs (Decidable (_ ∧ _))
  | maxLength => inferInstanceAs (Decidable (_ ∧ _))
  | regex => inferInstanceAs (Decidable (_ ∧ _))
  | mimeType => inferInstanceAs (Decidable (_ = _))

def error : Constraint → Bytes
  | minLength => rmr.name ++ str " must contain at least " ++ decimal rmr.minLength ++
      str " characters"
  | maxLength => rmr.name ++ str " must contain at most " ++ decimal rmr.maxLength ++
      str " characters"
  | regex => rmr.name ++ str " doesn't match regex: " ++ escapeNonPrintableChars rmr.regex
  | mimeType => rmr.name ++ str " has wrong MIME type: " ++ v.mimeType

/-- The error of a constraint, if it is violated. -/
def errors (c : Constraint) : List Bytes := if c.Violated icu rmr v then [c.error rmr v] else []

end Constraint

/-- The errors of an entry, one for each violated constraint of its record. -/
def violations (icu : Icu) (rmr : ReservedMetadataRecord) (v : ValueWithMimeType) : List Bytes :=
  Constraint.all.flatMap (Constraint.errors icu rmr v)

/-! ## The expected errors -/

/-- The reserved names in the order of their bytes. -/
def reservedByName : List ReservedMetadataRecord :=
  reservedMetadataInfo.insertionSort fun a b => compare a.name b.name = .lt

section Expected

variable (entries : Bytes → Option ValueWithMimeType)

/-- The mandatory names that are missing, in the order of the table. -/
def missingErrors : List Bytes :=
  (reservedMetadataInfo.filter fun rmr => rmr.isMandatory && (entries rmr.name).isNone).map
    fun rmr => str "Missing mandatory metadata: " ++ rmr.name

/-- The violated constraints of the reserved names that are there. -/
def violationErrors (icu : Icu) : List Bytes :=
  reservedByName.flatMap fun rmr => ((entries rmr.name).map (violations icu rmr)).getD []

/-- A LongDescription that is not empty has fewer bytes than the Description. -/
def ShorterLongDescription : Prop :=
  ∃ longDescription ∈ entries (str "LongDescription"), longDescription.value ≠ [] ∧
    ∃ description ∈ entries (str "Description"),
      longDescription.value.length < description.value.length

instance : Decidable (ShorterLongDescription entries) :=
  inferInstanceAs (Decidable (∃ longDescription ∈ entries _, _ ∧ ∃ description ∈ entries _, _))

/-- The errors of a check. -/
def expectedErrors (icu : Icu) : List Bytes :=
  let errors := missingErrors entries ++ violationErrors entries icu
  if errors ≠ [] then errors
  else if ShorterLongDescription entries then
    [str "LongDescription shouldn't be shorter than Description"]
  else []

end Expected

/-- The value that was set last for a name. -/
def lastSet (calls : List (Bytes × ValueWithMimeType)) (name : Bytes) : Option ValueWithMimeType :=
  (calls.reverse.find? fun call => call.1 = name).map Prod.snd

/-- The metadata behind some calls of `set`. -/
def ofCalls (calls : List (Bytes × ValueWithMimeType)) : Metadata :=
  calls.foldl (fun m call => m.set call.1 call.2.value call.2.mimeType) ⟨∅⟩

/-! ## The entries of the reserved names -/

/-- The texts of the table are regular expressions, so a check finds a match or
does not. -/
theorem regexErrors_eq (icu : Icu) {rmr : ReservedMetadataRecord}
    (hrmr : rmr ∈ reservedMetadataInfo) (v : ValueWithMimeType) :
    regexErrors rmr v = some (Constraint.regex.errors icu rmr v) := by
  have hviolated : Constraint.regex.Violated icu rmr v ↔
      rmr.regex ≠ [] ∧ searchRegex rmr.regex v.value = some false := Iff.rfl
  rw [regexErrors, Constraint.errors]
  by_cases hnil : rmr.regex = []
  · rw [if_pos hnil, if_neg fun h => (hviolated.mp h).1 hnil]
  · obtain ⟨regex, hregex⟩ := Option.isSome_iff_exists.mp (ofBytes_regex rmr hrmr hnil)
    have hsearch : searchRegex rmr.regex v.value = some (regex.search v.value) := by
      rw [searchRegex, hregex]
      rfl
    rw [if_neg hnil, hsearch, Option.map_some]
    cases hfound : regex.search v.value with
    | true =>
        rw [if_pos rfl, if_neg]
        intro h
        rw [hviolated, hsearch, hfound] at h
        exact Bool.false_ne_true (Option.some.inj h.2).symm
    | false =>
        rw [if_neg Bool.false_ne_true, if_pos (hviolated.mpr ⟨hnil, by rw [hsearch, hfound]⟩)]
        rfl

theorem recordErrors_eq (icu : Icu) {rmr : ReservedMetadataRecord}
    (hrmr : rmr ∈ reservedMetadataInfo) (v : ValueWithMimeType) :
    recordErrors icu rmr v = some (violations icu rmr v) := by
  have htype : (if checkMimeType v.mimeType rmr.mimeType then []
      else [rmr.name ++ str " has wrong MIME type: " ++ v.mimeType]) =
        Constraint.mimeType.errors icu rmr v := by
    have hviolated : Constraint.mimeType.Violated icu rmr v ↔
        ¬ checkMimeType v.mimeType rmr.mimeType = true := Bool.eq_false_iff
    rw [Constraint.errors]
    by_cases hcheck : checkMimeType v.mimeType rmr.mimeType = true
    · rw [if_pos hcheck, if_neg fun h => hviolated.mp h hcheck]
    · rw [if_neg hcheck, if_pos (hviolated.mpr hcheck)]
      rfl
  have hall : violations icu rmr v = Constraint.minLength.errors icu rmr v ++
      Constraint.maxLength.errors icu rmr v ++ Constraint.regex.errors icu rmr v ++
        Constraint.mimeType.errors icu rmr v := by
    rw [violations, Constraint.all]
    simp only [List.flatMap_cons, List.flatMap_nil, List.append_nil, List.append_assoc]
  rw [recordErrors, regexErrors_eq icu hrmr v, hall, ← htype]
  rfl

theorem reservedByName_ordered :
    reservedByName.Pairwise fun a b => compare a.name b.name = .lt := by
  decide

theorem mem_reservedByName {rmr : ReservedMetadataRecord} :
    rmr ∈ reservedByName ↔ rmr ∈ reservedMetadataInfo :=
  (List.perm_insertionSort _ reservedMetadataInfo).mem_iff

/-- The entries of reserved names as a pass over the map finds them. -/
def reservedEntries (m : Metadata) : List (ReservedMetadataRecord × ValueWithMimeType) :=
  m.data.toList.filterMap fun nv => (getReservedMetadataRecord nv.1).map fun rmr => (rmr, nv.2)

/-- And as they are looked up name by name. -/
def entriesByName (entries : Bytes → Option ValueWithMimeType) :
    List (ReservedMetadataRecord × ValueWithMimeType) :=
  reservedByName.filterMap fun rmr => (entries rmr.name).map fun v => (rmr, v)

theorem mem_reservedEntries {m : Metadata} {p : ReservedMetadataRecord × ValueWithMimeType} :
    p ∈ reservedEntries m ↔ p.1 ∈ reservedMetadataInfo ∧ m.at? p.1.name = some p.2 := by
  rw [reservedEntries, List.mem_filterMap]
  constructor
  · rintro ⟨⟨name, v⟩, hmem, hp⟩
    obtain ⟨rmr, hrmr, rfl⟩ := Option.map_eq_some_iff.mp hp
    obtain ⟨htable, rfl⟩ := getReservedMetadataRecord_name hrmr
    exact ⟨htable, Std.TreeMap.mem_toList_iff_getElem?_eq_some.mp hmem⟩
  · rintro ⟨htable, hentry⟩
    refine ⟨(p.1.name, p.2), Std.TreeMap.mem_toList_iff_getElem?_eq_some.mpr hentry, ?_⟩
    rw [getReservedMetadataRecord_self p.1 htable]
    rfl

theorem mem_entriesByName {entries : Bytes → Option ValueWithMimeType}
    {p : ReservedMetadataRecord × ValueWithMimeType} :
    p ∈ entriesByName entries ↔ p.1 ∈ reservedMetadataInfo ∧ entries p.1.name = some p.2 := by
  rw [entriesByName, List.mem_filterMap]
  constructor
  · rintro ⟨rmr, hrmr, hp⟩
    obtain ⟨v, hv, rfl⟩ := Option.map_eq_some_iff.mp hp
    exact ⟨mem_reservedByName.mp hrmr, hv⟩
  · rintro ⟨htable, hentry⟩
    refine ⟨p.1, mem_reservedByName.mpr htable, ?_⟩
    rw [hentry]
    rfl

/-- Both passes are in the order of the names. -/
def NamesOrdered (l : List (ReservedMetadataRecord × ValueWithMimeType)) : Prop :=
  l.Pairwise fun p q => compare p.1.name q.1.name = .lt

theorem reservedEntries_ordered (m : Metadata) : NamesOrdered (reservedEntries m) := by
  rw [NamesOrdered, reservedEntries, List.pairwise_filterMap]
  refine Std.TreeMap.ordered_keys_toList.imp fun {a b} hlt p hp q hq => ?_
  obtain ⟨rmr, hrmr, rfl⟩ := Option.map_eq_some_iff.mp hp
  obtain ⟨rmr', hrmr', rfl⟩ := Option.map_eq_some_iff.mp hq
  rwa [(getReservedMetadataRecord_name hrmr).2, (getReservedMetadataRecord_name hrmr').2]

theorem entriesByName_ordered (entries : Bytes → Option ValueWithMimeType) :
    NamesOrdered (entriesByName entries) := by
  rw [NamesOrdered, entriesByName, List.pairwise_filterMap]
  refine reservedByName_ordered.imp fun {a b} hlt p hp q hq => ?_
  obtain ⟨v, -, rfl⟩ := Option.map_eq_some_iff.mp hp
  obtain ⟨v', -, rfl⟩ := Option.map_eq_some_iff.mp hq
  exact hlt

theorem NamesOrdered.nodup {l : List (ReservedMetadataRecord × ValueWithMimeType)}
    (h : NamesOrdered l) : l.Nodup := by
  refine h.imp fun {a b} hlt => ?_
  rintro rfl
  exact Std.OrientedCmp.not_lt_of_lt hlt hlt

/-- The two passes find the same entries. -/
theorem reservedEntries_eq (m : Metadata) : reservedEntries m = entriesByName m.at? := by
  refine List.Perm.eq_of_pairwise (fun a b _ _ hab hba => ?_) (reservedEntries_ordered m)
    (entriesByName_ordered m.at?) ?_
  · exact absurd hba (Std.OrientedCmp.not_lt_of_lt hab)
  · refine (List.perm_ext_iff_of_nodup (reservedEntries_ordered m).nodup
      (entriesByName_ordered m.at?).nodup).mpr fun p => ?_
    rw [mem_reservedEntries, mem_entriesByName]

theorem flatMap_filterMap {α β γ : Type} (f : α → Option β) (g : β → List γ) (l : List α) :
    (l.filterMap f).flatMap g = l.flatMap fun a => ((f a).map g).getD [] := by
  induction l with
  | nil => rfl
  | cons a l ih =>
      rw [List.filterMap_cons, List.flatMap_cons, ← ih]
      cases f a <;> rfl

theorem checkSimpleConstraints_eq (icu : Icu) (m : Metadata) :
    m.checkSimpleConstraints icu = some (violationErrors m.at? icu) := by
  have hpasses := congrArg (List.flatMap fun p => violations icu p.1 p.2) (reservedEntries_eq m)
  rw [reservedEntries, entriesByName, flatMap_filterMap, flatMap_filterMap] at hpasses
  rw [checkSimpleConstraints]
  refine (congrArg (Option.map List.flatten) (MapM.eq_some_map (g := fun nv =>
    (((getReservedMetadataRecord nv.1).map fun rmr => (rmr, nv.2)).map
      fun p => violations icu p.1 p.2).getD []) fun nv _ => ?_)).trans ?_
  · cases hrmr : getReservedMetadataRecord nv.1 with
    | none => rfl
    | some rmr => exact recordErrors_eq icu (List.mem_of_find?_eq_some hrmr) nv.2
  · rw [Option.map_some, ← List.flatMap_def, hpasses]
    simp only [violationErrors, Option.map_map]
    rfl

/-! ## The whole check -/

theorem checkMandatoryMetadata_eq (m : Metadata) :
    m.checkMandatoryMetadata = missingErrors m.at? := by
  have hfilter : ∀ rmr : ReservedMetadataRecord,
      (rmr.isMandatory && !m.has rmr.name) = (rmr.isMandatory && (m.at? rmr.name).isNone) := by
    intro rmr
    rw [has, ← at?, Option.not_isSome]
  rw [checkMandatoryMetadata, missingErrors]
  simp only [hfilter]

/-- Without a missing name the Description is there. -/
theorem exists_description {m : Metadata} (h : missingErrors m.at? = []) :
    ∃ description, m.at? (str "Description") = some description := by
  rw [← checkMandatoryMetadata_eq, checkMandatoryMetadata_eq_nil_iff] at h
  exact Option.isSome_iff_exists.mp
    (h ⟨str "Description", true, 1, 80, [], .textPlain⟩ (by decide) rfl)

theorem checkComplexConstraints_eq {m : Metadata} (h : missingErrors m.at? = []) :
    m.checkComplexConstraints = some (if ShorterLongDescription m.at? then
      [str "LongDescription shouldn't be shorter than Description"] else []) := by
  obtain ⟨description, hdescription⟩ := exists_description h
  have hshorter : ShorterLongDescription m.at? ↔ ∃ longDescription ∈ m.at? (str "LongDescription"),
      longDescription.value ≠ [] ∧ longDescription.value.length < description.value.length := by
    rw [ShorterLongDescription, hdescription]
    simp
  rw [checkComplexConstraints, complexChecks, List.mapM_cons, List.mapM_nil]
  cases hlong : m.at? (str "LongDescription") with
  | none =>
      rw [if_neg fun hs => by simp [hshorter, hlong] at hs]
      simp [has_of_none hlong]
  | some longDescription =>
      have hhas := has_of_some hlong
      by_cases hempty : longDescription.value = []
      · rw [if_neg fun hs => by simp [hshorter, hlong, hempty] at hs]
        simp [hhas, hlong, hempty]
      · by_cases hlt : longDescription.value.length < description.value.length
        · rw [if_pos (hshorter.mpr ⟨longDescription, hlong, hempty, hlt⟩)]
          simp [hhas, hlong, hdescription, hempty, Nat.not_le_of_lt hlt]
        · rw [if_neg fun hs => by simp [hshorter, hlong, hlt] at hs]
          simp [hhas, hlong, hdescription, Nat.le_of_not_lt hlt]

theorem check_eq (icu : Icu) (m : Metadata) : m.check icu = some (expectedErrors m.at? icu) := by
  rw [check, checkSimpleConstraints_eq, checkMandatoryMetadata_eq, expectedErrors]
  by_cases hmissing : missingErrors m.at? = []
  · by_cases hviolations : violationErrors m.at? icu = []
    · simp [hmissing, hviolations, checkComplexConstraints_eq hmissing]
    · simp [hmissing, hviolations]
  · simp [hmissing]

/-- The entries of the reserved names decide. -/
theorem expectedErrors_congr (icu : Icu) {entries entries' : Bytes → Option ValueWithMimeType}
    (h : ∀ rmr ∈ reservedMetadataInfo, entries rmr.name = entries' rmr.name) :
    expectedErrors entries icu = expectedErrors entries' icu := by
  have hmissing : missingErrors entries = missingErrors entries' := by
    refine congrArg (List.map _) (List.filter_congr fun rmr hrmr => ?_)
    rw [h rmr hrmr]
  have hviolations : violationErrors entries icu = violationErrors entries' icu := by
    refine List.flatMap_congr fun rmr hrmr => ?_
    rw [h rmr (mem_reservedByName.mp hrmr)]
  have hlong := h ⟨str "LongDescription", false, 0, 4000, [], .textPlain⟩ (by decide)
  have hdescription := h ⟨str "Description", true, 1, 80, [], .textPlain⟩ (by decide)
  have hshorter : ShorterLongDescription entries ↔ ShorterLongDescription entries' := by
    rw [ShorterLongDescription, ShorterLongDescription, hlong, hdescription]
  simp only [expectedErrors, hmissing, hviolations, hshorter]

theorem at?_foldl_set (calls : List (Bytes × ValueWithMimeType)) (name : Bytes) :
    (ofCalls calls).at? name = lastSet calls name := by
  induction calls using List.reverseRecOn with
  | nil => exact Std.TreeMap.getElem?_emptyc
  | append_singleton calls call ih =>
      rw [ofCalls, List.foldl_concat, at?_set, lastSet, List.reverse_concat, List.find?_cons]
      by_cases hname : call.1 = name
      · rw [if_pos hname, decide_eq_true hname]
        rfl
      · rw [if_neg hname, decide_eq_false hname]
        exact ih

/-- For every metadata, a check gives the errors that its entries of reserved
names give rise to.  The order in which the entries were set does not matter, nor
do values that were replaced and other names. -/
theorem check_eq_expected (icu : Icu) (m : Metadata) (calls : List (Bytes × ValueWithMimeType)) :
    m.check icu = some (expectedErrors m.at? icu) ∧
      (ofCalls calls).check icu = some (expectedErrors (lastSet calls) icu) ∧
      ∀ entries : Bytes → Option ValueWithMimeType,
        (∀ rmr ∈ reservedMetadataInfo, entries rmr.name = m.at? rmr.name) →
          expectedErrors entries icu = expectedErrors m.at? icu := by
  refine ⟨check_eq icu m, ?_, fun entries => expectedErrors_congr icu⟩
  rw [check_eq, funext (at?_foldl_set calls)]

end Metadata
end ZimTools
