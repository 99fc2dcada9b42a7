import ZimTools.Metadata.Constraints

/-!
# Metadata that zimwriterfs writes

zimwriterfs checks its metadata and hands the entries to the library that writes
the archive, except those with an empty value.  zimcheck checks what is in the
archive again, with the MIME types that the library has given to the entries.

What zimwriterfs accepts, zimcheck accepts (`check_written`).  No entry that the
constraints ask for has an empty value (`Meets.value_ne_nil`), so none of them
is left out, and the rest of the constraints are about the values that are
written.
-/

namespace ZimTools

open Bytes

namespace Metadata

/-! ## Writing -/

def stringMimeType : Bytes := str "text/plain;charset=utf-8"

def illustrationMimeType : Bytes := str "image/png"

/-- `ZimCreatorFS::addMetadata`, on what is in the archive. -/
def creatorAddMetadata (archive : Metadata) (key content : Bytes) : Metadata :=
  if content ≠ [] then archive.set key content stringMimeType else archive

/-- `zimCreator.addIllustration(48, content)`. -/
def creatorAddIllustration (archive : Metadata) (content : Bytes) : Metadata :=
  archive.set illustrationName content illustrationMimeType

/-- One pass of the loop of `addMetadata`. -/
def addEntry (archive : Metadata) (kv : Bytes × ValueWithMimeType) : Metadata :=
  if kv.1 = illustrationName then creatorAddIllustration archive kv.2.value
  else creatorAddMetadata archive kv.1 kv.2.value

/-- `addMetadata`, from an archive without metadata. -/
def addMetadata (metadata : Metadata) : Metadata := metadata.data.toList.foldl addEntry ⟨∅⟩

/-- The regular expression and the MIME type of the Counter. -/
structure ValidCounter (v : ValueWithMimeType) : Prop where
  regex : searchRegex counterRegexp v.value = some true
  mimeType : checkMimeType v.mimeType .textPlain = true

/-- The archive has the metadata that were written and nothing else but a valid
Counter. -/
structure Written (metadata archive : Metadata) : Prop where
  entries : ∀ name, name ≠ str "Counter" → archive.at? name = (addMetadata metadata).at? name
  counter : ∀ v ∈ archive.at? (str "Counter"),
    v ∈ (addMetadata metadata).at? (str "Counter") ∨ ValidCounter v

/-! ## What is written -/

/-- What is stored for an entry. -/
def stored (name : Bytes) (v : ValueWithMimeType) : Option ValueWithMimeType :=
  if name = illustrationName then some ⟨v.value, illustrationMimeType⟩
  else if v.value ≠ [] then some ⟨v.value, stringMimeType⟩
  else none

theorem stored_of_ne_nil (name : Bytes) {v : ValueWithMimeType} (h : v.value ≠ []) :
    ∃ v' ∈ stored name v, v'.value = v.value := by
  rw [stored]
  split
  · exact ⟨_, rfl, rfl⟩
  · exact ⟨_, rfl, rfl⟩

theorem stored_value {name : Bytes} {v v' : ValueWithMimeType} (h : v' ∈ stored name v) :
    v'.value = v.value := by
  rw [stored] at h
  split at h
  · rw [← Option.some.inj h]
  · split at h
    · rw [← Option.some.inj h]
    · exact nomatch h

theorem at?_set {m : Metadata} {name key value mimeType : Bytes} :
    (m.set key value mimeType).at? name = if key = name then some ⟨value, mimeType⟩ else m.at? name := by
  simp only [at?, set, Std.TreeMap.getElem?_insert, Std.LawfulEqCmp.compare_eq_iff_eq]

/-- An entry changes what is stored for its name. -/
theorem at?_addEntry (m : Metadata) (kv : Bytes × ValueWithMimeType) (name : Bytes) :
    (addEntry m kv).at? name =
      if kv.1 = name then (stored kv.1 kv.2).or (m.at? name) else m.at? name := by
  rw [addEntry, stored]
  split
  · next hname => rw [creatorAddIllustration, at?_set, hname, Option.some_or]
  · rw [creatorAddMetadata]
    split
    · rw [at?_set, Option.some_or]
    · simp

/-- The entries of other names leave what is stored for a name. -/
theorem at?_foldl_addEntry_of_ne {name : Bytes} : ∀ {l : List (Bytes × ValueWithMimeType)}
    {m : Metadata}, (∀ kv ∈ l, kv.1 ≠ name) → (l.foldl addEntry m).at? name = m.at? name
  | [], _, _ => rfl
  | kv :: l, m, h => by
      rw [List.foldl_cons, at?_foldl_addEntry_of_ne fun kv' hkv' => h kv' (List.mem_cons_of_mem _ hkv'),
        at?_addEntry, if_neg (h kv (List.mem_cons_self ..))]

theorem at?_addMetadata (m : Metadata) (name : Bytes) :
    (addMetadata m).at? name = (m.at? name).bind (stored name) := by
  have hempty : (⟨∅⟩ : Metadata).at? name = none := Std.TreeMap.getElem?_emptyc
  cases hv : m.at? name with
  | none =>
      rw [addMetadata, at?_foldl_addEntry_of_ne, hempty]
      · rfl
      · rintro ⟨name', v⟩ hmem rfl
        rw [Std.TreeMap.mem_toList_iff_getElem?_eq_some] at hmem
        exact nomatch hmem.symm.trans hv
  | some v =>
      have hmem : (name, v) ∈ m.data.toList := Std.TreeMap.mem_toList_iff_getElem?_eq_some.mpr hv
      obtain ⟨before, after, hsplit⟩ := List.append_of_mem hmem
      have hdistinct := Std.TreeMap.distinct_keys_toList (t := m.data)
      rw [hsplit, List.pairwise_append, List.pairwise_cons] at hdistinct
      obtain ⟨-, ⟨hafter, -⟩, hbefore⟩ := hdistinct
      simp only [Std.LawfulEqCmp.compare_eq_iff_eq] at hafter hbefore
      rw [addMetadata, hsplit, List.foldl_append, List.foldl_cons,
        at?_foldl_addEntry_of_ne fun kv hkv => Ne.symm (hafter kv hkv), at?_addEntry, if_pos rfl,
        at?_foldl_addEntry_of_ne fun kv hkv => hbefore kv hkv _ (List.mem_cons_self ..), hempty,
        Option.or_none]
      rfl

/-! ## The check of what is written -/

theorem getReservedMetadataRecord_self :
    ∀ rmr ∈ reservedMetadataInfo, getReservedMetadataRecord rmr.name = some rmr := by
  decide

theorem getReservedMetadataRecord_name {name : Bytes} {rmr : ReservedMetadataRecord}
    (h : rmr ∈ getReservedMetadataRecord name) :
    rmr ∈ reservedMetadataInfo ∧ rmr.name = name := by
  refine ⟨List.mem_of_find?_eq_some h, ?_⟩
  simpa using List.find?_some h

/-- A mandatory entry has a minimal length or a form that no empty text has. -/
theorem mandatory_constrained : ∀ rmr ∈ reservedMetadataInfo, rmr.isMandatory = true →
    rmr.minLength ≠ 0 ∨ rmr.regex ≠ [] ∧ searchRegex rmr.regex [] = some false := by
  decide

theorem Meets.value_ne_nil {icu : Icu} (hicu : icu.EmptyText) {rmr : ReservedMetadataRecord}
    {v : ValueWithMimeType} (hrmr : rmr ∈ reservedMetadataInfo) (hmandatory : rmr.isMandatory = true)
    (h : Meets icu rmr v) : v.value ≠ [] := by
  intro hnil
  rcases mandatory_constrained rmr hrmr hmandatory with hmin | ⟨hregex, hsearch⟩
  · have hle := h.minLength hmin
    rw [hnil, getTextLength_nil hicu] at hle
    exact hmin (Nat.le_zero.mp hle)
  · have hfound := h.regex hregex
    rw [hnil, hsearch] at hfound
    exact nomatch hfound

/-- The MIME types of the archive are those of the table. -/
theorem checkMimeType_stored : ∀ rmr ∈ reservedMetadataInfo,
    checkMimeType (if rmr.name = illustrationName then illustrationMimeType else stringMimeType)
      rmr.mimeType = true := by
  decide

theorem stored_mimeType {name : Bytes} {v v' : ValueWithMimeType} (h : v' ∈ stored name v) :
    v'.mimeType = if name = illustrationName then illustrationMimeType else stringMimeType := by
  rw [stored] at h
  split at h
  · next hname => rw [← Option.some.inj h, if_pos hname]
  · next hname =>
      split at h
      · rw [← Option.some.inj h, if_neg hname]
      · exact nomatch h

/-- What is stored for an entry meets the record that the entry meets. -/
theorem Meets.stored {icu : Icu} {rmr : ReservedMetadataRecord} {v v' : ValueWithMimeType}
    (hrmr : rmr ∈ reservedMetadataInfo) (h : Meets icu rmr v)
    (hv' : v' ∈ Metadata.stored rmr.name v) : Meets icu rmr v' := by
  have hvalue := stored_value hv'
  constructor
  · rw [hvalue]
    exact h.minLength
  · rw [hvalue]
    exact h.maxLength
  · rw [hvalue]
    exact h.regex
  · rw [stored_mimeType hv']
    exact checkMimeType_stored rmr hrmr

theorem ValidCounter.meets {icu : Icu} {rmr : ReservedMetadataRecord} {v : ValueWithMimeType}
    (h : ValidCounter v) (hrmr : rmr ∈ getReservedMetadataRecord (str "Counter")) :
    Meets icu rmr v := by
  have hcounter : getReservedMetadataRecord (str "Counter") =
      some ⟨str "Counter", false, 0, 0, counterRegexp, .textPlain⟩ := by decide
  obtain rfl := Option.some.inj (hcounter.symm.trans hrmr)
  exact ⟨fun hne => absurd rfl hne, fun hne => absurd rfl hne, fun _ => h.regex, h.mimeType⟩

theorem validCounter_of_meets {icu : Icu} {v : ValueWithMimeType}
    (h : Meets icu ⟨str "Counter", false, 0, 0, counterRegexp, .textPlain⟩ v) : ValidCounter v :=
  ⟨h.regex (by decide), h.mimeType⟩

section Written

variable {icu : Icu} {metadata archive : Metadata}

theorem value_ne_nil_of_check (hicu : icu.EmptyText)
    (hsimple : metadata.checkSimpleConstraints icu = some []) {rmr : ReservedMetadataRecord}
    {v : ValueWithMimeType} (hrmr : rmr ∈ reservedMetadataInfo) (hmandatory : rmr.isMandatory = true)
    (hv : v ∈ metadata.at? rmr.name) : v.value ≠ [] := by
  have hmeets := checkSimpleConstraints_eq_nil_iff.mp hsimple rmr.name v hv rmr
    (getReservedMetadataRecord_self rmr hrmr)
  exact hmeets.value_ne_nil hicu hrmr hmandatory

theorem Written.mandatory (hicu : icu.EmptyText) (h : Written metadata archive)
    (hmandatory : metadata.checkMandatoryMetadata = [])
    (hsimple : metadata.checkSimpleConstraints icu = some []) :
    archive.checkMandatoryMetadata = [] := by
  rw [checkMandatoryMetadata_eq_nil_iff] at hmandatory ⊢
  intro rmr hrmr hrequired
  have hcounter : rmr.name ≠ str "Counter" := by
    intro hname
    have hrecord := getReservedMetadataRecord_self rmr hrmr
    rw [hname] at hrecord
    obtain rfl := Option.some.inj hrecord
    exact nomatch hrequired
  obtain ⟨v, hv⟩ := Option.isSome_iff_exists.mp (hmandatory rmr hrmr hrequired)
  obtain ⟨v', hv', -⟩ := stored_of_ne_nil rmr.name
    (value_ne_nil_of_check hicu hsimple hrmr hrequired hv)
  have hstored : archive.at? rmr.name = some v' := by
    rw [h.entries rmr.name hcounter, at?_addMetadata, at?, hv]
    exact hv'
  exact Option.isSome_iff_exists.mpr ⟨v', hstored⟩

theorem Written.simple (h : Written metadata archive)
    (hsimple : metadata.checkSimpleConstraints icu = some []) :
    archive.checkSimpleConstraints icu = some [] := by
  rw [checkSimpleConstraints_eq_nil_iff] at hsimple ⊢
  intro name v' hv' rmr hrecord
  obtain ⟨hrmr, rfl⟩ := getReservedMetadataRecord_name hrecord
  have hwritten : v' ∈ (addMetadata metadata).at? rmr.name → Meets icu rmr v' := by
    intro hmem
    rw [at?_addMetadata] at hmem
    obtain ⟨v, hv, hstored⟩ := Option.bind_eq_some_iff.mp hmem
    exact (hsimple rmr.name v hv rmr hrecord).stored hrmr hstored
  by_cases hcounter : rmr.name = str "Counter"
  · rw [hcounter] at hv' hrecord hwritten
    rcases h.counter v' hv' with hmem | hvalid
    · exact hwritten hmem
    · exact hvalid.meets hrecord
  · exact hwritten (h.entries rmr.name hcounter ▸ hv')

theorem Written.complex (hicu : icu.EmptyText) (h : Written metadata archive)
    (hsimple : metadata.checkSimpleConstraints icu = some [])
    (hcomplex : metadata.checkComplexConstraints = some []) :
    archive.checkComplexConstraints = some [] := by
  rw [checkComplexConstraints_eq_nil_iff] at hcomplex ⊢
  intro longDescription' hlong' hne
  rw [h.entries _ (by decide), at?_addMetadata] at hlong'
  obtain ⟨longDescription, hlong, hstored⟩ := Option.bind_eq_some_iff.mp hlong'
  rw [stored_value hstored] at hne ⊢
  obtain ⟨description, hdescription, hle⟩ := hcomplex longDescription hlong hne
  have hrmr : ⟨str "Description", true, 1, 80, [], .textPlain⟩ ∈ reservedMetadataInfo := by decide
  have hvalue := value_ne_nil_of_check hicu hsimple hrmr rfl hdescription
  obtain ⟨description', hstored', hsame⟩ := stored_of_ne_nil (str "Description") hvalue
  refine ⟨description', ?_, hsame ▸ hle⟩
  rw [h.entries _ (by decide), at?_addMetadata, Option.mem_def.mp hdescription]
  exact hstored'

/-- For every metadata that zimwriterfs accepts, zimcheck accepts the archive. -/
theorem check_written (hicu : icu.EmptyText) (hcheck : metadata.check icu = some [])
    (h : Written metadata archive) : archive.check icu = some [] := by
  rw [check_eq_nil_iff] at hcheck ⊢
  obtain ⟨hmandatory, hsimple, hcomplex⟩ := hcheck
  exact ⟨h.mandatory hicu hmandatory hsimple, h.simple hsimple, h.complex hicu hsimple hcomplex⟩

end Written

/-- An ICU library on the texts of which every character is one byte. -/
def asciiIcu : Icu where
  fromUTF8 := fun s _ => s.map fun c => c.toUInt16
  createCharacterInstance := some fun ustr => List.range' 1 ustr.length

def sampleMetadata : Metadata :=
  ((((((((((⟨∅⟩ : Metadata).set (str "Language") (str "eng") (str "text/plain")).set
    (str "Publisher") (str "zim") (str "text/plain")).set
    (str "Creator") (str "zim") (str "text/plain")).set
    (str "Title") (str "title") (str "text/plain")).set
    (str "Description") (str "text") (str "text/plain")).set
    (str "LongDescription") [] (str "text/plain")).set
    (str "Name") (str "name") (str "text/plain")).set
    (str "Date") (str "2020-20-20") (str "text/plain")).set
    illustrationName pngSignature (str "image/png"))

/-- The archive has a Counter that the metadata did not have. -/
theorem check_written_sample :
    ((addMetadata sampleMetadata).set (str "Counter") (str "text/html=1") (str "text/plain")).check
      asciiIcu = some [] := by
  refine @check_written _ sampleMetadata _ ⟨rfl, ?_⟩ ?_ ⟨?_, ?_⟩
  · intro boundaries hboundaries
    rw [← Option.some.inj hboundaries]
    rfl
  · decide
  · intro name hname
    rw [at?_set, if_neg (Ne.symm hname)]
  · intro v hv
    rw [at?_set, if_pos rfl] at hv
    rw [← Option.some.inj hv]
    exact Or.inr ⟨by decide, by decide⟩

end Metadata
end ZimTools
