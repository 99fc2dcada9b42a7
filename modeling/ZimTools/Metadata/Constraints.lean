import Std.Data.TreeMap.Lemmas
import ZimTools.Lib.MapM
import ZimTools.Std.Decimal
import ZimTools.Std.Regex
import ZimTools.Tools.HtmlLinks

/-!
# The constraints on metadata

`Metadata::check` tests the metadata of an archive against a table of reserved
names and, when that gives no error, against constraints between its entries.
A check that throws is `none`.

`check_eq_nil_iff` says when a check gives no error: every mandatory name is
there, every entry of a reserved name meets its record (`Meets`), and a
LongDescription that is there and not empty is no shorter than the Description.
-/

namespace ZimTools

open Bytes

/-! ## The length of a text -/

/-- What the program uses of the ICU library. -/
structure Icu where
  /-- `UnicodeString::fromUTF8`, on a pointer and a 32-bit length. -/
  fromUTF8 : Bytes → Int32 → List UInt16
  /-- The boundaries that `next` of a character instance comes to, unless the
  status of its creation is an error. -/
  createCharacterInstance : Option (List UInt16 → List Nat)

def getTextLength (icu : Icu) (utf8EncodedString : Bytes) : Nat :=
  let ustr := icu.fromUTF8 utf8EncodedString (Int32.ofNat utf8EncodedString.length)
  match icu.createCharacterInstance with
  | none => ustr.length
  | some boundaries => (boundaries ustr).length

/-- An empty text has no characters. -/
structure Icu.EmptyText (icu : Icu) : Prop where
  fromUTF8 : icu.fromUTF8 [] 0 = []
  boundaries : ∀ boundaries ∈ icu.createCharacterInstance, boundaries [] = []

theorem getTextLength_nil {icu : Icu} (h : icu.EmptyText) : getTextLength icu [] = 0 := by
  have hunits : icu.fromUTF8 [] (Int32.ofNat ([] : Bytes).length) = [] := h.fromUTF8
  rw [getTextLength, hunits]
  split
  · rfl
  · next boundaries hboundaries =>
      rw [h.boundaries boundaries hboundaries]
      rfl

/-! ## The table -/

namespace Metadata

inductive MimeType where
  | textPlain
  | png
deriving DecidableEq, Repr

structure ReservedMetadataRecord where
  name : Bytes
  isMandatory : Bool
  minLength : Nat
  maxLength : Nat
  regex : Bytes
  mimeType : MimeType
deriving DecidableEq, Repr

def langsRegexp : Bytes := str "^\\w\x7b3\x7d(,\\w\x7b3\x7d)*$"

def dateRegexp : Bytes := str "^\\d\\d\\d\\d-\\d\\d-\\d\\d$"

/-- The signature of a PNG file. -/
def pngSignature : Bytes := [0x89, 0x50, 0x4e, 0x47, 0x0d, 0x0a, 0x1a, 0x0a]

def pngRegexp : Bytes := str "^" ++ pngSignature

def counterRegexp : Bytes :=
  str "^([a-zA-Z]+/[a-zA-Z0-9.\\-+]+=\\d+)(;[a-zA-Z0-9]+/[a-zA-Z0-9.\\-+]+=\\d+)*;?$"

def illustrationName : Bytes := str "Illustration_48x48@1"

/-- `reservedMetadataInfoTable`. -/
def reservedMetadataInfo : List ReservedMetadataRecord :=
  [⟨str "Name", true, 1, 0, [], .textPlain⟩,
    ⟨str "Title", true, 1, 30, [], .textPlain⟩,
    ⟨str "Language", true, 3, 0, langsRegexp, .textPlain⟩,
    ⟨str "Creator", true, 1, 0, [], .textPlain⟩,
    ⟨str "Publisher", true, 1, 0, [], .textPlain⟩,
    ⟨str "Date", true, 10, 10, dateRegexp, .textPlain⟩,
    ⟨str "Description", true, 1, 80, [], .textPlain⟩,
    ⟨str "LongDescription", false, 0, 4000, [], .textPlain⟩,
    ⟨str "License", false, 0, 0, [], .textPlain⟩,
    ⟨str "Tags", false, 0, 0, [], .textPlain⟩,
    ⟨str "Relation", false, 0, 0, [], .textPlain⟩,
    ⟨str "Flavour", false, 0, 0, [], .textPlain⟩,
    ⟨str "Source", false, 0, 0, [], .textPlain⟩,
    ⟨str "Counter", false, 0, 0, counterRegexp, .textPlain⟩,
    ⟨str "Scraper", false, 0, 0, [], .textPlain⟩,
    ⟨illustrationName, true, 0, 0, pngRegexp, .png⟩]

def getReservedMetadataRecord (name : Bytes) : Option ReservedMetadataRecord :=
  reservedMetadataInfo.find? (·.name == name)

/-- A text that is no regular expression throws. -/
def searchRegex (regexStr text : Bytes) : Option Bool := (Regex.ofBytes regexStr).map (·.search text)

def checkMimeType (mimeType : Bytes) (expectedMimeType : MimeType) : Bool :=
  let mimeType := asciitolower mimeType
  match expectedMimeType with
  | .textPlain => mimeType == str "text/plain" || mimeType == str "text/plain;charset=utf-8"
  | .png => mimeType == str "image/png"

def isPrint (c : UInt8) : Bool := 32 ≤ c && c < 127

def hexDigit (n : UInt8) : UInt8 := if n < 10 then char '0' + n else char 'a' + (n - 10)

def escapeNonPrintableChars (s : Bytes) : Bytes :=
  s.flatMap fun c => if isPrint c then [c] else str "\\x" ++ [hexDigit (c / 16), hexDigit (c % 16)]

end Metadata

/-! ## The checks -/

structure ValueWithMimeType where
  value : Bytes
  mimeType : Bytes
deriving DecidableEq, Repr

structure Metadata where
  /-- A `std::map`, which is in the order of the names. -/
  data : Std.TreeMap Bytes ValueWithMimeType

namespace Metadata

abbrev Errors := List Bytes

def has (m : Metadata) (name : Bytes) : Bool := m.data[name]?.isSome

/-- `operator[]`, which throws for a name that is not there. -/
def at? (m : Metadata) (name : Bytes) : Option ValueWithMimeType := m.data[name]?

def set (m : Metadata) (name value mimeType : Bytes) : Metadata :=
  ⟨m.data.insert name ⟨value, mimeType⟩⟩

def checkMandatoryMetadata (m : Metadata) : Errors :=
  (reservedMetadataInfo.filter fun rmr => rmr.isMandatory && !m.has rmr.name).map fun rmr =>
    str "Missing mandatory metadata: " ++ rmr.name

def regexErrors (rmr : ReservedMetadataRecord) (v : ValueWithMimeType) : Option Errors :=
  if rmr.regex = [] then some []
  else (searchRegex rmr.regex v.value).map fun found =>
    if found then []
    else [rmr.name ++ str " doesn't match regex: " ++ escapeNonPrintableChars rmr.regex]

/-- The errors of an entry whose name is reserved. -/
def recordErrors (icu : Icu) (rmr : ReservedMetadataRecord) (v : ValueWithMimeType) :
    Option Errors :=
  let name := rmr.name
  let tooShort :=
    if rmr.minLength ≠ 0 ∧ getTextLength icu v.value < rmr.minLength then
      [name ++ str " must contain at least " ++ decimal rmr.minLength ++ str " characters"]
    else []
  let tooLong :=
    if rmr.maxLength ≠ 0 ∧ rmr.maxLength < getTextLength icu v.value then
      [name ++ str " must contain at most " ++ decimal rmr.maxLength ++ str " characters"]
    else []
  let wrongType :=
    if checkMimeType v.mimeType rmr.mimeType then []
    else [name ++ str " has wrong MIME type: " ++ v.mimeType]
  (regexErrors rmr v).map fun unmatched => tooShort ++ tooLong ++ unmatched ++ wrongType

def checkSimpleConstraints (icu : Icu) (m : Metadata) : Option Errors :=
  (m.data.toList.mapM fun (nv : Bytes × ValueWithMimeType) =>
    match getReservedMetadataRecord nv.1 with
    | none => some []
    | some rmr => recordErrors icu rmr nv.2).map List.flatten

/-- The constraints between entries, from the last one back. -/
def complexChecks : List (Bytes × (Metadata → Option Bool)) :=
  [(str "LongDescription shouldn't be shorter than Description", fun data => do
    if !data.has (str "LongDescription") then some true
    else if (← data.at? (str "LongDescription")).value.length = 0 then some true
    else
      let longDescription ← data.at? (str "LongDescription")
      let description ← data.at? (str "Description")
      some (description.value.length ≤ longDescription.value.length))]

def checkComplexConstraints (m : Metadata) : Option Errors :=
  (complexChecks.mapM fun (c : Bytes × (Metadata → Option Bool)) => (c.2 m).map fun ok => if ok then [] else [c.1]).map List.flatten

def check (icu : Icu) (m : Metadata) : Option Errors := do
  let e1 := m.checkMandatoryMetadata
  let e2 ← m.checkSimpleConstraints icu
  if e1 ≠ [] ∨ e2 ≠ [] then some (e1 ++ e2) else m.checkComplexConstraints

/-! ## No errors -/

/-- An entry meets the record of its name. -/
structure Meets (icu : Icu) (rmr : ReservedMetadataRecord) (v : ValueWithMimeType) : Prop where
  minLength : rmr.minLength ≠ 0 → rmr.minLength ≤ getTextLength icu v.value
  maxLength : rmr.maxLength ≠ 0 → getTextLength icu v.value ≤ rmr.maxLength
  regex : rmr.regex ≠ [] → searchRegex rmr.regex v.value = some true
  mimeType : checkMimeType v.mimeType rmr.mimeType = true

theorem regexErrors_eq_nil_iff {rmr : ReservedMetadataRecord} {v : ValueWithMimeType} :
    regexErrors rmr v = some [] ↔ (rmr.regex ≠ [] → searchRegex rmr.regex v.value = some true) := by
  rw [regexErrors]
  split
  · next hnil => simp [hnil]
  · next hne =>
      cases hfound : searchRegex rmr.regex v.value with
      | none => simp [hne]
      | some found => cases found <;> simp [hne]

theorem recordErrors_eq_nil_iff {icu : Icu} {rmr : ReservedMetadataRecord}
    {v : ValueWithMimeType} : recordErrors icu rmr v = some [] ↔ Meets icu rmr v := by
  constructor
  · intro h
    simp only [recordErrors, Option.map_eq_some_iff, List.append_eq_nil_iff] at h
    obtain ⟨unmatched, hregex, ⟨⟨hshort, hlong⟩, rfl⟩, htype⟩ := h
    constructor
    · intro hmin
      by_contra hlt
      rw [if_pos ⟨hmin, Nat.lt_of_not_le hlt⟩] at hshort
      exact nomatch hshort
    · intro hmax
      by_contra hlt
      rw [if_pos ⟨hmax, Nat.lt_of_not_le hlt⟩] at hlong
      exact nomatch hlong
    · exact regexErrors_eq_nil_iff.mp hregex
    · by_contra hcheck
      rw [if_neg hcheck] at htype
      exact nomatch htype
  · intro h
    have hshort : ¬ (rmr.minLength ≠ 0 ∧ getTextLength icu v.value < rmr.minLength) := fun hlt =>
      Nat.not_le_of_lt hlt.2 (h.minLength hlt.1)
    have hlong : ¬ (rmr.maxLength ≠ 0 ∧ rmr.maxLength < getTextLength icu v.value) := fun hlt =>
      Nat.not_le_of_lt hlt.2 (h.maxLength hlt.1)
    rw [recordErrors, regexErrors_eq_nil_iff.mpr h.regex, if_neg hshort, if_neg hlong,
      if_pos h.mimeType]
    rfl

theorem has_of_none {m : Metadata} {name : Bytes} (h : m.at? name = none) :
    m.has name = false := by
  rw [has, ← at?, h]
  rfl

theorem has_of_some {m : Metadata} {name : Bytes} {v : ValueWithMimeType}
    (h : m.at? name = some v) : m.has name = true := by
  rw [has, ← at?, h]
  rfl

theorem checkMandatoryMetadata_eq_nil_iff {m : Metadata} :
    m.checkMandatoryMetadata = [] ↔
      ∀ rmr ∈ reservedMetadataInfo, rmr.isMandatory = true → m.has rmr.name = true := by
  simp only [checkMandatoryMetadata, List.map_eq_nil_iff, List.filter_eq_nil_iff,
    Bool.and_eq_true, Bool.not_eq_true', not_and, Bool.not_eq_false]

theorem checkSimpleConstraints_eq_nil_iff {icu : Icu} {m : Metadata} :
    m.checkSimpleConstraints icu = some [] ↔ ∀ name v, m.data[name]? = some v →
      ∀ rmr ∈ getReservedMetadataRecord name, Meets icu rmr v := by
  rw [checkSimpleConstraints, MapM.flatten_eq_nil_iff]
  constructor
  · intro h name v hv rmr hrmr
    have hentry := h (name, v) (Std.TreeMap.mem_toList_iff_getElem?_eq_some.mpr hv)
    rw [Option.mem_def.mp hrmr] at hentry
    exact recordErrors_eq_nil_iff.mp hentry
  · rintro h ⟨name, v⟩ hv
    cases hrmr : getReservedMetadataRecord name with
    | none => rfl
    | some rmr =>
        exact recordErrors_eq_nil_iff.mpr
          (h name v (Std.TreeMap.mem_toList_iff_getElem?_eq_some.mp hv) rmr hrmr)

theorem checkComplexConstraints_eq_nil_iff {m : Metadata} :
    m.checkComplexConstraints = some [] ↔ ∀ longDescription ∈ m.at? (str "LongDescription"),
      longDescription.value ≠ [] → ∃ description ∈ m.at? (str "Description"),
        description.value.length ≤ longDescription.value.length := by
  rw [checkComplexConstraints, MapM.flatten_eq_nil_iff, complexChecks, List.forall_mem_singleton]
  cases hlong : m.at? (str "LongDescription") with
  | none =>
      simp [has_of_none hlong]
  | some longDescription =>
      have hhas := has_of_some hlong
      cases hdesc : m.at? (str "Description") with
      | none => by_cases hempty : longDescription.value = [] <;> simp [hhas, hlong, hdesc, hempty]
      | some description =>
          by_cases hempty : longDescription.value = [] <;> simp [hhas, hlong, hdesc, hempty]

/-- A check without errors. -/
theorem check_eq_nil_iff {icu : Icu} {m : Metadata} :
    m.check icu = some [] ↔ m.checkMandatoryMetadata = [] ∧
      m.checkSimpleConstraints icu = some [] ∧ m.checkComplexConstraints = some [] := by
  rw [check]
  cases m.checkSimpleConstraints icu with
  | none => simp
  | some e2 =>
      by_cases h : m.checkMandatoryMetadata ≠ [] ∨ e2 ≠ []
      · rcases h with he1 | he2
        · simp [he1]
        · simp [he2]
      · obtain ⟨he1, he2⟩ := not_or.mp h
        simp [not_not.mp he1, not_not.mp he2]

/-! ## No exceptions -/

theorem ofBytes_regex : ∀ rmr ∈ reservedMetadataInfo, rmr.regex ≠ [] →
    (Regex.ofBytes rmr.regex).isSome = true := by
  decide

theorem exists_recordErrors (icu : Icu) {rmr : ReservedMetadataRecord}
    (hrmr : rmr ∈ reservedMetadataInfo) (v : ValueWithMimeType) :
    ∃ errors, recordErrors icu rmr v = some errors := by
  have hregex : ∃ unmatched, regexErrors rmr v = some unmatched := by
    rw [regexErrors]
    split
    · exact ⟨[], rfl⟩
    · next hne =>
        obtain ⟨regex, hregex⟩ := Option.isSome_iff_exists.mp (ofBytes_regex rmr hrmr hne)
        rw [searchRegex, hregex]
        exact ⟨_, rfl⟩
  obtain ⟨unmatched, hunmatched⟩ := hregex
  rw [recordErrors, hunmatched]
  exact ⟨_, rfl⟩

theorem exists_checkSimpleConstraints (icu : Icu) (m : Metadata) :
    ∃ errors, m.checkSimpleConstraints icu = some errors := by
  rw [checkSimpleConstraints]
  refine MapM.exists_flatten fun nv _ => ?_
  split
  · exact ⟨[], rfl⟩
  · next rmr hrmr => exact exists_recordErrors icu (List.mem_of_find?_eq_some hrmr) nv.2

/-- The Description is looked at when it is there. -/
theorem exists_checkComplexConstraints {m : Metadata} (h : m.checkMandatoryMetadata = []) :
    ∃ errors, m.checkComplexConstraints = some errors := by
  have hmandatory : m.has (str "Description") = true :=
    checkMandatoryMetadata_eq_nil_iff.mp h ⟨str "Description", true, 1, 80, [], .textPlain⟩
      (by decide) rfl
  obtain ⟨description, hdescription⟩ := Option.isSome_iff_exists.mp hmandatory
  have hat : m.at? (str "Description") = some description := hdescription
  rw [checkComplexConstraints]
  refine MapM.exists_flatten fun c hc => ?_
  rw [List.mem_singleton.mp hc]
  cases hlong : m.at? (str "LongDescription") with
  | none =>
      exact ⟨[], by simp [has_of_none hlong]⟩
  | some longDescription =>
      have hhas := has_of_some hlong
      by_cases hempty : longDescription.value = []
      · exact ⟨[], by simp [hhas, hlong, hempty]⟩
      · exact ⟨_, by simp [hhas, hlong, hat, hempty]; rfl⟩

/-- The check gives its errors for every metadata. -/
theorem exists_check (icu : Icu) (m : Metadata) : ∃ errors, m.check icu = some errors := by
  obtain ⟨simple, hsimple⟩ := exists_checkSimpleConstraints icu m
  rw [check, hsimple, Option.bind_eq_bind, Option.bind_some]
  split
  · exact ⟨_, rfl⟩
  · next herrors => exact exists_checkComplexConstraints (not_not.mp (not_or.mp herrors).1)

end Metadata
end ZimTools
