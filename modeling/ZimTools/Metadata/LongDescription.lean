import ZimTools.Metadata.Errors

/-!
# The length of the LongDescription

The bounds on a text count its characters.  The constraint that a
LongDescription is no shorter than the Description counts bytes.  So it is about
characters exactly where the one count compares as the other
(`longDescription_unit_iff`).
-/

namespace ZimTools

open Bytes

namespace Metadata

def shorterError : Bytes := str "LongDescription shouldn't be shorter than Description"

/-- Whether a check reports that the LongDescription is too short. -/
def ReportsShorter (icu : Icu) (m : Metadata) : Prop :=
  ∃ errors, m.check icu = some errors ∧ shorterError ∈ errors

section

variable {icu : Icu} {m : Metadata} {longDescription description : ValueWithMimeType}

/-- Behind the first two checks the bytes decide. -/
theorem reportsShorter_iff (hmandatory : m.checkMandatoryMetadata = [])
    (hsimple : m.checkSimpleConstraints icu = some [])
    (hlong : m.at? (str "LongDescription") = some longDescription)
    (hdescription : m.at? (str "Description") = some description)
    (hne : longDescription.value ≠ []) :
    ReportsShorter icu m ↔ longDescription.value.length < description.value.length := by
  have hshorter : ShorterLongDescription m.at? ↔
      longDescription.value.length < description.value.length := by
    rw [ShorterLongDescription, hlong, hdescription]
    simp [hne]
  rw [checkMandatoryMetadata_eq] at hmandatory
  have hcheck : m.check icu = m.checkComplexConstraints := by
    rw [check, hsimple, checkMandatoryMetadata_eq, hmandatory]
    rfl
  rw [ReportsShorter, hcheck, checkComplexConstraints_eq hmandatory, ← hshorter]
  split_ifs with h
  · exact iff_of_true ⟨_, rfl, List.mem_singleton_self _⟩ h
  · refine iff_of_false ?_ h
    rintro ⟨errors, herrors, hmem⟩
    rw [← Option.some.inj herrors] at hmem
    exact absurd hmem List.not_mem_nil

/-- For every metadata that passes the first two checks, the LongDescription is
reported as shorter when it has fewer characters, exactly when it has fewer
bytes than the Description just in case it has fewer characters. -/
theorem longDescription_unit_iff (hmandatory : m.checkMandatoryMetadata = [])
    (hsimple : m.checkSimpleConstraints icu = some [])
    (hlong : m.at? (str "LongDescription") = some longDescription)
    (hdescription : m.at? (str "Description") = some description)
    (hne : longDescription.value ≠ []) :
    (ReportsShorter icu m ↔
      getTextLength icu longDescription.value < getTextLength icu description.value) ↔
    (longDescription.value.length < description.value.length ↔
      getTextLength icu longDescription.value < getTextLength icu description.value) := by
  rw [reportsShorter_iff hmandatory hsimple hlong hdescription hne]

end

/-! ## A library for texts of two-byte characters -/

/-- The UTF-16 units of a text whose characters have one or two bytes. -/
def twoByteUnits : Bytes → List UInt16
  | [] => []
  | [c] => [c.toUInt16]
  | c :: d :: s =>
      if c < 0x80 then c.toUInt16 :: twoByteUnits (d :: s)
      else ((c.toUInt16 &&& 0x1F) <<< 6 ||| (d.toUInt16 &&& 0x3F)) :: twoByteUnits s

/-- ICU on such texts, when no two of the characters belong together. -/
def twoByteIcu : Icu where
  fromUTF8 := fun s _ => twoByteUnits s
  createCharacterInstance := some fun ustr => List.range' 1 ustr.length

/-- What is known of the number of characters of a text. -/
structure CountsCharacters (icu : Icu) : Prop where
  ascii : ∀ s : Bytes, (∀ c ∈ s, c < 0x80) → getTextLength icu s = s.length
  le : ∀ s : Bytes, getTextLength icu s ≤ s.length

theorem getTextLength_twoByteIcu (s : Bytes) :
    getTextLength twoByteIcu s = (twoByteUnits s).length :=
  List.length_range'

theorem twoByteIcu_countsCharacters : CountsCharacters twoByteIcu where
  ascii := by
    intro s hs
    rw [getTextLength_twoByteIcu]
    induction s using twoByteUnits.induct with
    | case1 => rfl
    | case2 c => rfl
    | case3 c d s hc ih =>
        rw [List.forall_mem_cons] at hs
        rw [twoByteUnits, if_pos hc, List.length_cons, ih hs.2]
        rfl
    | case4 c d s hc ih => exact absurd (hs c (List.mem_cons_self ..)) hc
  le := by
    intro s
    rw [getTextLength_twoByteIcu]
    induction s using twoByteUnits.induct with
    | case1 => exact Nat.le_refl 0
    | case2 c => exact Nat.le_refl 1
    | case3 c d s hc ih =>
        rw [twoByteUnits, if_pos hc]
        exact Nat.succ_le_succ ih
    | case4 c d s hc ih =>
        rw [twoByteUnits, if_neg hc]
        exact Nat.succ_le_succ (Nat.le_succ_of_le ih)

/-- `sampleMetadata` with these two descriptions. -/
def describedMetadata (longDescription description : Bytes) : Metadata :=
  (sampleMetadata.set (str "LongDescription") longDescription (str "text/plain")).set
    (str "Description") description (str "text/plain")

/-- Five characters of two bytes. -/
def accentedText : Bytes := [0xc3, 0xa9, 0xc3, 0xa9, 0xc3, 0xa9, 0xc3, 0xa9, 0xc3, 0xa9]

theorem described_accepted :
    (describedMetadata (str "longer") accentedText).checkMandatoryMetadata = [] ∧
      (describedMetadata (str "longer") accentedText).checkSimpleConstraints twoByteIcu = some [] := by
  decide

theorem at?_described (longDescription description : Bytes) :
    (describedMetadata longDescription description).at? (str "LongDescription") =
        some ⟨longDescription, str "text/plain"⟩ ∧
      (describedMetadata longDescription description).at? (str "Description") =
        some ⟨description, str "text/plain"⟩ := by
  rw [describedMetadata, at?_set, at?_set, at?_set, if_neg (by decide), if_pos rfl, if_pos rfl]
  exact ⟨rfl, rfl⟩

/-- Six characters of one byte against five of two. -/
theorem longDescription_unit_sample :
    ¬ (ReportsShorter twoByteIcu (describedMetadata (str "longer") accentedText) ↔
      getTextLength twoByteIcu (str "longer") < getTextLength twoByteIcu accentedText) :=
  fun h => absurd ((longDescription_unit_iff described_accepted.1 described_accepted.2
    (at?_described ..).1 (at?_described ..).2 (List.cons_ne_nil _ _)).mp h) (by decide)

/-- The LongDescription of six characters is reported to be shorter than the
Description of five. -/
theorem longDescription_bytes : ¬ ∀ (icu : Icu) (m : Metadata) (l d : ValueWithMimeType),
    CountsCharacters icu → m.checkMandatoryMetadata = [] → m.checkSimpleConstraints icu = some [] →
    m.at? (str "LongDescription") = some l → m.at? (str "Description") = some d → l.value ≠ [] →
    (ReportsShorter icu m ↔ getTextLength icu l.value < getTextLength icu d.value) := by
  intro h
  obtain ⟨hmandatory, hsimple⟩ := described_accepted
  obtain ⟨hlong, hdescription⟩ := at?_described (str "longer") accentedText
  have hne : str "longer" ≠ [] := List.cons_ne_nil _ _
  have hunit := h twoByteIcu _ _ _ twoByteIcu_countsCharacters hmandatory hsimple hlong hdescription
    hne
  rw [reportsShorter_iff hmandatory hsimple hlong hdescription hne] at hunit
  exact absurd hunit (by decide)

end Metadata
end ZimTools
