import Mathlib.Algebra.Group.Nat.Even
import ZimTools.Incremental.Zimpatch

/-!
# What a patch reads out of a diff

`checkDiffFile` of `zimpatch`, and what it and `create` access by the newlines of
texts that come from the diff.  Each newline of a UUID sets a byte of an array of
16, and the lines of the redirect list are taken in pairs.  Neither number is
looked at.

An access is out of range exactly when there are too many newlines or an odd
number of them (`inBounds_iff`).  A text of 2^32 bytes or more is read in a loop
that does not come to its end, so that one newline is already too many for the
array, while the redirect list is never used.
-/

namespace ZimTools.Incremental.Zimpatch

open Loop

/-! ## The program -/

/-- A fault, or a copy of an array as a string that does not end in it. -/
inductive CheckFault where
  | fault (fault : Fault)
  | unterminated
deriving DecidableEq, Repr

def additionalMetadata : List Bytes :=
  [str "M/dlist", str "M/startfileuid", str "M/endfileuid", str "M/mainaurl",
    str "M/layoutaurl", str "M/redirectlist"]

/-- `getEntryByPath(path).getItem().getData()`, which throws for a redirect. -/
def getData (archive : Archive) (path : Bytes) : Program Bytes := do
  let entry ← archive.getEntryByPath path
  match entry.kind with
  | .item _ data => pure data
  | .redirect _ => throw .exception

/-- `startFileUID2 = tempArray`, which copies up to a NUL. -/
def copyString (tempArray : Uuid) : ExceptT CheckFault Option Bytes :=
  if 0 ∈ tempArray.data then pure (tempArray.data.takeWhile (· ≠ 0)) else throw .unterminated

/-- A pass of the comparison. -/
def compareByte (tempArray startfileUID1 : Uuid) (compare : Bool) (i : Nat) : Program Bool :=
  match tempArray.data[i]?, startfileUID1.data[i]? with
  | some c, some d => pure (if c ≠ d then false else compare)
  | _, _ => throw .undefined

/-- `tempArray` is not initialised. -/
def checkDiffFile (startArchive diffArchive : Archive) (tempArray : Uuid) (fuel : Nat) :
    ExceptT CheckFault Option Bool :=
  if additionalMetadata.all diffArchive.hasEntryByPath then do
    let startFileUID2 ← ExceptT.adapt .fault (getData diffArchive (str "M/startfileuid"))
    let tempArray ← ExceptT.adapt .fault (readUuid startFileUID2 tempArray fuel)
    let _ ← copyString tempArray
    ExceptT.adapt .fault ((List.range 16).foldlM (compareByte tempArray startArchive.uuid) true)
  else pure false

/-- `create` from the delete list on. -/
def createFrom (startArchive diffArchive : Archive) (fuel : Nat)
    (lists : Creator × List (Bytes × Bytes)) : Program Archive :=
  addEntries startArchive diffArchive fuel lists >>= Creator.finishZimCreation

/-- Behind the redirect list `create` uses neither the array nor the list of its lines. -/
theorem create_eq (startArchive diffArchive : Archive) (uuid tempArray : Uuid) (fuel : Nat) :
    create startArchive diffArchive uuid tempArray fuel =
      readLists startArchive diffArchive uuid tempArray fuel >>=
        createFrom startArchive diffArchive fuel := by
  rw [create, fill, bind_assoc]
  rfl

/-! ## The texts -/

/-- Whether the newlines of a text fit in an array of 16.  The newlines of a long
text come again and again. -/
def FitsArray (text : Bytes) : Prop :=
  if text.length < UInt32.size then text.count (char '\n') ≤ 16
  else char '\n' ∉ text.take UInt32.size

/-- A text is the `startfileuid` of a diff that has all additional metadata. -/
def HasStartUid (diffArchive : Archive) (text : Bytes) : Prop :=
  additionalMetadata.all diffArchive.hasEntryByPath ∧
    ∃ entry mimetype, diffArchive.find (str "M/startfileuid") = some entry ∧
      entry.kind = .item mimetype text

/-- The texts of a diff keep to the array and to pairs. -/
structure InBounds (diffArchive : Archive) : Prop where
  startfileuid : ∀ text, HasStartUid diffArchive text → FitsArray text
  endfileuid : ∀ id, diffArchive.metadata.lookup (str "endfileuid") = some id → FitsArray id
  redirectlist : ∀ id mainPath text,
    diffArchive.metadata.lookup (str "endfileuid") = some id → id.length < UInt32.size →
    diffArchive.metadata.lookup (str "mainaurl") = some mainPath →
    diffArchive.metadata.lookup (str "redirectlist") = some text → text.length < UInt32.size →
      Even (text.count (char '\n'))

/-- One of the bytes is zero that the array has after a text that fits. -/
def EndsIn (tempArray : Uuid) (text : Bytes) : Prop :=
  (∃ line ∈ textLines text, intToChar (atoi line) = 0) ∨
    0 ∈ tempArray.data.drop (text.count (char '\n'))

/-! ## The array -/

theorem foldlM_setByte_error {lines : List Bytes} : ∀ {k : Nat} {array : Uuid}, k ≤ 16 →
    16 < k + lines.length → lines.foldlM setByte (k, array) = .error .undefined := by
  induction lines with
  | nil => exact fun hk hlt => absurd hlt (Nat.not_lt.mpr hk)
  | cons line lines ih =>
      intro k array hk hlt
      rw [List.foldlM_cons, setByte]
      split_ifs with hlt16
      · rw [List.length_cons, Nat.add_comm lines.length, ← Nat.add_assoc] at hlt
        exact ih (Nat.succ_le_of_lt hlt16) hlt
      · rfl

/-- The array after a text that fits. -/
theorem foldlM_setByte_text {text : Bytes} (h : text.count (char '\n') ≤ 16) (tempArray : Uuid) :
    ∃ array, (textLines text).foldlM setByte (0, tempArray) =
        .ok (text.count (char '\n'), array) ∧
      (0 ∈ array.data ↔ EndsIn tempArray text) := by
  obtain ⟨array, hfold, hdata⟩ := foldlM_setByte (textLines text) [] tempArray.data tempArray rfl
    (by rwa [length_textLines, tempArray.length_eq])
  rw [List.length_nil, Nat.zero_add, length_textLines] at hfold
  refine ⟨array, hfold, ?_⟩
  rw [hdata, List.nil_append, length_textLines, List.mem_append, List.mem_map, EndsIn]

theorem fails_readUuid_iff {text : Bytes} {tempArray : Uuid} {fuel : Nat} {e : Fault} :
    Fails (readUuid text tempArray fuel) e ↔
      Fails (scanLines text setByte fuel (0, tempArray)) e :=
  fails_bind_pure

theorem setByte_error {state : Nat × Uuid} {line : Bytes} {e : Fault}
    (h : setByte state line = .error e) : e = .undefined := by
  rw [setByte] at h
  split_ifs at h
  exact (Except.error.inj h).symm

theorem setByte_ok {state state' : Nat × Uuid} {line : Bytes}
    (h : setByte state line = .ok state') : 16 - state'.1 < 16 - state.1 := by
  rw [setByte] at h
  split_ifs at h with hlt
  rw [← Except.ok.inj h]
  exact Nat.sub_lt_sub_left hlt (Nat.lt_succ_self _)

/-- The newlines of a text that does not fit lead out of the array. -/
theorem fails_readUuid (text : Bytes) (tempArray : Uuid) :
    (∃ fuel, Fails (readUuid text tempArray fuel) .undefined) ↔ ¬ FitsArray text := by
  simp only [fails_readUuid_iff]
  by_cases hlength : text.length < UInt32.size
  · rw [fails_scanLines hlength, FitsArray, if_pos hlength]
    by_cases hcount : text.count (char '\n') ≤ 16
    · obtain ⟨array, hfold, -⟩ := foldlM_setByte_text hcount tempArray
      rw [hfold]
      exact iff_of_false (by simp) (not_not_intro hcount)
    · refine iff_of_true (foldlM_setByte_error (Nat.zero_le 16) ?_) hcount
      rw [Nat.zero_add, length_textLines]
      exact Nat.not_le.mp hcount
  · rw [FitsArray, if_neg hlength, not_not]
    by_cases hmem : char '\n' ∈ text.take UInt32.size
    · exact iff_of_true (fails_scanLines_of_long (Nat.not_lt.mp hlength) hmem (16 - ·.1)
        (fun _ _ _ => setByte_ok) (fun _ _ _ => setByte_error) (0, tempArray)) hmem
    · refine iff_of_false ?_ hmem
      rintro ⟨fuel, hfails⟩
      exact not_fails_scanLines (absurd · hmem) hfails

/-- A UUID that is read fits, and its array is the one that the lines were put in. -/
theorem returns_readUuid_text {text : Bytes} {tempArray : Uuid} {fuel : Nat} {array : Uuid}
    (h : Returns (readUuid text tempArray fuel) array) :
    text.length < UInt32.size ∧ text.count (char '\n') ≤ 16 ∧
      (0 ∈ array.data ↔ EndsIn tempArray text) := by
  rw [readUuid, returns_bind] at h
  obtain ⟨state, hscan, harray⟩ := h
  obtain ⟨hlength, -, hfold⟩ := returns_scanText.mp hscan
  have hcount : text.count (char '\n') ≤ 16 := by
    by_contra hlt
    rw [← length_textLines, Nat.not_le, ← Nat.zero_add (textLines text).length] at hlt
    rw [foldlM_setByte_error (Nat.zero_le 16) hlt] at hfold
    cases hfold
  obtain ⟨array', hfold', hends⟩ := foldlM_setByte_text hcount tempArray
  rw [hfold', Except.ok.injEq] at hfold
  rw [returns_pure, ← hfold] at harray
  exact ⟨hlength, hcount, harray ▸ hends⟩

/-- Enough fuel reads a UUID that fits. -/
theorem exists_returns_readUuid {text : Bytes} (hlength : text.length < UInt32.size)
    (hcount : text.count (char '\n') ≤ 16) (tempArray : Uuid) {fuel : Nat}
    (hfuel : text.length < fuel) : ∃ array, Returns (readUuid text tempArray fuel) array := by
  obtain ⟨array, hfold, -⟩ := foldlM_setByte_text hcount tempArray
  refine ⟨array, ?_⟩
  rw [readUuid, returns_bind]
  exact ⟨_, returns_scanText.mpr ⟨hlength, hfuel, hfold⟩, returns_pure.mpr rfl⟩

/-! ## The redirect list -/

theorem fails_getMetadata {archive : Archive} {name : Bytes} :
    ¬ Fails (archive.getMetadata name) .undefined := by
  rw [Archive.getMetadata]
  cases archive.metadata.lookup name with
  | none => simp
  | some value => simp

theorem not_fails_readList {text : Bytes} {fuel : Nat} {e : Fault} :
    ¬ Fails (readList text fuel) e :=
  not_fails_scanLines fun _ list line => ⟨list ++ [line], rfl⟩

/-- The last line of an odd number has no partner. -/
theorem fails_pairUp : ∀ {rdlist : List Bytes} {redirectList : List (Bytes × Bytes)},
    Fails (pairUp rdlist redirectList) .undefined ↔ ¬ Even rdlist.length
  | [], _ => by simp [pairUp]
  | [_], _ => by simp [pairUp]
  | _ :: _ :: rdlist, _ => by
      rw [pairUp, fails_pairUp, List.length_cons, List.length_cons, Nat.even_add_one,
        Nat.even_add_one, not_not]

theorem fails_readLists (startArchive diffArchive : Archive) (uuid tempArray : Uuid) :
    (∃ fuel, Fails (readLists startArchive diffArchive uuid tempArray fuel) .undefined) ↔
      ∃ id, diffArchive.metadata.lookup (str "endfileuid") = some id ∧
        (¬ FitsArray id ∨ id.length < UInt32.size ∧ ∃ mainPath text,
          diffArchive.metadata.lookup (str "mainaurl") = some mainPath ∧
          diffArchive.metadata.lookup (str "redirectlist") = some text ∧
          text.length < UInt32.size ∧ ¬ Even (text.count (char '\n'))) := by
  simp only [readLists, fails_bind, fails_getMetadata, false_or, Archive.returns_getMetadata,
    not_fails_readList, returns_readText, fails_pure, and_false, exists_false, or_false]
  constructor
  · rintro ⟨fuel, id, hid, huuid | ⟨array, huuid, mainPath, hmain, text, htext, rdlist, hlist, hpair⟩⟩
    · exact ⟨id, hid, Or.inl ((fails_readUuid id tempArray).mp ⟨fuel, huuid⟩)⟩
    · obtain ⟨hlength, -, rfl⟩ := hlist
      rw [fails_pairUp, length_textLines] at hpair
      exact ⟨id, hid, Or.inr ⟨(returns_readUuid_text huuid).1, mainPath, text, hmain, htext,
        hlength, hpair⟩⟩
  · rintro ⟨id, hid, h⟩
    by_cases hfits : FitsArray id
    · obtain ⟨hlength, mainPath, text, hmain, htext, htextLength, hpair⟩ :=
        h.resolve_left (not_not_intro hfits)
      rw [FitsArray, if_pos hlength] at hfits
      have hfuel : id.length < id.length + text.length + 1 := by omega
      obtain ⟨array, huuid⟩ := exists_returns_readUuid hlength hfits tempArray hfuel
      refine ⟨id.length + text.length + 1, id, hid, Or.inr ⟨array, huuid, mainPath, hmain, text,
        htext, textLines text, ⟨htextLength, by omega, rfl⟩, ?_⟩⟩
      rwa [fails_pairUp, length_textLines]
    · obtain ⟨fuel, huuid⟩ := (fails_readUuid id tempArray).mpr hfits
      exact ⟨fuel, id, hid, Or.inl huuid⟩

/-! ## The check -/

theorem returns_getData {archive : Archive} {path text : Bytes} :
    Returns (getData archive path) text ↔
      ∃ entry mimetype, archive.find path = some entry ∧ entry.kind = .item mimetype text := by
  simp only [getData, returns_bind, Archive.returns_getEntryByPath]
  constructor
  · rintro ⟨entry, hfind, htext⟩
    cases hkind : entry.kind with
    | item mimetype data =>
        rw [hkind, returns_pure] at htext
        exact ⟨entry, mimetype, hfind, htext ▸ hkind⟩
    | redirect target =>
        rw [hkind] at htext
        exact absurd htext returns_throw
  · rintro ⟨entry, mimetype, hfind, hkind⟩
    refine ⟨entry, hfind, ?_⟩
    rw [hkind]
    exact returns_pure.mpr rfl

theorem not_fails_getData {archive : Archive} {path : Bytes} :
    ¬ Fails (getData archive path) .undefined := by
  rw [getData, Archive.getEntryByPath, fails_bind]
  cases archive.find path with
  | none => simp
  | some entry =>
      obtain ⟨path', title, kind⟩ := entry
      cases kind with
      | item mimetype data => simp
      | redirect target => simp

/-- The comparison stays in both arrays. -/
theorem not_fails_compareByte (tempArray startfileUID1 : Uuid) {l : List Nat}
    (h : ∀ i ∈ l, i < 16) {compare : Bool} {e : Fault} :
    ¬ Fails (l.foldlM (compareByte tempArray startfileUID1) compare) e := by
  induction l generalizing compare with
  | nil => exact fails_pure
  | cons i l ih =>
      rw [List.forall_mem_cons] at h
      have hpass : ∃ compare', compareByte tempArray startfileUID1 compare i = pure compare' := by
        rw [compareByte, List.getElem?_eq_getElem (h.1.trans_eq tempArray.length_eq.symm),
          List.getElem?_eq_getElem (h.1.trans_eq startfileUID1.length_eq.symm)]
        exact ⟨_, rfl⟩
      obtain ⟨compare', hpass⟩ := hpass
      rw [List.foldlM_cons, hpass, pure_bind]
      exact ih h.2

theorem fails_copyString {array : Uuid} {e : CheckFault} :
    Fails (copyString array) e ↔ 0 ∉ array.data ∧ e = .unterminated := by
  rw [copyString]
  split_ifs with h
  · simp [h]
  · simp [h]

/-- The check fails in the loop over the text, or in the copy behind it. -/
theorem fails_checkDiffFile_iff {startArchive diffArchive : Archive} {tempArray : Uuid}
    {fuel : Nat} {e : CheckFault} (he : ∀ fault, .fault fault = e → fault = .undefined) :
    Fails (checkDiffFile startArchive diffArchive tempArray fuel) e ↔
      ∃ text, HasStartUid diffArchive text ∧
        ((∃ fault, Fails (readUuid text tempArray fuel) fault ∧ .fault fault = e) ∨
          ∃ array, Returns (readUuid text tempArray fuel) array ∧ 0 ∉ array.data ∧
            e = .unterminated) := by
  have hdata : ¬ ∃ fault, Fails (getData diffArchive (str "M/startfileuid")) fault ∧
      CheckFault.fault fault = e := by
    rintro ⟨fault, hfails, hfault⟩
    exact not_fails_getData (he fault hfault ▸ hfails)
  have hcompare : ∀ array : Uuid, ¬ ∃ fault, Fails ((List.range 16).foldlM
      (compareByte array startArchive.uuid) true) fault ∧ CheckFault.fault fault = e := by
    rintro array ⟨fault, hfails, -⟩
    exact not_fails_compareByte array startArchive.uuid (fun i hi => List.mem_range.mp hi) hfails
  rw [checkDiffFile]
  split_ifs with hall
  · simp only [fails_bind, fails_adapt, returns_adapt, fails_copyString, hdata, hcompare, false_or,
      and_false, exists_false, or_false, returns_getData, HasStartUid, hall, true_and]
  · exact iff_of_false fails_pure fun ⟨_, hstart, _⟩ => hall hstart.1

theorem fails_checkDiffFile (startArchive diffArchive : Archive) (tempArray : Uuid) :
    (∃ fuel, Fails (checkDiffFile startArchive diffArchive tempArray fuel) (.fault .undefined)) ↔
      ∃ text, HasStartUid diffArchive text ∧ ¬ FitsArray text := by
  simp only [fails_checkDiffFile_iff fun _ => CheckFault.fault.inj, CheckFault.fault.injEq,
    exists_eq_right, reduceCtorEq, and_false, exists_false, or_false, ← fails_readUuid _ tempArray]
  constructor
  · rintro ⟨fuel, text, hstart, hfails⟩
    exact ⟨text, hstart, fuel, hfails⟩
  · rintro ⟨text, hstart, fuel, hfails⟩
    exact ⟨fuel, text, hstart, hfails⟩

theorem unterminated_checkDiffFile (startArchive diffArchive : Archive) (tempArray : Uuid) :
    (∃ fuel, Fails (checkDiffFile startArchive diffArchive tempArray fuel) .unterminated) ↔
      ∃ text, HasStartUid diffArchive text ∧ text.length < UInt32.size ∧
        text.count (char '\n') ≤ 16 ∧ ¬ EndsIn tempArray text := by
  have he : ∀ fault, CheckFault.fault fault = .unterminated → fault = .undefined := fun _ h =>
    absurd h (by simp)
  simp only [fails_checkDiffFile_iff he, reduceCtorEq, and_false, exists_false, false_or, and_true]
  constructor
  · rintro ⟨fuel, text, hstart, array, hreturns, hzero⟩
    obtain ⟨hlength, hcount, hends⟩ := returns_readUuid_text hreturns
    exact ⟨text, hstart, hlength, hcount, hends.not.mp hzero⟩
  · rintro ⟨text, hstart, hlength, hcount, hends⟩
    obtain ⟨array, hreturns⟩ :=
      exists_returns_readUuid hlength hcount tempArray (Nat.lt_succ_self _)
    obtain ⟨-, -, hzero⟩ := returns_readUuid_text hreturns
    exact ⟨text.length + 1, text, hstart, array, hreturns, hzero.not.mpr hends⟩

/-! ## Accesses in range -/

/-- The check and the patch index in range exactly when the texts of the diff
keep to the array and to pairs, and the copy of the array ends in it exactly when
one of its bytes is zero. -/
theorem inBounds_iff (startArchive diffArchive : Archive) (uuid checkArray createArray : Uuid) :
    (∀ fuel, create startArchive diffArchive uuid createArray fuel =
      readLists startArchive diffArchive uuid createArray fuel >>=
        createFrom startArchive diffArchive fuel) ∧
    (((∀ fuel, ¬ Fails (checkDiffFile startArchive diffArchive checkArray fuel)
        (.fault .undefined)) ∧
      ∀ fuel, ¬ Fails (readLists startArchive diffArchive uuid createArray fuel) .undefined) ↔
        InBounds diffArchive) ∧
      ((∀ fuel, ¬ Fails (checkDiffFile startArchive diffArchive checkArray fuel) .unterminated) ↔
        ∀ text, HasStartUid diffArchive text → text.length < UInt32.size →
          text.count (char '\n') ≤ 16 → EndsIn checkArray text) := by
  simp only [← not_exists, fails_checkDiffFile, fails_readLists, unterminated_checkDiffFile]
  refine ⟨fun fuel => create_eq .., ?_, ?_⟩
  · constructor
    · rintro ⟨hcheck, hcreate⟩
      refine ⟨fun text hstart => ?_, fun id hid => ?_,
        fun id mainPath text hid hlength hmain htext htextLength => ?_⟩
      · by_contra hfits
        exact hcheck ⟨text, hstart, hfits⟩
      · by_contra hfits
        exact hcreate ⟨id, hid, Or.inl hfits⟩
      · by_contra hpair
        exact hcreate ⟨id, hid, Or.inr ⟨hlength, mainPath, text, hmain, htext, htextLength, hpair⟩⟩
    · rintro ⟨hstartfileuid, hendfileuid, hredirectlist⟩
      constructor
      · rintro ⟨text, hstart, hfits⟩
        exact hfits (hstartfileuid text hstart)
      · rintro ⟨id, hid, hfits | ⟨hlength, mainPath, text, hmain, htext, htextLength, hpair⟩⟩
        · exact hfits (hendfileuid id hid)
        · exact hpair (hredirectlist id mainPath text hid hlength hmain htext htextLength)
  · constructor
    · intro hcheck text hstart hlength hcount
      by_contra hends
      exact hcheck ⟨text, hstart, hlength, hcount, hends⟩
    · rintro hends ⟨text, hstart, hlength, hcount, hnot⟩
      exact hnot (hends text hstart hlength hcount)

/-- A UUID of zeros. -/
def zeros : Uuid := ⟨List.replicate 16 0, List.length_replicate⟩

/-- A diff for the UUID of zeros whose redirect list has one line. -/
def oddDiff : Archive where
  entries := additionalMetadata.map fun path =>
    ⟨path, [], .item (str "text/plain") (if path = str "M/redirectlist" then str "a\n" else
      if path = str "M/startfileuid" ∨ path = str "M/endfileuid" then unlines (uidLines zeros)
      else [])⟩
  nodup := by decide
  count_lt := by decide
  metadata := [(str "dlist", []), (str "startfileuid", unlines (uidLines zeros)),
    (str "endfileuid", unlines (uidLines zeros)), (str "mainaurl", []), (str "layoutaurl", []),
    (str "redirectlist", str "a\n")]
  uuid := zeros
  mainPath := none

/-- The check of a diff passes, and then the patch takes the partner of a line that has none. -/
theorem oddDiff_out_of_bounds :
    Returns (checkDiffFile oddDiff oddDiff zeros 100) true ∧
      Fails (readLists oddDiff oddDiff zeros zeros 100) .undefined ∧
      Fails (create oddDiff oddDiff zeros zeros 100) .undefined :=
  ⟨rfl, rfl, rfl⟩

end ZimTools.Incremental.Zimpatch
