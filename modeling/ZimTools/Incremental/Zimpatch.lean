import ZimTools.Incremental.Lines

/-!
# Patches

`create` of `zimpatch`.  It reads the lists of the diff from its metadata and
makes an archive in two loops.  The first takes the entries of the start archive
that are not deleted, each from the diff where the diff has it.  The second
takes the entries of the diff that the start archive does not have.  What the
redirect list names becomes a redirect in both.

Every function has a lemma that says when it returns, and what.
-/

namespace ZimTools.Incremental.Zimpatch

open Loop

/-! ## The program -/

def isAdditionalMetadata (url : Bytes) : Bool :=
  url = str "M/dlist" || url = str "M/startfileuid" || url = str "M/endfileuid" ||
    url = str "M/mainaurl" || url = str "M/layoutaurl" || url = str "M/redirectlist"

/-- `tempArray[k] = (char) atoi(temp.c_str())` and `k++`, for an array of 16. -/
def setByte (state : Nat × Uuid) (temp : Bytes) : Except Fault (Nat × Uuid) :=
  if state.1 < 16 then .ok (state.1 + 1, state.2.set state.1 (intToChar (atoi temp)))
  else .error .undefined

/-- The UUID of the text `id`.  `tempArray` is not initialised. -/
def readUuid (id : Bytes) (tempArray : Uuid) (fuel : Nat) : Program Uuid := do
  let state ← scanLines id setByte fuel (0, tempArray)
  pure state.2

def readList (text : Bytes) (fuel : Nat) : Program (List Bytes) :=
  scanLines text (fun list tmp => .ok (list ++ [tmp])) fuel []

/-- `redirectList[rdlist[i]] = rdlist[i+1]`, for every other `i`.  The list is
shorter than the text it was read from, so that `i` does not wrap. -/
def pairUp : List Bytes → List (Bytes × Bytes) → Program (List (Bytes × Bytes))
  | [], redirectList => pure redirectList
  | [_], _ => throw .undefined
  | url :: target :: rdlist, redirectList => pairUp rdlist ((url, target) :: redirectList)

/-- `dlist[index] = 1`, for the index of each deleted path. -/
def markDeleted (startArchive : Archive) (deleteList : List Bytes) (dlist : List Nat) :
    Program (List Nat) :=
  deleteList.foldlM (fun dlist url => do
    let index ← startArchive.getIndex url
    if index < dlist.length then pure (dlist.set index 1) else throw .undefined) dlist

/-- What both loops do with an entry of `archive`. -/
def addEntry (redirectList : List (Bytes × Bytes)) (archive : Archive) (zimCreator : Creator)
    (entry : Entry) : Program Creator :=
  match redirectList.lookup entry.path with
  | some redirectPath => pure (zimCreator.addRedirection entry.path entry.title redirectPath)
  | none => zimCreator.copyEntry archive entry

/-- A pass of the loop over the start archive. -/
def addStart (startArchive diffArchive : Archive) (redirectList : List (Bytes × Bytes))
    (dlist : List Nat) (zimCreator : Creator) (entry : Entry × Nat) : Program Creator :=
  match dlist[entry.2]? with
  | none => throw .undefined
  | some deleted =>
      if deleted = 1 then pure zimCreator
      else
        match diffArchive.find entry.1.path with
        | some entry => addEntry redirectList diffArchive zimCreator entry
        | none => addEntry redirectList startArchive zimCreator entry.1

/-- A pass of the loop over the diff. -/
def addNew (startArchive diffArchive : Archive) (redirectList : List (Bytes × Bytes))
    (zimCreator : Creator) (entry : Entry) : Program Creator :=
  if startArchive.hasEntryByPath entry.path || isAdditionalMetadata entry.path then
    pure zimCreator
  else addEntry redirectList diffArchive zimCreator entry

/-- `create` up to the redirect list. -/
def readLists (startArchive diffArchive : Archive) (uuid tempArray : Uuid) (fuel : Nat) :
    Program (Creator × List (Bytes × Bytes)) := do
  let zimCreator := Creator.startZimCreation uuid
  let id ← diffArchive.getMetadata (str "endfileuid")
  let fileUuid ← readUuid id tempArray fuel
  let zimCreator := zimCreator.setUuid fileUuid
  let mainPath ← diffArchive.getMetadata (str "mainaurl")
  let zimCreator :=
    if diffArchive.hasEntryByPath mainPath || startArchive.hasEntryByPath mainPath then
      zimCreator.setMainPath mainPath
    else zimCreator
  let tempString ← diffArchive.getMetadata (str "redirectlist")
  let rdlist ← readList tempString fuel
  let redirectList ← pairUp rdlist []
  pure (zimCreator, redirectList)

/-- `create` from the delete list on, up to the end of the creation.  The loops
count with an `unsigned int`, as does `getEntryCount`. -/
def addEntries (startArchive diffArchive : Archive) (fuel : Nat)
    (lists : Creator × List (Bytes × Bytes)) : Program Creator := do
  let (zimCreator, redirectList) := lists
  let dllist ← diffArchive.getMetadata (str "dlist")
  let deleteList ← readList dllist fuel
  let dlist := List.replicate
    ((startArchive.getEntryCount + diffArchive.getEntryCount) % UInt32.size) 0
  let dlist ← markDeleted startArchive deleteList dlist
  let zimCreator ← startArchive.entries.zipIdx.foldlM
    (addStart startArchive diffArchive redirectList dlist) zimCreator
  diffArchive.entries.foldlM (addNew startArchive diffArchive redirectList) zimCreator

/-- `create` up to the end of the creation. -/
def fill (startArchive diffArchive : Archive) (uuid tempArray : Uuid) (fuel : Nat) :
    Program Creator :=
  readLists startArchive diffArchive uuid tempArray fuel >>=
    addEntries startArchive diffArchive fuel

def create (startArchive diffArchive : Archive) (uuid tempArray : Uuid) (fuel : Nat) :
    Program Archive :=
  fill startArchive diffArchive uuid tempArray fuel >>= Creator.finishZimCreation

/-! ## Reading -/

theorem returns_readText {text : Bytes} {fuel : Nat} {r : List Bytes} :
    Returns (readList text fuel) r ↔
      text.length < UInt32.size ∧ text.length < fuel ∧ r = textLines text := by
  have hfold (l list : List Bytes) :
      l.foldlM (fun list tmp => Except.ok (list ++ [tmp])) list =
        (.ok (list ++ l) : Except Fault (List Bytes)) := by
    induction l generalizing list with
    | nil => simp [pure, Except.pure]
    | cons line l ih => exact (ih (list ++ [line])).trans (by simp)
  rw [readList, returns_scanText, hfold, List.nil_append, Except.ok.injEq, eq_comm (b := r)]

theorem returns_readList {lines : List Bytes} (h : ∀ line ∈ lines, char '\n' ∉ line)
    {fuel : Nat} {r : List Bytes} :
    Returns (readList (unlines lines) fuel) r ↔
      (unlines lines).length < UInt32.size ∧ (unlines lines).length < fuel ∧ r = lines := by
  rw [returns_readText, textLines_unlines h]

/-- The bytes behind those that are set are replaced one by one. -/
theorem foldlM_setByte (lines : List Bytes) : ∀ (done rest : Bytes) (array : Uuid),
    array.data = done ++ rest → lines.length ≤ rest.length →
      ∃ array', lines.foldlM setByte (done.length, array) =
          .ok (done.length + lines.length, array') ∧
        array'.data = done ++ lines.map (fun line => intToChar (atoi line)) ++
          rest.drop lines.length := by
  induction lines with
  | nil => exact fun done rest array hdata _ => ⟨array, rfl, by simpa using hdata⟩
  | cons line lines ih =>
      intro done rest array hdata hle
      cases rest with
      | nil => simp at hle
      | cons x rest =>
          have hset : (array.set done.length (intToChar (atoi line))).data =
              (done ++ [intToChar (atoi line)]) ++ rest := by
            simp [Uuid.set, hdata]
          obtain ⟨array', hfold, hdata'⟩ := ih _ rest _ hset (by simpa using hle)
          have hlength : done.length < 16 := by
            rw [← array.length_eq, hdata]
            simp
          rw [List.length_append, List.length_singleton] at hfold
          refine ⟨array', ?_, by simpa using hdata'⟩
          rw [List.foldlM_cons, setByte, if_pos hlength, List.length_cons,
            Nat.add_comm lines.length, ← Nat.add_assoc]
          exact hfold

/-- The UUID is read back, whatever the array was before. -/
theorem returns_readUuid {uuid tempArray r : Uuid} {fuel : Nat} :
    Returns (readUuid (unlines (uidLines uuid)) tempArray fuel) r ↔
      (unlines (uidLines uuid)).length < fuel ∧ r = uuid := by
  have hlines : (uidLines uuid).length = 16 := by rw [uidLines, List.length_map, uuid.length_eq]
  have hbytes : (uidLines uuid).map (fun line => intToChar (atoi line)) = uuid.data := by
    rw [uidLines, List.map_map]
    exact (List.map_congr_left fun c _ => intToChar_atoi c).trans (List.map_id' _)
  obtain ⟨array, hfold, hdata⟩ := foldlM_setByte (uidLines uuid) [] tempArray.data tempArray rfl
    (by rw [hlines, tempArray.length_eq])
  have huuid : array = uuid := by
    rw [hbytes, List.drop_of_length_le (by rw [hlines, tempArray.length_eq])] at hdata
    exact Uuid.ext (by simpa using hdata)
  rw [huuid, hlines] at hfold
  change (uidLines uuid).foldlM setByte (0, tempArray) = .ok (16, uuid) at hfold
  have hlength := length_uidLines uuid
  simp only [readUuid, returns_bind, returns_scanLines (newline_notMem_uidLines uuid),
    returns_pure, hfold, Except.ok.injEq]
  constructor
  · rintro ⟨_, ⟨-, hfuel, rfl⟩, rfl⟩
    exact ⟨hfuel, rfl⟩
  · rintro ⟨hfuel, rfl⟩
    exact ⟨_, ⟨Nat.lt_of_le_of_lt hlength (by decide), hfuel, rfl⟩, rfl⟩

/-! ## The lists -/

/-- The redirect list with the entries of an archive, the later ones before. -/
def pairs (entries : List Entry) (redirectList : List (Bytes × Bytes)) : List (Bytes × Bytes) :=
  entries.foldl (fun redirectList entry =>
    match entry.kind with
    | .item .. => redirectList
    | .redirect target => (entry.path, target) :: redirectList) redirectList

theorem returns_pairUp {entries : List Entry} : ∀ {redirectList r : List (Bytes × Bytes)},
    Returns (pairUp (entries.flatMap redirectLines) redirectList) r ↔
      r = pairs entries redirectList := by
  induction entries with
  | nil => simp [pairUp, pairs]
  | cons entry entries ih =>
      intro redirectList r
      obtain ⟨path, title, kind⟩ := entry
      cases kind with
      | item mimetype data => exact ih
      | redirect target => exact ih

/-- The redirect list gives the targets of the redirects. -/
theorem lookup_pairs (path : Bytes) : ∀ {entries : List Entry}
    (redirectList : List (Bytes × Bytes)), (entries.map Entry.path).Nodup →
      (pairs entries redirectList).lookup path =
        ((entries.find? (·.path == path)).bind Entry.redirectTarget).or
          (redirectList.lookup path)
  | [], redirectList, _ => rfl
  | ⟨path', title, kind⟩ :: entries, redirectList, h => by
      rw [List.map_cons, List.nodup_cons] at h
      have ih (redirectList : List (Bytes × Bytes)) :=
        lookup_pairs path redirectList h.2
      by_cases hpath : path' = path
      · subst hpath
        have hrest : entries.find? (·.path == path') = none := by
          rw [List.find?_eq_none]
          exact fun entry hentry heq =>
            h.1 (List.mem_map.mpr ⟨entry, hentry, by simpa using heq⟩)
        cases kind with
        | item mimetype data =>
            refine (ih redirectList).trans ?_
            simp [hrest, Entry.redirectTarget]
        | redirect target =>
            refine (ih ((path', target) :: redirectList)).trans ?_
            simp [hrest, Entry.redirectTarget]
      · have hfind : (⟨path', title, kind⟩ :: entries).find? (·.path == path) =
            entries.find? (·.path == path) := List.find?_cons_of_neg (by simpa using hpath)
        rw [hfind]
        cases kind with
        | item mimetype data => exact ih redirectList
        | redirect target =>
            refine (ih ((path', target) :: redirectList)).trans ?_
            rw [List.lookup_cons, beq_false_of_ne (Ne.symm hpath)]

theorem returns_markDeleted {startArchive : Archive} {deleteList : List Bytes}
    {dlist r : List Nat} :
    Returns (markDeleted startArchive deleteList dlist) r ↔
      (∀ url ∈ deleteList, ∃ index, startArchive.index url = some index ∧ index < dlist.length) ∧
        r = deleteList.foldl (fun dlist url => dlist.set ((startArchive.index url).getD 0) 1)
          dlist := by
  refine returns_foldlM (fun d => d.length = dlist.length) (fun d url h => by
    rw [List.length_set, h]) rfl fun url _ d r hd => ?_
  simp only [returns_bind, Archive.returns_getIndex]
  constructor
  · rintro ⟨index, hindex, hr⟩
    split at hr
    · rename_i hlt
      exact ⟨⟨index, hindex, hd ▸ hlt⟩, by simpa [hindex] using hr⟩
    · simp at hr
  · rintro ⟨⟨index, hindex, hlt⟩, rfl⟩
    exact ⟨index, hindex, by rw [if_pos (hd ▸ hlt)]; simp [hindex]⟩

/-- What is marked for an entry says whether its path is on the list. -/
theorem getElem?_marked {startArchive : Archive} {i : Nat} {entry : Entry}
    (hentry : startArchive.entries[i]? = some entry) {deleteList : List Bytes}
    (hmem : ∀ url ∈ deleteList, startArchive.index url ≠ none) {dlist : List Nat} {v : Nat}
    (hv : dlist[i]? = some v) :
    (deleteList.foldl (fun dlist url => dlist.set ((startArchive.index url).getD 0) 1)
      dlist)[i]? = some (if entry.path ∈ deleteList then 1 else v) := by
  induction deleteList generalizing dlist v with
  | nil => simpa using hv
  | cons url deleteList ih =>
      rw [List.forall_mem_cons] at hmem
      obtain ⟨index, hindex⟩ := Option.ne_none_iff_exists'.mp hmem.1
      have hset : (dlist.set index 1)[i]? = some (if entry.path = url then 1 else v) := by
        by_cases hurl : entry.path = url
        · have hi : index = i := by
            rw [← hurl, (Archive.index_eq_some_iff).mpr ⟨entry, hentry, rfl⟩] at hindex
            exact (Option.some.inj hindex).symm
          rw [if_pos hurl, hi, List.getElem?_set_self (List.getElem?_eq_some_iff.mp hv).1]
        · have hi : index ≠ i := by
            rintro rfl
            obtain ⟨entry', hentry', rfl⟩ := Archive.index_eq_some_iff.mp hindex
            rw [hentry] at hentry'
            exact hurl (by rw [Option.some.inj hentry'])
          rw [if_neg hurl, List.getElem?_set_ne hi, hv]
      rw [List.foldl_cons, hindex, Option.getD_some, ih hmem.2 hset]
      by_cases hrest : entry.path ∈ deleteList <;> simp [hrest]

/-! ## The loops -/

/-- What is added for an entry. -/
def redirected (redirectList : List (Bytes × Bytes)) (entry : Entry) : Entry :=
  match redirectList.lookup entry.path with
  | some target => { entry with kind := .redirect target }
  | none => entry

@[simp] theorem redirected_path (redirectList : List (Bytes × Bytes)) (entry : Entry) :
    (redirected redirectList entry).path = entry.path := by
  rw [redirected]
  split <;> rfl

theorem returns_addEntry {redirectList : List (Bytes × Bytes)} {archive : Archive}
    {zimCreator r : Creator} {entry : Entry} :
    Returns (addEntry redirectList archive zimCreator entry) r ↔
      (redirectList.lookup entry.path = none → archive.Copyable entry) ∧
        r = zimCreator.addAll [redirected redirectList entry] := by
  rw [addEntry, redirected]
  cases redirectList.lookup entry.path with
  | none => simp [Creator.returns_copyEntry]
  | some target => simp [Creator.addRedirection, Creator.addAll]

/-- The archive that the loop over the start archive takes an entry from, and
the entry there. -/
def source (startArchive diffArchive : Archive) (entry : Entry) : Archive × Entry :=
  match diffArchive.find entry.path with
  | some entry => (diffArchive, entry)
  | none => (startArchive, entry)

theorem source_path (startArchive diffArchive : Archive) (entry : Entry) :
    (source startArchive diffArchive entry).2.path = entry.path := by
  rw [source]
  split
  · rename_i entry' h
    exact Archive.find_path h
  · rfl

theorem returns_addStart {startArchive diffArchive : Archive}
    {redirectList : List (Bytes × Bytes)} {dlist : List Nat} {deleted : Prop} [Decidable deleted]
    {zimCreator r : Creator} {entry : Entry × Nat}
    (h : dlist[entry.2]? = some (if deleted then 1 else 0)) :
    Returns (addStart startArchive diffArchive redirectList dlist zimCreator entry) r ↔
      (¬ deleted → redirectList.lookup entry.1.path = none →
        (source startArchive diffArchive entry.1).1.Copyable
          (source startArchive diffArchive entry.1).2) ∧
      r = zimCreator.addAll (if deleted then none else
        some (redirected redirectList (source startArchive diffArchive entry.1).2)).toList := by
  rw [addStart, h]
  by_cases hdeleted : deleted
  · simp [hdeleted]
  · have hpath := source_path startArchive diffArchive entry.1
    have hadd : (match diffArchive.find entry.1.path with
        | some entry => addEntry redirectList diffArchive zimCreator entry
        | none => addEntry redirectList startArchive zimCreator entry.1) =
        addEntry redirectList (source startArchive diffArchive entry.1).1 zimCreator
          (source startArchive diffArchive entry.1).2 := by
      rw [source]
      cases diffArchive.find entry.1.path <;> rfl
    simp only [hdeleted, if_false, Nat.zero_ne_one, not_false_eq_true, forall_const,
      Option.toList_some]
    rw [hadd, returns_addEntry, hpath]

theorem returns_addNew {startArchive diffArchive : Archive} {redirectList : List (Bytes × Bytes)}
    {zimCreator r : Creator} {entry : Entry} :
    Returns (addNew startArchive diffArchive redirectList zimCreator entry) r ↔
      (startArchive.hasEntryByPath entry.path = false → isAdditionalMetadata entry.path = false →
        redirectList.lookup entry.path = none → diffArchive.Copyable entry) ∧
      r = zimCreator.addAll (if startArchive.hasEntryByPath entry.path ||
        isAdditionalMetadata entry.path then none else
          some (redirected redirectList entry)).toList := by
  rw [addNew]
  by_cases h : (startArchive.hasEntryByPath entry.path || isAdditionalMetadata entry.path) = true
  · rw [if_pos h, if_pos h]
    rw [Bool.or_eq_true] at h
    rcases h with h | h <;> simp [h]
  · rw [if_neg h, if_neg h, returns_addEntry]
    rw [Bool.or_eq_true, not_or, Bool.not_eq_true, Bool.not_eq_true] at h
    simp [h]

/-- The loop over the start archive looks at a mark for each of its entries. -/
theorem length_le_of_returns {startArchive diffArchive : Archive}
    {redirectList : List (Bytes × Bytes)} {dlist : List Nat} {zimCreator r : Creator}
    (h : Returns (startArchive.entries.zipIdx.foldlM
      (addStart startArchive diffArchive redirectList dlist) zimCreator) r) :
    startArchive.entries.length ≤ dlist.length := by
  by_contra hlt
  have hi : dlist.length < startArchive.entries.length := by omega
  obtain ⟨s, s', hpass⟩ := h.exists_pass (startArchive.entries[dlist.length], dlist.length)
    (List.mem_zipIdx_iff_getElem?.mpr (List.getElem?_eq_getElem hi))
  rw [addStart, List.getElem?_eq_none (Nat.le_refl _)] at hpass
  simp at hpass

/-- What the loop over the start archive adds. -/
def kept (startArchive diffArchive : Archive) (redirectList : List (Bytes × Bytes))
    (deleteList : List Bytes) : List Entry :=
  startArchive.entries.filterMap fun entry =>
    if entry.path ∈ deleteList then none
    else some (redirected redirectList (source startArchive diffArchive entry).2)

/-- Every entry that is kept and not redirected can be copied. -/
def KeptCopyable (startArchive diffArchive : Archive) (redirectList : List (Bytes × Bytes))
    (deleteList : List Bytes) : Prop :=
  ∀ entry ∈ startArchive.entries, entry.path ∉ deleteList → redirectList.lookup entry.path = none →
    (source startArchive diffArchive entry).1.Copyable (source startArchive diffArchive entry).2

theorem returns_startLoop_marked {startArchive diffArchive : Archive}
    {redirectList : List (Bytes × Bytes)} {deleteList : List Bytes} {dlist : List Nat}
    {zimCreator r : Creator}
    (hmarked : ∀ entry ∈ startArchive.entries.zipIdx,
      dlist[entry.2]? = some (if entry.1.path ∈ deleteList then 1 else 0)) :
    Returns (startArchive.entries.zipIdx.foldlM
        (addStart startArchive diffArchive redirectList dlist) zimCreator) r ↔
      KeptCopyable startArchive diffArchive redirectList deleteList ∧
        r = zimCreator.addAll (kept startArchive diffArchive redirectList deleteList) := by
  rw [Creator.returns_foldlM_addAll
    (P := fun entry : Entry × Nat => entry.1.path ∉ deleteList →
      redirectList.lookup entry.1.path = none →
        (source startArchive diffArchive entry.1).1.Copyable
          (source startArchive diffArchive entry.1).2)
    (h := fun entry => if entry.1.path ∈ deleteList then none else
      some (redirected redirectList (source startArchive diffArchive entry.1).2))
    fun entry hentry _ _ => returns_addStart (hmarked entry hentry), KeptCopyable, kept]
  conv_rhs => rw [← List.zipIdx_map_fst 0 startArchive.entries]
  rw [List.forall_mem_map, List.filterMap_map]
  rfl

/-- The marks and the loop over the start archive together, for a vector of `n`
marks. -/
theorem returns_startLoop {startArchive diffArchive : Archive}
    {redirectList : List (Bytes × Bytes)} {deleteList : List Bytes} {n : Nat}
    (zimCreator : Creator) {r : Creator} (hmem : ∀ url ∈ deleteList, startArchive.index url ≠ none) :
    (∃ dlist, Returns (markDeleted startArchive deleteList (List.replicate n 0)) dlist ∧
        Returns (startArchive.entries.zipIdx.foldlM
          (addStart startArchive diffArchive redirectList dlist) zimCreator) r) ↔
      startArchive.entries.length ≤ n ∧
        KeptCopyable startArchive diffArchive redirectList deleteList ∧
        r = zimCreator.addAll (kept startArchive diffArchive redirectList deleteList) := by
  let mark (dlist : List Nat) (url : Bytes) := dlist.set ((startArchive.index url).getD 0) 1
  have hlength (l : List Bytes) (d : List Nat) : (l.foldl mark d).length = d.length := by
    induction l generalizing d with
    | nil => rfl
    | cons url l ih => exact (ih _).trans (List.length_set ..)
  have hmarked (hn : startArchive.entries.length ≤ n) : ∀ entry ∈ startArchive.entries.zipIdx,
      (deleteList.foldl mark (List.replicate n 0))[entry.2]? =
        some (if entry.1.path ∈ deleteList then 1 else 0) := by
    intro entry hentry
    have hget := List.mem_zipIdx_iff_getElem?.mp hentry
    have hi := (List.getElem?_eq_some_iff.mp hget).1
    exact getElem?_marked hget hmem (by rw [List.getElem?_replicate, if_pos (by omega)])
  simp only [returns_markDeleted, List.length_replicate]
  constructor
  · rintro ⟨dlist, ⟨-, rfl⟩, hr⟩
    have hn := length_le_of_returns hr
    rw [hlength, List.length_replicate] at hn
    exact ⟨hn, (returns_startLoop_marked (hmarked hn)).mp hr⟩
  · rintro ⟨hn, hr⟩
    refine ⟨_, ⟨fun url hurl => ?_, rfl⟩, (returns_startLoop_marked (hmarked hn)).mpr hr⟩
    obtain ⟨index, hindex⟩ := Option.ne_none_iff_exists'.mp (hmem url hurl)
    obtain ⟨entry, hentry, -⟩ := Archive.index_eq_some_iff.mp hindex
    have hi := (List.getElem?_eq_some_iff.mp hentry).1
    exact ⟨index, hindex, by omega⟩

/-- What the loop over the diff adds. -/
def added (startArchive diffArchive : Archive) (redirectList : List (Bytes × Bytes)) :
    List Entry :=
  diffArchive.entries.filterMap fun entry =>
    if startArchive.hasEntryByPath entry.path || isAdditionalMetadata entry.path then none
    else some (redirected redirectList entry)

/-- Every entry that is added and not redirected can be copied. -/
def AddedCopyable (startArchive diffArchive : Archive) (redirectList : List (Bytes × Bytes)) :
    Prop :=
  ∀ entry ∈ diffArchive.entries, startArchive.hasEntryByPath entry.path = false →
    isAdditionalMetadata entry.path = false → redirectList.lookup entry.path = none →
      diffArchive.Copyable entry

theorem returns_diffLoop {startArchive diffArchive : Archive}
    {redirectList : List (Bytes × Bytes)} {zimCreator r : Creator} :
    Returns (diffArchive.entries.foldlM
        (addNew startArchive diffArchive redirectList) zimCreator) r ↔
      AddedCopyable startArchive diffArchive redirectList ∧
        r = zimCreator.addAll (added startArchive diffArchive redirectList) :=
  Creator.returns_foldlM_addAll fun _ _ _ _ => returns_addNew

/-! ## The run -/

/-- What a diff says in its metadata, in the lists it was written from. -/
structure Describes (diffArchive : Archive) (uuid : Uuid) (mainPath : Bytes)
    (redirects : List Entry) (deleteList : List Bytes) : Prop where
  endfileuid : diffArchive.metadata.lookup (str "endfileuid") = some (unlines (uidLines uuid))
  mainaurl : diffArchive.metadata.lookup (str "mainaurl") = some mainPath
  redirectlist : diffArchive.metadata.lookup (str "redirectlist") =
    some (unlines (redirects.flatMap redirectLines))
  dlist : diffArchive.metadata.lookup (str "dlist") = some (unlines deleteList)
  redirects_lines : ∀ line ∈ redirects.flatMap redirectLines, char '\n' ∉ line
  deleteList_lines : ∀ line ∈ deleteList, char '\n' ∉ line

/-- What the creator is given in all. -/
def outCreator (startArchive diffArchive : Archive) (uuid : Uuid) (mainPath : Bytes)
    (redirectList : List (Bytes × Bytes)) (deleteList : List Bytes) : Creator where
  entries := kept startArchive diffArchive redirectList deleteList ++
    added startArchive diffArchive redirectList
  metadata := []
  uuid := uuid
  mainPath :=
    if diffArchive.hasEntryByPath mainPath || startArchive.hasEntryByPath mainPath then
      some mainPath
    else none

/-- Everything is added when both texts can be read, the vector has a mark for
every entry of the start archive, and all copies succeed. -/
theorem returns_fill {startArchive diffArchive : Archive} {uuid : Uuid} {mainPath : Bytes}
    {redirects : List Entry} {deleteList : List Bytes} (uuid' tempArray : Uuid) (fuel : Nat)
    {r : Creator} (h : Describes diffArchive uuid mainPath redirects deleteList)
    (hmem : ∀ url ∈ deleteList, startArchive.index url ≠ none) :
    Returns (fill startArchive diffArchive uuid' tempArray fuel) r ↔
      (unlines (uidLines uuid)).length < fuel ∧
      (unlines (redirects.flatMap redirectLines)).length < UInt32.size ∧
      (unlines (redirects.flatMap redirectLines)).length < fuel ∧
      (unlines deleteList).length < UInt32.size ∧
      (unlines deleteList).length < fuel ∧
      startArchive.entries.length ≤
        (startArchive.entries.length + diffArchive.entries.length) % UInt32.size ∧
      KeptCopyable startArchive diffArchive (pairs redirects []) deleteList ∧
      AddedCopyable startArchive diffArchive (pairs redirects []) ∧
      r = outCreator startArchive diffArchive uuid mainPath (pairs redirects []) deleteList := by
  let zimCreator := (Creator.startZimCreation uuid').setUuid uuid
  let zimCreator' :=
    if diffArchive.hasEntryByPath mainPath || startArchive.hasEntryByPath mainPath then
      zimCreator.setMainPath mainPath
    else zimCreator
  have hcreator : (zimCreator'.addAll (kept startArchive diffArchive (pairs redirects [])
      deleteList)).addAll (added startArchive diffArchive (pairs redirects [])) =
      outCreator startArchive diffArchive uuid mainPath (pairs redirects []) deleteList := by
    rw [Creator.addAll_addAll]
    dsimp only [zimCreator', zimCreator, outCreator, Creator.addAll]
    split <;> rfl
  simp only [fill, readLists, addEntries, returns_bind, returns_pure, Archive.returns_getMetadata, h.endfileuid, h.mainaurl,
    h.redirectlist, h.dlist, Option.some.injEq, exists_eq_left', returns_readUuid,
    returns_readList h.redirects_lines, returns_readList h.deleteList_lines, returns_pairUp,
    returns_diffLoop, and_assoc, exists_and_left, exists_eq_left]
  refine and_congr_right fun _ => and_congr_right fun _ => and_congr_right fun _ =>
    and_congr_right fun _ => and_congr_right fun _ => ?_
  constructor
  · rintro ⟨dlist, hmark, zimCreator'', hloop, hadded, rfl⟩
    obtain ⟨hlength, hkept, rfl⟩ := (returns_startLoop _ hmem).mp ⟨dlist, hmark, hloop⟩
    exact ⟨hlength, hkept, hadded, hcreator⟩
  · rintro ⟨hlength, hkept, hadded, rfl⟩
    obtain ⟨dlist, hmark, hloop⟩ := (returns_startLoop zimCreator' hmem).mpr
      ⟨hlength, hkept, rfl⟩
    exact ⟨dlist, hmark, _, hloop, hadded, hcreator.symm⟩

/-- The run returns when everything was added and no path twice. -/
theorem returns_create {startArchive diffArchive : Archive} {uuid : Uuid} {mainPath : Bytes}
    {redirects : List Entry} {deleteList : List Bytes} (uuid' tempArray : Uuid) (fuel : Nat)
    {r : Archive} (h : Describes diffArchive uuid mainPath redirects deleteList)
    (hmem : ∀ url ∈ deleteList, startArchive.index url ≠ none) :
    Returns (create startArchive diffArchive uuid' tempArray fuel) r ↔
      (unlines (uidLines uuid)).length < fuel ∧
      (unlines (redirects.flatMap redirectLines)).length < UInt32.size ∧
      (unlines (redirects.flatMap redirectLines)).length < fuel ∧
      (unlines deleteList).length < UInt32.size ∧
      (unlines deleteList).length < fuel ∧
      startArchive.entries.length ≤
        (startArchive.entries.length + diffArchive.entries.length) % UInt32.size ∧
      KeptCopyable startArchive diffArchive (pairs redirects []) deleteList ∧
      AddedCopyable startArchive diffArchive (pairs redirects []) ∧
      ∃ nodup count_lt, r = (outCreator startArchive diffArchive uuid mainPath
        (pairs redirects []) deleteList).toArchive nodup count_lt := by
  simp only [create, returns_bind, returns_fill uuid' tempArray fuel h hmem,
    Creator.returns_finishZimCreation]
  constructor
  · rintro ⟨zimCreator, ⟨h1, h2, h3, h4, h5, h6, h7, h8, rfl⟩, hr⟩
    exact ⟨h1, h2, h3, h4, h5, h6, h7, h8, hr⟩
  · rintro ⟨h1, h2, h3, h4, h5, h6, h7, h8, hr⟩
    exact ⟨_, ⟨h1, h2, h3, h4, h5, h6, h7, h8, rfl⟩, hr⟩

end ZimTools.Incremental.Zimpatch
