import ZimTools.Metadata.Errors
import ZimTools.Zimcheck.InternalLinks
import ZimTools.Zimcheck.Run
import ZimTools.Zimwriterfs.VisitDirectory

/-!
# What zimcheck says of a written file

`zimwriterfs` checks its arguments and its metadata, and then writes the
metadata, the main path, the directory and the redirects of a file.  What
`zimcheck` reads afterwards is what was given to the creator, and a Counter.

The tests of the metadata and of the icon find nothing in any file that was
written, whatever the options were, unless the Counter is wrong.  That the welcome
page exists is not enough for the test of the main page, which asks for an entry
whose path has the same text (`written_zim`).
-/

namespace ZimTools.Zimwriterfs

open Bytes Loop Incremental

/-! ## The program -/

/-- The options, as the loop of `parse_args` leaves them. -/
structure Arguments where
  language : Bytes
  creator : Bytes
  publisher : Bytes
  title : Bytes
  tags : Bytes
  flavour : Bytes
  scraper : Bytes
  name : Bytes
  source : Bytes
  description : Bytes
  longDescription : Bytes
  welcome : Bytes
  illustration : Bytes
  redirectsPath : Bytes
  zimPath : Bytes
  directoryPath : Bytes
  withoutFTIndex : Bool
  dontCheckArgs : Bool

def thereAreMissingArguments (args : Arguments) : Bool :=
  if args.directoryPath = [] ∨ args.zimPath = [] then true
  else if args.dontCheckArgs then false
  else
    [args.creator, args.name, args.publisher, args.description, args.language, args.welcome,
      args.title, args.illustration].any (· = [])

/-- A path without the slash at its end. -/
def withoutSlash (path : Bytes) : Bytes :=
  if path.getLast? = some (char '/') then path.dropLast else path

def systemTags (args : Arguments) : Bytes :=
  args.tags ++ (if args.tags = [] then [] else str ";") ++
    if args.withoutFTIndex then str "_ftindex:no" else str "_ftindex:yes" ++ str ";_ftindex"

/-- `parse_args`, behind the loop over the options. -/
def parseArgs (os : Os) (args : Arguments) : Writing Arguments :=
  if thereAreMissingArguments args then throw .exited
  else
    let directoryPath := withoutSlash args.directoryPath
    if !args.dontCheckArgs && !os.fileExists (directoryPath ++ str "/" ++ args.welcome) then
      throw .exited
    else if !args.dontCheckArgs && !os.fileExists (directoryPath ++ str "/" ++ args.illustration) then
      throw .exited
    else if os.fileExists args.zimPath then throw .exited
    else pure { args with directoryPath := directoryPath, tags := systemTags args }

/-- The texts of the metadata, in the order in which they are set. -/
def metadataTexts (args : Arguments) (date : Bytes) : List (Bytes × Bytes) :=
  [(str "Language", args.language), (str "Publisher", args.publisher), (str "Creator", args.creator),
    (str "Title", args.title), (str "Description", args.description),
    (str "LongDescription", args.longDescription), (str "Name", args.name),
    (str "Source", args.source), (str "Flavour", args.flavour), (str "Scraper", args.scraper),
    (str "Tags", args.tags), (str "Date", date)]

/-- `makeMetadata`, on the day of `date`. -/
def makeMetadata (os : Os) (date : Bytes) (args : Arguments) : Writing Metadata :=
  let metadata := (metadataTexts args date).foldl
    (fun metadata text => metadata.set text.1 text.2 (str "text/plain")) ⟨∅⟩
  if args.illustration = [] then pure metadata
  else
    match getFileContent os (args.directoryPath ++ str "/" ++ args.illustration) with
    | none => throw .errno
    | some data => pure (metadata.set Metadata.illustrationName data (str "image/png"))

/-- `checkMetadata`, and the exit when there are errors. -/
def checkMetadata (icu : Icu) (metadata : Metadata) : Writing Unit :=
  match metadata.check icu with
  | none => throw .library
  | some errors => if errors = [] then pure () else throw .exited

/-- One pass of the loop of `addMetadata`. -/
def addMetadataEntry (zimCreator : Creator) (kv : Bytes × ValueWithMimeType) : Creator :=
  if kv.1 = Metadata.illustrationName then
    zimCreator.addMetadata Metadata.illustrationName kv.2.value
  else if kv.2.value ≠ [] then zimCreator.addMetadata kv.1 kv.2.value
  else zimCreator

def addMetadata (zimCreator : Creator) (metadata : Metadata) : Creator :=
  metadata.data.toList.foldl addMetadataEntry zimCreator

/-- `add_redirectArticles_from_file`.  A file that cannot be opened has no lines. -/
def addRedirectArticlesFromFile (os : Os) (path : Bytes) (zimCreator : Creator) : Writing Creator :=
  let handler (zimCreator : Creator) (redirect : Redirect) : Creator :=
    zimCreator.addRedirection redirect.path redirect.title redirect.target
  match parseRedirectArticles handler ((os.read path).getD []) zimCreator with
  | (zimCreator, .returned) => pure zimCreator
  | (_, .threw _) => throw .exited
  | (_, .undefined) => ExceptT.mk none

/-- What `create_zim` does behind the directory visitor. -/
def addRedirects (os : Os) (args : Arguments) (zimCreator : Creator) : Writing Creator :=
  if args.redirectsPath = [] then pure zimCreator
  else if !os.fileExists args.redirectsPath then throw .exited
  else addRedirectArticlesFromFile os args.redirectsPath zimCreator

/-- The creator in front of the directory visitor. -/
def preparedCreator (uuid : Uuid) (args : Arguments) (metadata : Metadata) : Creator :=
  let zimCreator := addMetadata (.startZimCreation uuid) metadata
  if args.welcome = [] then zimCreator else zimCreator.setMainPath args.welcome

/-- `create_zim`, for directories in less than `fuel` of one another. -/
def createZimFile (os : Os) (dangling : Creator.Dangling) (fuel : Nat) (uuid : Uuid)
    (args : Arguments) (metadata : Metadata) : Writing Archive :=
  match createZim os.toFileSystem args.directoryPath args.zimPath with
  | .error message => throw (.exception message)
  | .ok creator => do
      let s ← visitDirectory os creator fuel args.directoryPath
        ⟨preparedCreator uuid args metadata, []⟩
      let zimCreator ← addRedirects os args s.zimCreator
      ExceptT.adapt (fun _ => .library) (zimCreator.finish dangling)

/-- `zimwriterfs`. -/
def zimwriterfs (os : Os) (icu : Icu) (date : Bytes) (dangling : Creator.Dangling) (fuel : Nat)
    (uuid : Uuid) (args : Arguments) : Writing Archive := do
  let args ← parseArgs os args
  let metadata ← makeMetadata os date args
  checkMetadata icu metadata
  createZimFile os dangling fuel uuid args metadata

/-! ## What is read of a written file -/

/-- A metadata entry, with the MIME type that the library has given to it. -/
def readMetadata (kv : Bytes × Bytes) : Bytes × ValueWithMimeType :=
  (kv.1, ⟨kv.2, if kv.1 = Metadata.illustrationName then Metadata.illustrationMimeType
    else Metadata.stringMimeType⟩)

/-- `zimcheck` reads of a file what its creator was given, and whatever Counter the
library has added. -/
structure ReadAs (out : Archive) (file : Zimcheck.ZimFile) : Prop where
  keys : (file.metadata.map Prod.fst).Nodup
  metadata : ∀ kv, kv.1 ≠ str "Counter" →
    (kv ∈ file.metadata ↔ kv ∈ out.metadata.map readMetadata)
  illustration : Metadata.illustrationName ∈ out.metadata.map Prod.fst → file.illustrationInfos ≠ []
  mainEntry : file.mainEntry = (out.mainPath.bind out.find).isSome

/-! ## The metadata -/

/-- The metadata that are given to the creator. -/
def writtenMetadata (metadata : Metadata) : List (Bytes × Bytes) :=
  metadata.data.toList.filterMap fun kv =>
    (Metadata.stored kv.1 kv.2).map fun v => (kv.1, v.value)

theorem addMetadataEntry_eq (zimCreator : Creator) (kv : Bytes × ValueWithMimeType) :
    addMetadataEntry zimCreator kv =
      { zimCreator with
        metadata := zimCreator.metadata ++
          ((Metadata.stored kv.1 kv.2).map fun v => (kv.1, v.value)).toList } := by
  rw [addMetadataEntry, Metadata.stored]
  split_ifs with hillustration hvalue
  · rw [hillustration]
    rfl
  · rfl
  · rw [Option.map_none, Option.toList_none, List.append_nil]

theorem addMetadata_eq (zimCreator : Creator) (metadata : Metadata) :
    addMetadata zimCreator metadata =
      { zimCreator with metadata := zimCreator.metadata ++ writtenMetadata metadata } := by
  rw [addMetadata, writtenMetadata]
  induction metadata.data.toList generalizing zimCreator with
  | nil => rw [List.foldl_nil, List.filterMap_nil, List.append_nil]
  | cons kv l ih =>
      rw [List.foldl_cons, ih, addMetadataEntry_eq, List.filterMap_cons, List.append_assoc]
      cases (Metadata.stored kv.1 kv.2).map fun v => (kv.1, v.value) <;> rfl

/-- What is read under a name is what is stored for it. -/
theorem mem_readMetadata {metadata : Metadata} {name : Bytes} {v : ValueWithMimeType} :
    (name, v) ∈ (writtenMetadata metadata).map readMetadata ↔
      (metadata.at? name).bind (Metadata.stored name) = some v := by
  have hread : ∀ {name : Bytes} {w v : ValueWithMimeType}, Metadata.stored name w = some v →
      readMetadata (name, v.value) = (name, v) := by
    intro name w v hstored
    rw [readMetadata, ← Metadata.stored_mimeType hstored]
  rw [Option.bind_eq_some_iff, List.mem_map]
  constructor
  · rintro ⟨kv, hkv, heq⟩
    obtain ⟨⟨name', w⟩, hw, hmap⟩ := List.mem_filterMap.mp hkv
    obtain ⟨v', hstored, rfl⟩ := Option.map_eq_some_iff.mp hmap
    rw [hread hstored] at heq
    cases heq
    exact ⟨w, Std.TreeMap.mem_toList_iff_getElem?_eq_some.mp hw, hstored⟩
  · intro ⟨w, hw, hstored⟩
    refine ⟨(name, v.value), List.mem_filterMap.mpr ⟨(name, w), ?_, ?_⟩, hread hstored⟩
    · exact Std.TreeMap.mem_toList_iff_getElem?_eq_some.mpr hw
    · rw [hstored]
      rfl

/-- Of a name that was set once there is what was set. -/
theorem lastSet_eq_some_iff {calls : List (Bytes × ValueWithMimeType)}
    (hnodup : (calls.map Prod.fst).Nodup) {name : Bytes} {v : ValueWithMimeType} :
    Metadata.lastSet calls name = some v ↔ (name, v) ∈ calls := by
  rw [Metadata.lastSet, Option.map_eq_some_iff]
  constructor
  · rintro ⟨call, hfind, rfl⟩
    have hname : call.1 = name := by simpa using List.find?_some hfind
    exact hname ▸ List.mem_reverse.mp (List.mem_of_find?_eq_some hfind)
  · intro hmem
    cases hfind : calls.reverse.find? fun call => call.1 = name with
    | none =>
        have hne := List.find?_eq_none.mp hfind (name, v) (List.mem_reverse.mpr hmem)
        exact absurd (decide_eq_true rfl) hne
    | some call =>
        have hname : call.1 = name := by simpa using List.find?_some hfind
        have hcall := List.mem_reverse.mp (List.mem_of_find?_eq_some hfind)
        exact ⟨call, rfl, by rw [List.inj_on_of_nodup_map hnodup hcall hmem hname]⟩

theorem ReadAs.at?_iff {out : Archive} {file : Zimcheck.ZimFile} (h : ReadAs out file)
    {name : Bytes} {v : ValueWithMimeType} :
    (Metadata.ofCalls file.metadata).at? name = some v ↔ (name, v) ∈ file.metadata := by
  rw [Metadata.at?_foldl_set]
  exact lastSet_eq_some_iff h.keys

/-- The Counter that was added is as `zimcheck` asks for it. -/
def CounterIsValid (file : Zimcheck.ZimFile) : Prop :=
  ∀ v, (str "Counter", v) ∈ file.metadata → Metadata.ValidCounter v

/-- What is read of the metadata is what was written. -/
theorem ReadAs.written {out : Archive} {file : Zimcheck.ZimFile} (h : ReadAs out file)
    (hcounter : CounterIsValid file) {metadata : Metadata}
    (hout : out.metadata = writtenMetadata metadata) :
    Metadata.Written metadata (Metadata.ofCalls file.metadata) where
  entries name hname := by
    refine Option.ext fun v => ?_
    rw [h.at?_iff, h.metadata _ hname, hout, mem_readMetadata, Metadata.at?_addMetadata]
  counter v hv := Or.inr (hcounter v (h.at?_iff.mp hv))

theorem testMetadata_eq_nil_iff {icu : Icu} {file : Zimcheck.ZimFile} :
    Zimcheck.testMetadata icu file = some [] ↔
      (Metadata.ofCalls file.metadata).check icu = some [] := by
  show ((Metadata.ofCalls file.metadata).check icu).map _ = _ ↔ _
  cases (Metadata.ofCalls file.metadata).check icu with
  | none => simp
  | some errors => simp

/-- The test of the metadata finds nothing, unless the Counter is wrong. -/
theorem testMetadata_written_iff {icu : Icu} (hicu : icu.EmptyText) {out : Archive}
    {file : Zimcheck.ZimFile} (h : ReadAs out file) {metadata : Metadata}
    (hcheck : metadata.check icu = some []) (hout : out.metadata = writtenMetadata metadata) :
    Zimcheck.testMetadata icu file = some [] ↔ CounterIsValid file := by
  obtain ⟨hmandatory, hsimple, hcomplex⟩ := Metadata.check_eq_nil_iff.mp hcheck
  rw [testMetadata_eq_nil_iff, Metadata.check_eq_nil_iff]
  constructor
  · rintro ⟨-, hread, -⟩ v hv
    have hmeets := Metadata.checkSimpleConstraints_eq_nil_iff.mp hread (str "Counter") v
      (h.at?_iff.mpr hv)
    exact Metadata.validCounter_of_meets (hmeets _ (by decide))
  · intro hcounter
    have hwritten := h.written hcounter hout
    exact ⟨hwritten.mandatory hicu hmandatory hsimple, hwritten.simple hsimple,
      hwritten.complex hicu hsimple hcomplex⟩

/-- The test of the icon finds one. -/
theorem testFavicon_written {icu : Icu} {out : Archive} {file : Zimcheck.ZimFile}
    (h : ReadAs out file) {metadata : Metadata} (hcheck : metadata.check icu = some [])
    (hout : out.metadata = writtenMetadata metadata) : Zimcheck.testFavicon file = [] := by
  obtain ⟨hmandatory, -, -⟩ := Metadata.check_eq_nil_iff.mp hcheck
  have hhas := Metadata.checkMandatoryMetadata_eq_nil_iff.mp hmandatory
    ⟨Metadata.illustrationName, true, 0, 0, Metadata.pngRegexp, .png⟩ (by decide) rfl
  obtain ⟨v, hv⟩ := Option.isSome_iff_exists.mp hhas
  have hstored : (metadata.at? Metadata.illustrationName).bind
      (Metadata.stored Metadata.illustrationName) = some ⟨v.value, Metadata.illustrationMimeType⟩ := by
    rw [Metadata.at?, hv, Option.bind_some, Metadata.stored, if_pos rfl]
  obtain ⟨kv, hkv, heq⟩ := List.mem_map.mp (mem_readMetadata.mpr hstored)
  have hname : kv.1 = Metadata.illustrationName := congrArg Prod.fst heq
  refine if_neg (h.illustration ?_)
  rw [hout, ← hname]
  exact List.mem_map_of_mem hkv

/-! ## The steps of a run -/

theorem eq_of_returns_parseArgs {os : Os} {args args' : Arguments}
    (h : Returns (parseArgs os args) args') :
    args' = { args with
      directoryPath := withoutSlash args.directoryPath, tags := systemTags args } := by
  rw [parseArgs] at h
  dsimp only at h
  split_ifs at h
  · exact absurd h returns_throw
  · exact absurd h returns_throw
  · exact absurd h returns_throw
  · exact absurd h returns_throw
  · exact returns_pure.mp h

theorem check_of_returns {icu : Icu} {metadata : Metadata} {u : Unit}
    (h : Returns (checkMetadata icu metadata) u) : metadata.check icu = some [] := by
  rw [checkMetadata] at h
  cases hcheck : metadata.check icu with
  | none =>
      rw [hcheck] at h
      exact absurd h returns_throw
  | some errors =>
      rw [hcheck] at h
      dsimp only at h
      split_ifs at h with hnil
      · rw [hnil]
      · exact absurd h returns_throw

theorem eq_of_createZim_eq_ok {fs : FileSystem} {directoryPath zimPath : Bytes}
    {creator : ZimCreatorFS} {canonical : CanonicalPath}
    (hcanonical : fs.realpath directoryPath = .ok canonical)
    (h : createZim fs directoryPath zimPath = .ok creator) :
    creator = ⟨directoryPath, canonical.text⟩ := by
  rw [createZim, ZimCreatorFS.new, hcanonical] at h
  simp only [bind, Except.bind] at h
  split_ifs at h
  cases hzimdir : fs.realpath (dirname zimPath) with
  | error e =>
      rw [hzimdir] at h
      cases h
  | ok buf =>
      rw [hzimdir] at h
      dsimp only at h
      split_ifs at h
      cases h
      rfl

/-- Lines that are read to the end are those of redirects. -/
theorem exists_redirects_of_returned {σ : Type} {handler : σ → Redirect → σ} :
    ∀ {lines : List Bytes} {n : Nat} {s s' : σ},
      parseLines handler n lines s = (s', .returned) →
      ∃ redirects : List Redirect, (∀ r ∈ redirects, r.Valid) ∧
        lines = redirects.map Redirect.line ∧ s' = redirects.foldl handler s
  | [], _, _, _, h => by
      cases h
      exact ⟨[], List.forall_mem_nil _, rfl, rfl⟩
  | line :: lines, n, s, s', h => by
      rw [parseLines] at h
      cases hmatch : matchLine line with
      | none =>
          rw [hmatch] at h
          cases h
      | some redirect =>
          rw [hmatch] at h
          dsimp only at h
          split_ifs at h
          · cases h
          · obtain ⟨hvalid, rfl⟩ := matchLine_eq_some_iff.mp hmatch
            obtain ⟨redirects, hredirects, rfl, rfl⟩ := exists_redirects_of_returned h
            exact ⟨redirect :: redirects, List.forall_mem_cons.mpr ⟨hvalid, hredirects⟩, rfl, rfl⟩

/-- The lines of the file of redirects, if there is one. -/
def redirectLines (os : Os) (args : Arguments) : List Bytes :=
  if args.redirectsPath = [] then []
  else getlines ((os.read args.redirectsPath).getD []) (char '\n')

def redirectEntry (redirect : Redirect) : Entry :=
  ⟨redirect.path, redirect.title, .redirect redirect.target⟩

theorem foldl_addRedirection (redirects : List Redirect) (zimCreator : Creator) :
    redirects.foldl (fun zimCreator redirect =>
        zimCreator.addRedirection redirect.path redirect.title redirect.target) zimCreator =
      zimCreator.addAll (redirects.map redirectEntry) := by
  induction redirects generalizing zimCreator with
  | nil => exact zimCreator.addAll_nil.symm
  | cons redirect redirects ih =>
      rw [List.foldl_cons, ih, List.map_cons]
      exact zimCreator.addAll_addAll [redirectEntry redirect] _

/-- Behind the directory visitor the creator is given a redirect for each line. -/
theorem exists_redirects_of_returns {os : Os} {args : Arguments} {zimCreator zimCreator' : Creator}
    (h : Returns (addRedirects os args zimCreator) zimCreator') :
    ∃ redirects : List Redirect, (∀ r ∈ redirects, r.Valid) ∧
      redirectLines os args = redirects.map Redirect.line ∧
      zimCreator' = zimCreator.addAll (redirects.map redirectEntry) := by
  rw [addRedirects] at h
  rw [redirectLines]
  split_ifs at h with hpath hexists
  · rw [if_pos hpath, returns_pure.mp h]
    exact ⟨[], List.forall_mem_nil _, rfl, zimCreator.addAll_nil.symm⟩
  · exact absurd h returns_throw
  · rw [if_neg hpath]
    rw [addRedirectArticlesFromFile] at h
    split at h
    · next hparse =>
        obtain ⟨redirects, hvalid, hlines, heq⟩ := exists_redirects_of_returned hparse
        refine ⟨redirects, hvalid, hlines, ?_⟩
        rw [returns_pure.mp h, heq, foldl_addRedirection]
    · exact absurd h returns_throw
    · cases h

/-! ## A written file -/

/-- The entries that the creator is given. -/
def GivenEntry (os : Os) (args : Arguments) (creator : ZimCreatorFS) (tree : FileTree Bytes Leaf)
    (entry : Entry) : Prop :=
  (∃ names kind, tree.get names = some (.inl kind) ∧
      packed os creator (names, kind) = .ok (some entry)) ∨
    ∃ redirect : Redirect, redirect.Valid ∧ redirect.line ∈ redirectLines os args ∧
      redirectEntry redirect = entry

/-- The entries of a written file. -/
def WrittenEntry (dangling : Creator.Dangling) (os : Os) (args : Arguments)
    (creator : ZimCreatorFS) (tree : FileTree Bytes Leaf) (entry : Entry) : Prop :=
  GivenEntry os args creator tree entry ∧
    (dangling = .discarded → ∀ target, entry.kind = .redirect target →
      ∃ entry', GivenEntry os args creator tree entry' ∧ entry'.path = target)

section Run

variable {os : Os} {icu : Icu} {date : Bytes} {dangling : Creator.Dangling} {fuel : Nat}
  {uuid : Uuid} {args : Arguments} {canonical : CanonicalPath} {listing : List (Bytes × DType)}
  {tree : FileTree Bytes Leaf} {metadata : Metadata} {out : Archive}

theorem preparedCreator_eq (uuid : Uuid) (args : Arguments) (metadata : Metadata) :
    preparedCreator uuid args metadata =
      ⟨[], writtenMetadata metadata, uuid, if args.welcome = [] then none else some args.welcome⟩ := by
  rw [preparedCreator, addMetadata_eq]
  split <;> rfl

/-- The redirects of a file are those of its lines. -/
theorem mem_redirectEntries {redirects : List Redirect} (hvalid : ∀ r ∈ redirects, r.Valid)
    {entry : Entry} :
    entry ∈ redirects.map redirectEntry ↔ ∃ redirect : Redirect, redirect.Valid ∧
      redirect.line ∈ redirects.map Redirect.line ∧ redirectEntry redirect = entry := by
  rw [List.mem_map]
  constructor
  · rintro ⟨redirect, hmem, heq⟩
    exact ⟨redirect, hvalid redirect hmem, List.mem_map_of_mem hmem, heq⟩
  · rintro ⟨redirect, hredirect, hline, heq⟩
    obtain ⟨redirect', hmem, hline'⟩ := List.mem_map.mp hline
    obtain rfl := Redirect.line_inj (hvalid redirect' hmem) hredirect hline'
    exact ⟨redirect', hmem, heq⟩

/-- What the creator is given by the directory visitor and behind it. -/
theorem mem_given_iff {creator : ZimCreatorFS} {zimCreator : Creator} {redirects : List Redirect}
    (hdistinct : tree.Distinct) (hempty : zimCreator.entries = [])
    (hvalid : ∀ r ∈ redirects, r.Valid)
    (hlines : redirectLines os args = redirects.map Redirect.line) {entry : Entry} :
    entry ∈ ((zimCreator.addAll (entriesOf os creator tree.leaves)).addAll
        (redirects.map redirectEntry)).entries ↔ GivenEntry os args creator tree entry := by
  rw [Creator.addAll, entries_addAll hempty, List.mem_append, mem_entriesOf_iff hdistinct,
    mem_redirectEntries hvalid, GivenEntry, hlines]

/-- The archive that `create_zim` writes. -/
theorem written_of_createZimFile
    (hcanonical : os.realpath args.directoryPath = .ok canonical)
    (hopen : os.opendir args.directoryPath = some listing)
    (hlists : Lists os args.directoryPath listing tree) (hdistinct : tree.Distinct)
    (hfuel : tree.depth < fuel)
    (h : Returns (createZimFile os dangling fuel uuid args metadata) out) :
    out.metadata = writtenMetadata metadata ∧
      out.mainPath = (if args.welcome = [] then none else some args.welcome) ∧
      ∀ entry, entry ∈ out.entries ↔
        WrittenEntry dangling os args ⟨args.directoryPath, canonical.text⟩ tree entry := by
  rw [createZimFile] at h
  cases hcreate : createZim os.toFileSystem args.directoryPath args.zimPath with
  | error message =>
      rw [hcreate] at h
      exact absurd h returns_throw
  | ok creator =>
      obtain rfl := eq_of_createZim_eq_ok hcanonical hcreate
      rw [hcreate] at h
      simp only [returns_bind, returns_adapt, Creator.returns_finish] at h
      obtain ⟨s, hvisit, zimCreator, hredirects, nodup, count_lt, rfl⟩ := h
      obtain ⟨-, hs⟩ := (@returns_visitDirectory tree os ⟨args.directoryPath, canonical.text⟩ listing
        fuel _ hopen hlists hdistinct hfuel s.zimCreator).mp ⟨s, hvisit, rfl⟩
      obtain ⟨redirects, hvalid, hlines, rfl⟩ := exists_redirects_of_returns hredirects
      have hempty : (preparedCreator uuid args metadata).entries = [] := by rw [preparedCreator_eq]
      refine ⟨?_, ?_, fun entry => ?_⟩
      · show ((s.zimCreator.addAll (redirects.map redirectEntry)).stored dangling).metadata = _
        rw [Creator.metadata_stored, hs, preparedCreator_eq]
        rfl
      · show ((s.zimCreator.addAll (redirects.map redirectEntry)).stored dangling).mainPath = _
        rw [Creator.mainPath_stored, hs, preparedCreator_eq]
        rfl
      · simp only [Creator.mem_toArchive, Creator.mem_stored, Creator.resolves_eq_true_iff,
          Entry.redirectTarget_eq_some_iff, hs, mem_given_iff hdistinct hempty hvalid hlines,
          WrittenEntry]

/-- The metadata of a written file are checked ones. -/
theorem written_of_zimwriterfs
    (hcanonical : os.realpath (withoutSlash args.directoryPath) = .ok canonical)
    (hopen : os.opendir (withoutSlash args.directoryPath) = some listing)
    (hlists : Lists os (withoutSlash args.directoryPath) listing tree) (hdistinct : tree.Distinct)
    (hfuel : tree.depth < fuel)
    (h : Returns (zimwriterfs os icu date dangling fuel uuid args) out) :
    (∃ args' metadata, Returns (makeMetadata os date args') metadata ∧
        metadata.check icu = some [] ∧ out.metadata = writtenMetadata metadata) ∧
      out.mainPath = (if args.welcome = [] then none else some args.welcome) ∧
      ∀ entry, entry ∈ out.entries ↔ WrittenEntry dangling os args
        ⟨withoutSlash args.directoryPath, canonical.text⟩ tree entry := by
  simp only [zimwriterfs, returns_bind] at h
  obtain ⟨args', hargs, metadata, hmetadata, _, hcheck, hcreate⟩ := h
  obtain rfl := eq_of_returns_parseArgs hargs
  obtain ⟨hout, hmain, hentries⟩ :=
    written_of_createZimFile hcanonical hopen hlists hdistinct hfuel hcreate
  exact ⟨⟨_, metadata, hmetadata, check_of_returns hcheck, hout⟩, hmain, hentries⟩

/-- No entry has an empty path. -/
theorem GivenEntry.path_ne_nil {creator : ZimCreatorFS} {entry : Entry}
    (hnames : tree.AllNames IsName) (hdistinct : tree.Distinct)
    (h : GivenEntry os args creator tree entry) : entry.path ≠ [] := by
  rcases h with ⟨names, kind, hget, hpacked⟩ | ⟨redirect, hvalid, -, rfl⟩
  · have hleaf := (FileTree.mem_leaves_iff hdistinct).mpr hget
    have hne := ne_nil_of_mem_leaves _ hleaf
    have hsegments := segments_leafUrl hne (FileTree.forall_mem_leaves hnames _ hleaf)
    rw [path_of_packed hpacked]
    intro hnil
    rw [hnil] at hsegments
    have hempty : IsName [] :=
      FileTree.forall_mem_leaves hnames _ hleaf [] (hsegments ▸ List.mem_singleton_self [])
    exact hempty.1 rfl
  · exact (Redirect.valid_iff.mp hvalid).1.1

/-- What `zimcheck` says of every file that is written: it has exactly the
entries of the directory and of the redirects, but for dangling ones if the
library discards these, its icon is found, and the test of the metadata finds
nothing unless the Counter of the library is wrong.  The main page is there when
an entry has the path that was given for it. -/
theorem written_zim (hicu : icu.EmptyText)
    (hcanonical : os.realpath (withoutSlash args.directoryPath) = .ok canonical)
    (hopen : os.opendir (withoutSlash args.directoryPath) = some listing)
    (hlists : Lists os (withoutSlash args.directoryPath) listing tree) (hdistinct : tree.Distinct)
    (hfuel : tree.depth < fuel)
    (hrun : Returns (zimwriterfs os icu date dangling fuel uuid args) out)
    {file : Zimcheck.ZimFile} (hfile : ReadAs out file) :
    (∀ entry, entry ∈ out.entries ↔ WrittenEntry dangling os args
        ⟨withoutSlash args.directoryPath, canonical.text⟩ tree entry) ∧
      (Zimcheck.testMetadata icu file = some [] ↔ CounterIsValid file) ∧
      Zimcheck.testFavicon file = [] ∧
      (Zimcheck.testMainpage file = [] ↔ ∃ entry, WrittenEntry dangling os args
        ⟨withoutSlash args.directoryPath, canonical.text⟩ tree entry ∧
          entry.path = args.welcome) := by
  obtain ⟨⟨args', metadata, -, hcheck, hmetadata⟩, hmain, hentries⟩ :=
    written_of_zimwriterfs hcanonical hopen hlists hdistinct hfuel hrun
  refine ⟨hentries, testMetadata_written_iff hicu hfile hcheck hmetadata,
    testFavicon_written hfile hcheck hmetadata, ?_⟩
  have htest : Zimcheck.testMainpage file = [] ↔ file.mainEntry = true := by
    rw [Zimcheck.testMainpage]
    cases file.mainEntry with
    | false => simp
    | true => simp
  rw [htest, hfile.mainEntry, hmain]
  by_cases hwelcome : args.welcome = []
  · rw [if_pos hwelcome]
    refine iff_of_false (fun hsome => Bool.false_ne_true hsome) ?_
    rintro ⟨entry, hentry, hpath⟩
    exact hentry.1.path_ne_nil (allNames_of_lists hlists) hdistinct (hpath.trans hwelcome)
  · rw [if_neg hwelcome, Option.bind_some, Option.isSome_iff_exists]
    refine exists_congr fun entry => ?_
    rw [Archive.find_eq_some_iff, hentries]

end Run

/-! ## A file without a Counter -/

/-- What is read of a file when the library has added no Counter. -/
def fileOf (out : Archive) (archive : Zimcheck.Archive) (validate check : Bool) :
    Zimcheck.ZimFile where
  archive := archive
  validate := validate
  check := check
  checksum := []
  metadata := out.metadata.map readMetadata
  illustrationInfos :=
    if (out.metadata.map Prod.fst).contains Metadata.illustrationName then
      [Metadata.illustrationName]
    else []
  mainEntry := (out.mainPath.bind out.find).isSome
  mainEntryIndex := 0

/-- The metadata have no Counter. -/
theorem at?_counter_of_returns {os : Os} {date : Bytes} {args : Arguments} {metadata : Metadata}
    (h : Returns (makeMetadata os date args) metadata) :
    metadata.at? (str "Counter") = none := by
  have htexts : ((metadataTexts args date).foldl
      (fun metadata text => metadata.set text.1 text.2 (str "text/plain"))
      (⟨∅⟩ : Metadata)).at? (str "Counter") = none := by
    have hcalls := @List.foldl_map _ _ _ (fun text : Bytes × Bytes =>
      (text.1, (⟨text.2, str "text/plain"⟩ : ValueWithMimeType)))
      (fun metadata call => metadata.set call.1 call.2.value call.2.mimeType)
      (metadataTexts args date) (⟨∅⟩ : Metadata)
    rw [← hcalls, ← Metadata.ofCalls, Metadata.at?_foldl_set]
    rfl
  rw [makeMetadata] at h
  split_ifs at h
  · rw [returns_pure.mp h, htexts]
  · split at h
    · exact absurd h returns_throw
    · rw [returns_pure.mp h, Metadata.at?_set, if_neg (by decide), htexts]

theorem nodup_writtenMetadata (metadata : Metadata) :
    ((writtenMetadata metadata).map Prod.fst).Nodup := by
  have hkeys : (metadata.data.toList.map Prod.fst).Nodup := by
    rw [Std.TreeMap.map_fst_toList_eq_keys]
    exact Std.TreeMap.nodup_keys
  refine hkeys.sublist ?_
  rw [writtenMetadata]
  induction metadata.data.toList with
  | nil => exact .slnil
  | cons kv l ih =>
      rw [List.filterMap_cons]
      cases Metadata.stored kv.1 kv.2 with
      | none => exact ih.cons _
      | some v => exact ih.cons_cons _

/-- Such a file can be read of everything that is written. -/
theorem readAs_fileOf {out : Archive} {metadata : Metadata}
    (hout : out.metadata = writtenMetadata metadata) (archive : Zimcheck.Archive)
    (validate check : Bool) : ReadAs out (fileOf out archive validate check) where
  keys := by
    show ((out.metadata.map readMetadata).map Prod.fst).Nodup
    rw [List.map_map, hout]
    exact nodup_writtenMetadata metadata
  metadata _ _ := Iff.rfl
  illustration hmem := by
    rw [fileOf, if_pos (List.contains_iff_mem.mpr hmem)]
    exact List.cons_ne_nil _ _
  mainEntry := rfl

theorem counterIsValid_fileOf {out : Archive} {metadata : Metadata}
    (hout : out.metadata = writtenMetadata metadata)
    (hcounter : metadata.at? (str "Counter") = none) (archive : Zimcheck.Archive)
    (validate check : Bool) : CounterIsValid (fileOf out archive validate check) := by
  intro v hv
  rw [fileOf, hout, mem_readMetadata, hcounter] at hv
  cases hv

/-- A directory with a text and an icon.  The welcome page is found under
another spelling of its path. -/
def welcomeOs : Os where
  realpath path :=
    if path = str "d" then .ok ⟨[str "d"], by decide⟩
    else if path = str "." then .ok ⟨[str "w"], by decide⟩
    else .error []
  isDirectory _ := false
  gumboParse _ := .other
  fileExists path := path == str "d/./a.txt" || path == str "d/i.png"
  opendir path := if path = str "d" then some [(str "a.txt", .reg), (str "i.png", .reg)] else none
  stat _ := none
  read path :=
    if path = str "d/a.txt" then some (str "x")
    else if path = str "d/i.png" then some Metadata.pngSignature
    else none
  magicFile _ := none
  inflateString _ := none
  inflateHtmlFlag := false

def welcomeArguments : Arguments where
  language := str "eng"
  creator := str "c"
  publisher := str "p"
  title := str "t"
  tags := []
  flavour := []
  scraper := []
  name := str "n"
  source := []
  description := str "d"
  longDescription := []
  welcome := str "./a.txt"
  illustration := str "i.png"
  redirectsPath := []
  zimPath := str "z"
  directoryPath := str "d/"
  withoutFTIndex := true
  dontCheckArgs := false

def welcomeTree : FileTree Bytes Leaf :=
  .leaf (str "a.txt") .file (.leaf (str "i.png") .file .nil)

def welcomeUuid : Uuid := ⟨str "0123456789abcdef", rfl⟩

theorem lists_welcome : Lists welcomeOs (withoutSlash welcomeArguments.directoryPath)
    [(str "a.txt", .reg), (str "i.png", .reg)] welcomeTree :=
  .leaf (by decide) rfl (.leaf (by decide) rfl .nil)

theorem distinct_welcome : welcomeTree.Distinct := by
  simp [welcomeTree, FileTree.Distinct, FileTree.names, str, char]

theorem returns_welcome : ∃ out, Returns (zimwriterfs welcomeOs Metadata.asciiIcu
    (str "2024-01-01") .discarded 1 welcomeUuid welcomeArguments) out := by
  have hreturned : ((zimwriterfs welcomeOs Metadata.asciiIcu (str "2024-01-01") .discarded 1
      welcomeUuid welcomeArguments).run.bind Except.toOption).isSome = true := by decide
  obtain ⟨out, hout⟩ := Option.isSome_iff_exists.mp hreturned
  obtain ⟨result, hrun, hresult⟩ := Option.bind_eq_some_iff.mp hout
  cases result with
  | error failure => cases hresult
  | ok out' =>
      cases hresult
      exact ⟨out, hrun⟩

/-- No name in a directory is a dot. -/
theorem not_written_welcome (creator : ZimCreatorFS) : ¬ ∃ entry,
    WrittenEntry .discarded welcomeOs welcomeArguments creator welcomeTree entry ∧
      entry.path = welcomeArguments.welcome := by
  rintro ⟨entry, ⟨⟨names, kind, hget, hpacked⟩ | ⟨redirect, hvalid, hline, rfl⟩, -⟩, hpath⟩
  · have hleaf := (FileTree.mem_leaves_iff distinct_welcome).mpr hget
    have hnames := FileTree.forall_mem_leaves (allNames_of_lists lists_welcome) _ hleaf
    have hsegments := segments_leafUrl (ne_nil_of_mem_leaves _ hleaf) hnames
    rw [← path_of_packed hpacked, hpath] at hsegments
    have hdot : IsName (str ".") := hnames (str ".") (hsegments ▸ by decide)
    exact hdot.2.1 rfl
  · exact absurd hline List.not_mem_nil

/-- The text and the icon are written, and the main page is missing. -/
theorem written_zim_sample : ∃ out file,
    Returns (zimwriterfs welcomeOs Metadata.asciiIcu (str "2024-01-01") .discarded 1 welcomeUuid
        welcomeArguments) out ∧ ReadAs out file ∧
      Zimcheck.testMetadata Metadata.asciiIcu file = some [] ∧ Zimcheck.testFavicon file = [] ∧
      Zimcheck.testMainpage file ≠ [] := by
  have hicu : Metadata.asciiIcu.EmptyText := by
    refine ⟨rfl, fun boundaries hboundaries => ?_⟩
    rw [← Option.some.inj hboundaries]
    rfl
  have hcanonical : welcomeOs.realpath (withoutSlash welcomeArguments.directoryPath) =
      .ok ⟨[str "d"], by decide⟩ := rfl
  obtain ⟨out, hrun⟩ := returns_welcome
  obtain ⟨⟨args', metadata, hmetadata, -, hout⟩, -⟩ := written_of_zimwriterfs hcanonical rfl
    lists_welcome distinct_welcome (by decide) hrun
  have hfile := readAs_fileOf hout Zimcheck.noEntries true true
  have hcounter := counterIsValid_fileOf hout (at?_counter_of_returns hmetadata)
    Zimcheck.noEntries true true
  obtain ⟨-, htest, hfavicon, hmain⟩ := written_zim hicu hcanonical rfl lists_welcome
    distinct_welcome (by decide) hrun hfile
  exact ⟨out, _, hrun, hfile, htest.mpr hcounter, hfavicon,
    fun hnil => not_written_welcome _ (hmain.mp hnil)⟩

end ZimTools.Zimwriterfs
