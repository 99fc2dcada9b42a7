import ZimTools.Metadata.Constraints
import ZimTools.Zimcheck.CheckOrder

/-!
# A run of zimcheck

zimcheck runs the enabled tests one after the other.  The integrity of the file
comes first, and when it is not given there are no other tests.  A run is the
messages of its tests, in their order, and the status of each test.  It is
`none` when an exception or a read behind a page ends it, which only a page with
an unfinished link or a redirect out of the archive brings about (`exists_run`).
-/

namespace ZimTools
namespace Zimcheck

open Bytes

/-- What zimcheck reads of a file. -/
structure ZimFile where
  archive : Archive
  /-- `zim::validate`, with all checks. -/
  validate : Bool
  /-- `archive.check()`. -/
  check : Bool
  checksum : Bytes
  /-- The metadata items under their keys. -/
  metadata : List (Bytes × ValueWithMimeType)
  /-- `archive.getIllustrationInfos(48, 48, 1)`. -/
  illustrationInfos : List Bytes
  /-- Whether `archive.getMainEntry()` returns. -/
  mainEntry : Bool
  mainEntryIndex : EntryIndex

/-! ## The tests -/

def testChecksum (file : ZimFile) : List Msg :=
  if file.check then []
  else [⟨.checksum, params [(str "archive_checksum", .string file.checksum)]⟩]

def testMetadata (icu : Icu) (file : ZimFile) : Option (List Msg) :=
  let metadata := file.metadata.foldl (fun m mi => m.set mi.1 mi.2.value mi.2.mimeType)
    (⟨∅⟩ : Metadata)
  (metadata.check icu).map fun errors =>
    errors.map fun error => ⟨.metadata, params [(str "error", .string error)]⟩

def testFavicon (file : ZimFile) : List Msg :=
  if file.illustrationInfos = [] then [⟨.missingFavicon, params []⟩] else []

def testMainpage (file : ZimFile) : List Msg :=
  if file.mainEntry then []
  else [⟨.mainPage, params
    [(str "main_page_index", .string (decimal file.mainEntryIndex.toNat))]⟩]

def redirectLoopMsg (path : Bytes) : Msg :=
  ⟨.redirectLoop, params [(str "entry_path", .string path)]⟩

/-- The entry as it is added to the `RedirectionTable`. -/
def Entry.addition : Entry → Addition
  | .redirect _ _ redirectEntryIndex => .redirect redirectEntryIndex
  | .item _ => .item

def testRedirectLoop (archive : Archive) : Option (List Msg) :=
  let redirTable := RedirectionTable.build (archive.entries.map Entry.addition)
  let indices := (List.range redirTable.size).map UInt32.ofNat
  (redirTable.queries (2 * redirTable.size + 1) indices).map fun (answers, _) =>
    (indices.zip answers).filterMap fun (i, inLoop) =>
      if inLoop then (archive.getEntryByPath i).map fun entry => redirectLoopMsg entry.path
      else none

/-! ## The run -/

structure Run where
  messages : List Msg
  testStatus : EnabledTests

def Run.overallStatus (run : Run) : Bool := Zimcheck.overallStatus run.testStatus

variable (icu : Icu) (file : ZimFile) (options : ZimCheckOptions)

def shouldRunFullTest : Bool := !options.enabledTests .integrity || file.validate

/-- The status behind the integrity test. -/
def integrityStatus : EnabledTests :=
  if options.enabledTests .integrity then
    Function.update (fun _ => true) .integrity file.validate
  else fun _ => true

def metadataMessages : Option (List Msg) :=
  if options.enabledTests .metadata then testMetadata icu file else some []

/-- The tests in front of those of the articles. -/
def archiveMessages : Option (List Msg) :=
  let enabled := options.enabledTests
  (metadataMessages icu file options).map fun metadata =>
    (if enabled .checksum && !enabled .integrity then testChecksum file else []) ++ metadata ++
      (if enabled .favicon then testFavicon file else []) ++
      (if enabled .mainPage then testMainpage file else [])

def articleMessages (order : List Entry) : Option (List Msg) :=
  let enabled := options.enabledTests
  if enabled .urlInternal || enabled .urlExternal || enabled .redundant || enabled .empty then
    testArticles file.archive options order
  else some []

def redirectMessages : Option (List Msg) :=
  if options.enabledTests .redirect then testRedirectLoop file.archive else some []

/-- `zimcheck`, with the order in which the entries are checked. -/
def zimcheck (order : List Entry) : Option Run :=
  if shouldRunFullTest file options then do
    let messages ← archiveMessages icu file options
    let articles ← articleMessages file options order
    let redirects ← redirectMessages file options
    let all := messages ++ articles ++ redirects
    some ⟨all, statusAfter (integrityStatus file options) all⟩
  else some ⟨[], integrityStatus file options⟩

/-! ## Runs that end -/

theorem exists_metadataMessages : ∃ messages, metadataMessages icu file options = some messages := by
  rw [metadataMessages]
  split
  · obtain ⟨errors, herrors⟩ := Metadata.exists_check icu
      (file.metadata.foldl (fun m mi => m.set mi.1 mi.2.value mi.2.mimeType) (⟨∅⟩ : Metadata))
    rw [testMetadata, herrors]
    exact ⟨_, rfl⟩
  · exact ⟨[], rfl⟩

/-- The search for loops ends when the redirects stay within the archive. -/
theorem exists_testRedirectLoop {archive : Archive}
    (h : TargetsInRange (archive.entries.map Entry.addition)) :
    ∃ messages, testRedirectLoop archive = some messages := by
  have hsize : (RedirectionTable.build (archive.entries.map Entry.addition)).size =
      (archive.entries.map Entry.addition).length := build_size _
  have hindices : ∀ q ∈ (List.range (archive.entries.map Entry.addition).length).map UInt32.ofNat,
      q.toNat < (archive.entries.map Entry.addition).length := by
    intro q hq
    obtain ⟨n, hn, rfl⟩ := List.mem_map.mp hq
    exact Nat.lt_of_le_of_lt (Nat.mod_le _ _) (List.mem_range.mp hn)
  obtain ⟨answers, table, hqueries, -⟩ := Classified.queries_spec h
    (Nat.lt_succ_self (2 * (archive.entries.map Entry.addition).length)) _ _
    (classified_build _) hindices
  rw [testRedirectLoop]
  dsimp only
  rw [hsize, hqueries]
  exact ⟨_, rfl⟩

theorem exists_redirectMessages
    (h : TargetsInRange (file.archive.entries.map Entry.addition)) :
    ∃ messages, redirectMessages file options = some messages := by
  rw [redirectMessages]
  split
  · exact exists_testRedirectLoop h
  · exact ⟨[], rfl⟩

variable {file options} {order : List Entry}

theorem exists_articleMessages (horder : order.Perm file.archive.entries)
    (h : ∀ e ∈ order, entryMessages file.archive options e ≠ none) :
    ∃ messages, articleMessages file options order = some messages := by
  rw [articleMessages]
  split
  · have hentries : ∀ e ∈ order, entryMessages file.archive options e =
        some ((entryMessages file.archive options e).getD []) := fun e he =>
      (Option.getD_of_ne_none (h e he) []).symm
    obtain ⟨redundant, hrun, -⟩ := testArticles_defined
      (horder.nodup_iff.mpr (entries_nodup file.archive)) (fun e he => horder.mem_iff.mp he)
      hentries
    exact ⟨_, hrun⟩
  · exact ⟨[], rfl⟩

/-- A run ends with its messages unless a page is read beyond its end or a
redirect points out of the archive. -/
theorem exists_run (horder : order.Perm file.archive.entries)
    (hpages : ∀ e ∈ order, entryMessages file.archive options e ≠ none)
    (htargets : TargetsInRange (file.archive.entries.map Entry.addition)) :
    ∃ run, zimcheck icu file options order = some run := by
  obtain ⟨metadata, hmetadata⟩ := exists_metadataMessages icu file options
  obtain ⟨articles, harticles⟩ := exists_articleMessages horder hpages
  obtain ⟨redirects, hredirects⟩ := exists_redirectMessages file options htargets
  rw [zimcheck]
  split
  · rw [archiveMessages, hmetadata, harticles, hredirects]
    exact ⟨_, rfl⟩
  · exact ⟨_, rfl⟩

end Zimcheck
end ZimTools
