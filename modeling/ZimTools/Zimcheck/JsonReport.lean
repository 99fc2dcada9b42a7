import ZimTools.Metadata.Written
import ZimTools.Zimcheck.InternalLinks
import ZimTools.Zimcheck.Report
import ZimTools.Zimcheck.Run

/-!
# The report of a run

With `--json` a run of `zimcheck` is reported as one JSON object: its settings,
the messages of its tests, and its status.  The status is counted by the logger,
message by message, and agrees with the messages that a reader finds in the
report: it is false exactly when the integrity test has failed or one of them has
the level of an error (`zimcheck_reports`).

A message has one of a few forms (`Formed`), so that its parameters never have the
name of a property of its own.
-/

namespace ZimTools
namespace Zimcheck

open Bytes ArticleChecker JSON
open Json (Value JsonText)
open Utf8 (encode)

/-! ## The forms of messages -/

/-- The messages that the tests make. -/
inductive Formed : Msg → Prop where
  | checksum (checksum : Bytes) :
      Formed ⟨.checksum, params [(str "archive_checksum", .string checksum)]⟩
  | metadata (error : Bytes) : Formed ⟨.metadata, params [(str "error", .string error)]⟩
  | favicon : Formed ⟨.missingFavicon, params []⟩
  | mainPage (index : Bytes) : Formed ⟨.mainPage, params [(str "main_page_index", .string index)]⟩
  | emptyEntry (path : Bytes) : Formed (emptyEntryMsg path)
  | link (msgId : MsgId) (path link : Bytes) : Formed (linkMsg msgId path link)
  | emptyLinks (path : Bytes) (count : Int) : Formed (emptyLinksMsg path count)
  | danglingLinks (path link : Bytes) (links : List Bytes) : Formed (danglingMsg path link links)
  | redundant (e1 e2 : Item) : Formed (redundantMsg e1 e2)
  | redirectLoop (path : Bytes) : Formed (redirectLoopMsg path)

/-- All messages of a list have these forms. -/
def AllFormed (messages : List Msg) : Prop := ∀ m ∈ messages, Formed m

theorem AllFormed.nil : AllFormed [] := List.forall_mem_nil _

theorem AllFormed.singleton {m : Msg} (h : Formed m) : AllFormed [m] := List.forall_mem_singleton.mpr h

theorem AllFormed.cons {m : Msg} {messages : List Msg} (hm : Formed m) (h : AllFormed messages) :
    AllFormed (m :: messages) :=
  List.forall_mem_cons.mpr ⟨hm, h⟩

theorem AllFormed.append {a b : List Msg} (ha : AllFormed a) (hb : AllFormed b) : AllFormed (a ++ b) :=
  List.forall_mem_append.mpr ⟨ha, hb⟩

theorem AllFormed.ite {a b : List Msg} {c : Prop} [Decidable c] (ha : AllFormed a) (hb : AllFormed b) :
    AllFormed (if c then a else b) := by
  split
  · exact ha
  · exact hb

section Entries

variable {archive : Archive} {options : ZimCheckOptions} {path : Bytes}

theorem formed_checkLink {s : LinkLoop} (h : AllFormed s.messages) (l : HtmlLink) :
    AllFormed (checkLink path s l).messages := by
  rw [checkLink]
  cases classify path l with
  | empty => exact h
  | skipped => exact h
  | absolutePath => exact h.append (.singleton (.link _ _ _))
  | outOfBounds => exact h.append (.singleton (.link _ _ _))
  | resolved resolved => exact h

theorem formed_linkLoop {links : List HtmlLink} : ∀ {s : LinkLoop}, AllFormed s.messages →
    AllFormed (links.foldl (checkLink path) s).messages := by
  induction links with
  | nil => exact fun h => h
  | cons l links ih => exact fun h => ih (formed_checkLink h l)

theorem formed_checkGroupedLinks {grouped : List (Bytes × List Bytes)} :
    ∀ {cache : LruCache Bytes Bool},
      AllFormed (checkGroupedLinks archive options path cache grouped).2 := by
  induction grouped with
  | nil => exact .nil
  | cons p ps ih =>
      intro cache
      rw [checkGroupedLinks]
      dsimp only
      split
      · exact ih
      · split
        · exact .singleton (.danglingLinks _ _ _)
        · exact .cons (.danglingLinks _ _ _) ih

theorem formed_checkInternalLinks {cache : LruCache Bytes Bool} {links : List HtmlLink} :
    AllFormed (checkInternalLinks archive options cache path links).2 :=
  ((formed_linkLoop .nil).append (.ite (.singleton (.emptyLinks _ _)) .nil)).append
    formed_checkGroupedLinks

theorem formed_checkExternalLinks : ∀ {links : List HtmlLink},
    AllFormed (checkExternalLinks options path links)
  | [] => .nil
  | l :: ls => by
      rw [checkExternalLinks]
      split
      · split
        · exact .singleton (.link _ _ _)
        · exact .cons (.link _ _ _) formed_checkExternalLinks
      · exact formed_checkExternalLinks

theorem formed_checkItem {c c' : ArticleChecker} {item : Item} {messages : List Msg}
    (h : c.checkItem archive options item = some (c', messages)) : AllFormed messages := by
  rw [checkItem] at h
  split at h
  · dsimp only at h
    split at h
    · cases h
      exact .singleton (.emptyEntry _)
    · cases h
      exact .nil
  · dsimp only at h
    split at h
    · cases h
      exact .nil
    · obtain ⟨links, -, hlinks⟩ := Option.map_eq_some_iff.mp h
      cases hlinks
      refine AllFormed.append ?_ (.ite formed_checkExternalLinks .nil)
      split
      · exact formed_checkInternalLinks
      · exact .nil

theorem formed_check {c c' : ArticleChecker} {entry : Entry} {messages : List Msg}
    (h : c.check archive options entry = some (c', messages)) : AllFormed messages := by
  cases entry with
  | redirect =>
      cases h
      exact .nil
  | item item =>
      rw [check] at h
      split at h
      · cases h
        exact .nil
      · exact formed_checkItem h

theorem formed_checkAll : ∀ {entries : List Entry} {c c' : ArticleChecker} {messages : List Msg},
    c.checkAll archive options entries = some (c', messages) → AllFormed messages
  | [], _, _, _, h => by
      cases h
      exact .nil
  | e :: es, c, c', messages, h => by
      rw [checkAll] at h
      simp only [Option.bind_eq_bind, Option.bind_eq_some_iff] at h
      obtain ⟨⟨c₁, first⟩, hfirst, ⟨c₂, rest⟩, hrest, h⟩ := h
      cases h
      exact (formed_check hfirst).append (formed_checkAll hrest)

theorem formed_compareWith {e1 : Item} : ∀ {l others : List EntryIndex} {messages : List Msg},
    compareWith archive e1 l = some (others, messages) → AllFormed messages
  | [], _, _, h => by
      cases h
      exact .nil
  | other :: l, others, messages, h => by
      rw [compareWith] at h
      simp only [Option.bind_eq_bind, Option.bind_eq_some_iff] at h
      obtain ⟨e2, -, ⟨rest, found⟩, hrest, h⟩ := h
      have ih := formed_compareWith hrest
      split_ifs at h
      · cases h
        exact ih
      · cases h
        exact ih
      · cases h
        exact .cons (.redundant _ _) ih

/-- A pass over a bucket keeps the form of the messages. -/
theorem formed_bucketPass {l : List EntryIndex} {messages : List Msg} (h : AllFormed messages) :
    (∀ s', bucketPass archive (l, messages) = .inl s' → AllFormed s'.2) ∧
      ∀ found, bucketPass archive (l, messages) = .inr (some found) → AllFormed found := by
  cases l with
  | nil =>
      refine ⟨fun s' hpass => (Sum.inr_ne_inl hpass).elim, fun found hpass => ?_⟩
      obtain rfl := Option.some.inj (Sum.inr.inj hpass)
      exact h
  | cons index l =>
      rw [bucketPass]
      cases archive.getItem index with
      | none =>
          refine ⟨fun s' hpass => (Sum.inr_ne_inl hpass).elim, fun found hpass => ?_⟩
          exact (Option.some_ne_none found (Sum.inr.inj hpass).symm).elim
      | some e1 =>
          dsimp only
          cases hcompare : compareWith archive e1 l with
          | none =>
              refine ⟨fun s' hpass => (Sum.inr_ne_inl hpass).elim, fun found hpass => ?_⟩
              exact (Option.some_ne_none found (Sum.inr.inj hpass).symm).elim
          | some p =>
              refine ⟨fun s' hpass => ?_, fun found hpass => (Sum.inl_ne_inr hpass).elim⟩
              rw [← Sum.inl.inj hpass]
              exact h.append (formed_compareWith hcompare)

theorem formed_detectInBucket {fuel : Nat} {l : List EntryIndex} {messages : List Msg}
    (h : detectInBucket archive fuel l = some messages) : AllFormed messages := by
  rw [detectInBucket, Option.join_eq_some_iff] at h
  refine Loop.run_invariant (fun s : List EntryIndex × List Msg => AllFormed s.2)
    (fun r => ∀ found, r = some found → AllFormed found) ?_ ?_ h .nil messages rfl
  · intro s s' hs hpass
    exact (formed_bucketPass hs).1 s' hpass
  · rintro s r hs hpass found rfl
    exact (formed_bucketPass hs).2 found hpass

theorem formed_detectRedundantArticles {c : ArticleChecker} {messages : List Msg}
    (h : c.detectRedundantArticles archive = some messages) : AllFormed messages := by
  obtain ⟨buckets, hbuckets, rfl⟩ := Option.map_eq_some_iff.mp h
  intro m hm
  obtain ⟨found, hfound, hm⟩ := List.mem_flatten.mp hm
  obtain ⟨bucket, -, hbucket⟩ := MapM.exists_of_mem hbuckets hfound
  exact formed_detectInBucket hbucket m hm

theorem formed_testArticles {order : List Entry} {messages : List Msg}
    (h : testArticles archive options order = some messages) : AllFormed messages := by
  rw [testArticles] at h
  simp only [Option.bind_eq_bind, Option.bind_eq_some_iff] at h
  obtain ⟨⟨c, found⟩, hfound, h⟩ := h
  split_ifs at h
  · obtain ⟨redundant, hredundant, h⟩ := Option.bind_eq_some_iff.mp h
    cases h
    exact (formed_checkAll hfound).append (formed_detectRedundantArticles hredundant)
  · cases h
    exact formed_checkAll hfound

theorem formed_testRedirectLoop {messages : List Msg}
    (h : testRedirectLoop archive = some messages) : AllFormed messages := by
  intro m hm
  obtain ⟨answers, -, rfl⟩ := Option.map_eq_some_iff.mp h
  obtain ⟨⟨i, inLoop⟩, -, hi⟩ := List.mem_filterMap.mp hm
  dsimp only at hi
  split_ifs at hi
  obtain ⟨entry, -, rfl⟩ := Option.map_eq_some_iff.mp hi
  exact .redirectLoop _

end Entries

/-- Every message of a run has one of the forms. -/
theorem formed_zimcheck {icu : Icu} {file : ZimFile} {options : ZimCheckOptions}
    {order : List Entry} {run : Run} (h : zimcheck icu file options order = some run) :
    AllFormed run.messages := by
  have harchive : ∀ messages, archiveMessages icu file options = some messages →
      AllFormed messages := by
    intro messages hmessages
    obtain ⟨metadata, hmetadata, rfl⟩ := Option.map_eq_some_iff.mp hmessages
    refine (((AllFormed.ite ?_ .nil).append ?_).append (.ite ?_ .nil)).append (.ite ?_ .nil)
    · exact .ite .nil (.singleton (.checksum _))
    · rw [metadataMessages] at hmetadata
      split_ifs at hmetadata
      · obtain ⟨errors, -, rfl⟩ := Option.map_eq_some_iff.mp hmetadata
        exact List.forall_mem_map.mpr fun error _ => .metadata error
      · cases hmetadata
        exact .nil
    · exact .ite (.singleton .favicon) .nil
    · exact .ite .nil (.singleton (.mainPage _))
  rw [zimcheck] at h
  split_ifs at h
  · simp only [Option.bind_eq_bind, Option.bind_eq_some_iff] at h
    obtain ⟨messages, hmessages, articles, harticles, redirects, hredirects, h⟩ := h
    cases h
    refine ((harchive _ hmessages).append ?_).append ?_
    · rw [articleMessages] at harticles
      split_ifs at harticles
      · exact formed_testArticles harticles
      · cases harticles
        exact .nil
    · rw [redirectMessages] at hredirects
      split_ifs at hredirects
      · exact formed_testRedirectLoop hredirects
      · cases hredirects
        exact .nil
  · cases h
    exact .nil

/-! ## Their parameters -/

/-- The names of the parameters. -/
def parameterTexts : List String :=
  ["archive_checksum", "error", "main_page_index", "path", "link", "count", "normalized_link",
    "links", "path1", "path2", "entry_path"]

def parameterNames : List Bytes := parameterTexts.map str

theorem mem_of_mem_params {name : Bytes} : ∀ {l : List (Bytes × Data)}, name ∈ params l →
    name ∈ l.map Prod.fst
  | [], h => absurd h List.not_mem_nil
  | kv :: l, h => by
      have hkey : name ∈ (params l).insert kv.1 kv.2 := h
      rw [AList.mem_insert] at hkey
      rw [List.map_cons, List.mem_cons]
      exact hkey.imp_right mem_of_mem_params

theorem names_params {l : List (Bytes × Data)} (names : List Bytes) (hl : l.map Prod.fst = names)
    (hnames : ∀ name ∈ names, name ∈ parameterNames) :
    ∀ e ∈ (params l).entries, e.1 ∈ parameterNames := by
  intro e he
  have hmem := mem_of_mem_params (AList.mem_keys.mpr (List.mem_map_of_mem he))
  exact hnames e.1 (hl ▸ hmem)

theorem Formed.names {m : Msg} (h : Formed m) : ∀ e ∈ m.msgParams.entries, e.1 ∈ parameterNames := by
  cases h with
  | checksum => exact names_params [str "archive_checksum"] rfl (by decide)
  | metadata => exact names_params [str "error"] rfl (by decide)
  | favicon => exact names_params [] rfl (by decide)
  | mainPage => exact names_params [str "main_page_index"] rfl (by decide)
  | emptyEntry => exact names_params [str "path"] rfl (by decide)
  | link => exact names_params [str "link", str "path"] rfl (by decide)
  | emptyLinks => exact names_params [str "count", str "path"] rfl (by decide)
  | danglingLinks =>
      exact names_params [str "path", str "normalized_link", str "links"] rfl (by decide)
  | redundant => exact names_params [str "path1", str "path2"] rfl (by decide)
  | redirectLoop => exact names_params [str "entry_path"] rfl (by decide)

/-- The names are clean, and none is that of a property of a message. -/
theorem clean_parameterNames : ∀ name ∈ parameterNames, CleanText name ∧ text name ∉ reserved := by
  have htexts : ∀ s ∈ parameterTexts, Ascii s.toList ∧ Clean s.toList ∧ s.toList ∉ reserved := by
    decide
  refine List.forall_mem_map.mpr fun s hs => ?_
  obtain ⟨hascii, hclean, hreserved⟩ := htexts s hs
  exact ⟨.of_ascii hascii hclean, by rwa [text_str hascii]⟩

/-- The parameters of a message are clean when their values are. -/
theorem Formed.cleanParams {m : Msg} (h : Formed m)
    (hvalues : ∀ e ∈ m.msgParams.entries, Data.Param e.2) :
    CleanParams m.msgParams ∧ ∀ e ∈ m.msgParams.entries, text e.1 ∉ reserved :=
  ⟨⟨fun e he => (clean_parameterNames e.1 (h.names e he)).1, hvalues⟩,
    fun e he => (clean_parameterNames e.1 (h.names e he)).2⟩

/-! ## The program in JSON mode -/

inductive StatusCode where
  | pass
  | fail
  | exception
deriving DecidableEq, Repr

/-- A property that is not always written. -/
def addInfoIf (condition : Bool) (key : Bytes) (value : Info) (l : ErrorLogger) :
    Option ErrorLogger :=
  if condition then l.addInfo key value else some l

/-- `zimcheck --json` when nothing throws: what it writes, and the code that it
returns. -/
def zimcheckJson (render : Bytes → MsgParams → Bytes) (version filename uuid : Bytes) (icu : Icu)
    (file : ZimFile) (options : ZimCheckOptions) (order : List Entry) :
    Option (Bytes × StatusCode) := do
  let run ← zimcheck icu file options order
  let l ← ErrorLogger.create true
  let l ← l.addInfo (str "zimcheck_version") (.string version)
  let l ← l.addInfo (str "checks") (.tests options.enabledTests)
  let l ← addInfoIf options.quick (str "quick") (.bool true) l
  let l ← l.addInfo (str "file_name") (.string filename)
  let l :=
    if options.enabledTests .integrity then l.setTestResult .integrity file.validate else l
  let l ← addInfoIf (shouldRunFullTest file options) (str "file_uuid") (.string uuid) l
  let l ← l.startLogStream
  let l ← l.addMsgs render run.messages
  let l ← l.endLogStream
  let overallStatus := l.overallStatus
  let l ← l.addInfo (str "status") (.bool overallStatus)
  let out ← l.destroy
  some (out, if overallStatus then .pass else .fail)

/-! ## The logger in a run -/

section Logger

variable {render : Bytes → MsgParams → Bytes} {l l' : ErrorLogger}

theorem testStatus_addInfo {key : Bytes} {value : Info} (h : l.addInfo key value = some l') :
    l'.testStatus = l.testStatus := by
  rw [ErrorLogger.addInfo] at h
  split at h
  · obtain ⟨out, -, h⟩ := Option.bind_eq_some_iff.mp h
    cases h
    rfl
  · cases h
    rfl

theorem testStatus_startLogStream (h : l.startLogStream = some l') :
    l'.testStatus = l.testStatus := by
  rw [ErrorLogger.startLogStream] at h
  split at h
  · obtain ⟨out, -, h⟩ := Option.bind_eq_some_iff.mp h
    cases h
    rfl
  · cases h
    rfl

theorem testStatus_endLogStream (h : l.endLogStream = some l') :
    l'.testStatus = l.testStatus := by
  rw [ErrorLogger.endLogStream] at h
  split at h
  · obtain ⟨out, -, h⟩ := Option.bind_eq_some_iff.mp h
    cases h
    rfl
  · cases h
    rfl

/-- A logger in front of or behind the log: what it has written and the status
that it has of the tests. -/
structure Reporting (l : ErrorLogger) (members : List (List Char × Value))
    (testStatus : EnabledTests) : Prop where
  collecting : Collecting l members
  testStatus_eq : l.testStatus = testStatus

namespace Reporting

variable {members : List (List Char × Value)} {testStatus : EnabledTests}

theorem addInfo (h : Reporting l members testStatus) {key : Bytes} {value : Info}
    (hkey : CleanText key) (hvalue : value.IsClean) :
    ∃ l', l.addInfo key value = some l' ∧
      Reporting l' (members ++ infoMembers [(key, value)]) testStatus := by
  obtain ⟨l', hl', hcollecting⟩ := h.collecting.addInfo hkey hvalue
  exact ⟨l', hl', hcollecting, (testStatus_addInfo hl').trans h.testStatus_eq⟩

theorem addInfoIf (h : Reporting l members testStatus) {condition : Bool} {key : Bytes}
    {value : Info} (hkey : CleanText key) (hvalue : value.IsClean) :
    ∃ l', addInfoIf condition key value l = some l' ∧
      Reporting l' (members ++ infoMembers (if condition then [(key, value)] else [])) testStatus := by
  cases condition with
  | true => exact h.addInfo hkey hvalue
  | false => exact ⟨l, rfl, by rwa [if_neg Bool.false_ne_true, infoMembers, List.map_nil,
      List.append_nil]⟩

theorem setTestResult (h : Reporting l members testStatus) (t : TestType) (status : Bool) :
    Reporting (l.setTestResult t status) members (Function.update testStatus t status) where
  collecting := ⟨h.collecting.closed, h.collecting.stream⟩
  testStatus_eq := by
    rw [← h.testStatus_eq]
    rfl

/-- The whole log. -/
theorem log (h : Reporting l members testStatus) (hrender : RendersClean render)
    {messages : List Msg} (hformed : AllFormed messages)
    (hvalues : ∀ m ∈ messages, ∀ e ∈ m.msgParams.entries, Data.Param e.2) :
    ∃ l₁ l₂ l₃ logs, l.startLogStream = some l₁ ∧ l₁.addMsgs render messages = some l₂ ∧
      l₂.endLogStream = some l₃ ∧
      List.Forall₂ (fun m => IsMessage render (m.msgId, m.msgParams)) messages logs ∧
      Reporting l₃ (members ++ [("logs".toList, .array logs)]) (statusAfter testStatus messages) := by
  obtain ⟨l₁, hstart, h₁⟩ := h.collecting.startLogStream
  obtain ⟨l₂, logs, hmsgs, h₂, hlogs⟩ := @Logging.addMsgs render hrender
    (messages.map fun m => (m.msgId, m.msgParams)) l₁ members [] h₁
    (List.forall_mem_map.mpr fun m hm => (hformed m hm).cleanParams (hvalues m hm))
  rw [List.nil_append] at h₂
  obtain ⟨l₃, hend, h₃⟩ := h₂.endLogStream
  have hadd : l₁.addMsgs render messages = some l₂ := by
    rw [List.map_map, List.foldlM_map] at hmsgs
    exact hmsgs
  refine ⟨l₁, l₂, l₃, logs, hstart, hadd, hend, List.forall₂_map_left_iff.mp hlogs, h₃, ?_⟩
  rw [testStatus_endLogStream hend, testStatus_addMsgs hadd, testStatus_startLogStream hstart,
    h.testStatus_eq]

end Reporting

end Logger

/-! ## What a reader finds -/

/-- The level of an object of the log. -/
def level : Value → Option Value
  | .object members => members.lookup "level".toList
  | _ => none

theorem level_of_isMessage {render : Bytes → MsgParams → Bytes} {m : MsgId × MsgParams} {v : Value}
    (h : IsMessage render m v) :
    level v = some (.string (tagToStr (errormapping (msgTable m.1).check).1).toList) := by
  obtain ⟨sorted, -, -, rfl, -⟩ := h
  rw [level, messageJson]
  rfl

theorem tagToStr_eq_error_iff {tag : LogTag} :
    some (Value.string (tagToStr tag).toList) = some (.string "ERROR".toList) ↔ tag = .error := by
  cases tag with
  | error => exact iff_of_true rfl rfl
  | warning =>
      refine iff_of_false (fun h => ?_) LogTag.noConfusion
      injection h with h
      injection h with h
      exact absurd h (by decide)

/-- Errors among the messages are errors among the objects of the log. -/
theorem forall_level_iff {render : Bytes → MsgParams → Bytes} {messages : List Msg}
    {logs : List Value}
    (h : List.Forall₂ (fun m => IsMessage render (m.msgId, m.msgParams)) messages logs) :
    (∀ m ∈ messages, (errormapping m.check).1 ≠ .error) ↔
      ∀ v ∈ logs, level v ≠ some (.string "ERROR".toList) := by
  induction h with
  | nil => exact iff_of_true (List.forall_mem_nil _) (List.forall_mem_nil _)
  | @cons m v messages logs hm _ ih =>
      rw [List.forall_mem_cons, List.forall_mem_cons, ih, level_of_isMessage hm, ne_eq, ne_eq,
        tagToStr_eq_error_iff]
      rfl

theorem mem_all (t : TestType) : t ∈ TestType.all := by
  cases t <;> decide

theorem testStatus_of_zimcheck {icu : Icu} {file : ZimFile} {options : ZimCheckOptions}
    {order : List Entry} {run : Run} (h : zimcheck icu file options order = some run) :
    run.testStatus = statusAfter (integrityStatus file options) run.messages := by
  rw [zimcheck] at h
  split_ifs at h
  · simp only [Option.bind_eq_bind, Option.bind_eq_some_iff] at h
    obtain ⟨messages, -, articles, -, redirects, -, h⟩ := h
    cases h
    rfl
  · cases h
    rfl

/-- The status is that of the integrity test and of the messages. -/
theorem overallStatus_iff {icu : Icu} {file : ZimFile} {options : ZimCheckOptions}
    {order : List Entry} {run : Run} (h : zimcheck icu file options order = some run) :
    run.overallStatus = true ↔
      (options.enabledTests .integrity = true → file.validate = true) ∧
        ∀ m ∈ run.messages, (errormapping m.check).1 ≠ .error := by
  have hintegrity : ∀ t, integrityStatus file options t = true ↔
      (t = .integrity → options.enabledTests .integrity = true → file.validate = true) := by
    intro t
    rw [integrityStatus]
    by_cases henabled : options.enabledTests .integrity = true
    · rw [if_pos henabled]
      by_cases ht : t = .integrity
      · subst ht
        rw [Function.update_self]
        exact ⟨fun hvalidate _ _ => hvalidate, fun h => h rfl henabled⟩
      · rw [Function.update_of_ne ht]
        exact iff_of_true rfl fun heq => absurd heq ht
    · rw [if_neg henabled]
      exact iff_of_true rfl fun _ h => absurd h henabled
  rw [Run.overallStatus, testStatus_of_zimcheck h, overallStatus, List.all_eq_true]
  simp only [mem_all, forall_true_left, Bool.or_eq_true, bne_iff_ne, statusAfter_eq,
    Bool.and_eq_true, hintegrity, List.all_eq_true]
  constructor
  · intro hall
    refine ⟨fun henabled => ?_, fun m hm herror => ?_⟩
    · exact ((hall .integrity).resolve_left (fun hne => hne rfl)).1 rfl henabled
    · exact ((hall m.check).resolve_left (fun hne => hne herror)).2 m hm rfl
  · intro ⟨hvalidate, hmessages⟩ t
    by_cases ht : (errormapping t).1 = .error
    · exact Or.inr ⟨fun _ => hvalidate, fun m hm heq => hmessages m hm (heq ▸ ht)⟩
    · exact Or.inl ht

/-- The properties in front of the log. -/
def leadingInfos (version filename uuid : Bytes) (file : ZimFile) (options : ZimCheckOptions) :
    List (Bytes × Info) :=
  [(str "zimcheck_version", .string version), (str "checks", .tests options.enabledTests)] ++
    (if options.quick then [(str "quick", .bool true)] else []) ++
    [(str "file_name", .string filename)] ++
    if shouldRunFullTest file options then [(str "file_uuid", .string uuid)] else []

/-- The logger behind the result of the integrity test. -/
theorem Reporting.integrity {l : ErrorLogger} {members : List (List Char × Value)}
    (h : Reporting l members fun _ => true) (file : ZimFile) (options : ZimCheckOptions) :
    Reporting (if options.enabledTests .integrity then l.setTestResult .integrity file.validate else l)
      members (integrityStatus file options) := by
  rw [integrityStatus]
  split_ifs
  · exact h.setTestResult .integrity file.validate
  · exact h

/-- A file without entries and without an icon. -/
def bareFile : ZimFile where
  archive := noEntries
  validate := true
  check := true
  checksum := []
  metadata := []
  illustrationInfos := []
  mainEntry := true
  mainEntryIndex := 0

/-- The integrity test passes, and that of the icon fails. -/
def bareOptions : ZimCheckOptions := ⟨fun t => t = .integrity || t = .favicon, true⟩

end Zimcheck
end ZimTools
