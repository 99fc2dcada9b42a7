import ZimTools.Zimcheck.CheckOrder
import ZimTools.Zimcheck.Run

/-!
# Quick runs

A quick run stops the loops over the dangling links and over the external links
of a page at their first message.  Nothing else differs from a full run, so its
messages are some of the messages of the full run, and a page with messages of
some kind keeps one of them (`Abridges`).  The tests that fail are the same
(`quick_run`).
-/

namespace ZimTools
namespace Zimcheck

open Bytes ArticleChecker

/-! ## Abridged lists of messages -/

/-- The parameters that name an entry. -/
def entryParams : List Bytes := [str "path", str "path1", str "path2", str "entry_path"]

/-- The paths of the entries that a message is about. -/
def Msg.paths (m : Msg) : List Bytes :=
  entryParams.filterMap fun name =>
    match m.msgParams.lookup name with
    | some (.string path) => some path
    | _ => none

/-- Some of the messages, with at least one of each kind for each entry. -/
structure Abridges (quick full : List Msg) : Prop where
  sublist : quick.Sublist full
  kinds : ∀ m ∈ full, ∃ m' ∈ quick, m'.msgId = m.msgId ∧ m'.paths = m.paths

theorem Abridges.refl (messages : List Msg) : Abridges messages messages :=
  ⟨.refl messages, fun m hm => ⟨m, hm, rfl, rfl⟩⟩

theorem Abridges.append {quick full quick' full' : List Msg} (h : Abridges quick full)
    (h' : Abridges quick' full') : Abridges (quick ++ quick') (full ++ full') where
  sublist := h.sublist.append h'.sublist
  kinds := by
    intro m hm
    rcases List.mem_append.mp hm with hm | hm
    · obtain ⟨m', hm', hsame⟩ := h.kinds m hm
      exact ⟨m', List.mem_append_left _ hm', hsame⟩
    · obtain ⟨m', hm', hsame⟩ := h'.kinds m hm
      exact ⟨m', List.mem_append_right _ hm', hsame⟩

/-- Of messages of one kind for one entry it is enough to have the first. -/
theorem abridges_take {messages : List Msg} {msgId : MsgId} {paths : List Bytes}
    (h : ∀ m ∈ messages, m.msgId = msgId ∧ m.paths = paths) :
    Abridges (messages.take 1) messages where
  sublist := List.take_sublist 1 messages
  kinds := by
    intro m hm
    cases messages with
    | nil => exact nomatch hm
    | cons m' messages =>
        obtain ⟨hid, hpaths⟩ := h m hm
        obtain ⟨hid', hpaths'⟩ := h m' (List.mem_cons_self ..)
        exact ⟨m', List.mem_cons_self .., hid'.trans hid.symm, hpaths'.trans hpaths.symm⟩

theorem paths_danglingMsg (path link : Bytes) (links : List Bytes) :
    (danglingMsg path link links).paths = [path] := by
  simp [Msg.paths, entryParams, danglingMsg, lookup_params, lookup_params_nil, str, char]

theorem paths_linkMsg (msgId : MsgId) (path link : Bytes) :
    (linkMsg msgId path link).paths = [path] := by
  simp [Msg.paths, entryParams, linkMsg, lookup_params, lookup_params_nil, str, char]

/-! ## The messages of an entry -/

section Entry

variable (archive : Archive) (enabledTests : EnabledTests)

theorem reported_abridges {messages : List Msg} (msgId : MsgId) (paths : List Bytes)
    (h : ∀ m ∈ messages, m.msgId = msgId ∧ m.paths = paths) :
    Abridges (reported ⟨enabledTests, true⟩ messages) (reported ⟨enabledTests, false⟩ messages) :=
  abridges_take h

theorem internalMessages_abridges (path : Bytes) (links : List HtmlLink) :
    Abridges (internalMessages archive ⟨enabledTests, true⟩ path links)
      (internalMessages archive ⟨enabledTests, false⟩ path links) := by
  refine (Abridges.refl _).append (reported_abridges enabledTests .danglingLinks [path]
    fun m hm => ?_)
  obtain ⟨p, -, rfl⟩ := List.mem_map.mp hm
  exact ⟨rfl, paths_danglingMsg path p.1 p.2⟩

theorem externalMessages_abridges (path : Bytes) (links : List HtmlLink) :
    Abridges (reported ⟨enabledTests, true⟩ (externalMessages path links))
      (reported ⟨enabledTests, false⟩ (externalMessages path links)) := by
  refine reported_abridges enabledTests .externalLink [path] fun m hm => ?_
  obtain ⟨l, -, rfl⟩ := List.mem_map.mp hm
  exact ⟨rfl, paths_linkMsg .externalLink path l.link⟩

theorem pageMessages_abridges (path : Bytes) (links : List HtmlLink) :
    Abridges (pageMessages archive ⟨enabledTests, true⟩ path links)
      (pageMessages archive ⟨enabledTests, false⟩ path links) := by
  refine Abridges.append ?_ ?_
  · by_cases hinternal : enabledTests .urlInternal = true
    · rw [if_pos hinternal, if_pos hinternal]
      exact internalMessages_abridges archive enabledTests path links
    · rw [if_neg hinternal, if_neg hinternal]
      exact .refl []
  · by_cases hexternal : enabledTests .urlExternal = true
    · rw [if_pos hexternal, if_pos hexternal]
      exact externalMessages_abridges enabledTests path links
    · rw [if_neg hexternal, if_neg hexternal]
      exact .refl []

/-- Two results of which one abridges the other, or both are undefined. -/
inductive BothAbridge : Option (List Msg) → Option (List Msg) → Prop where
  | undefined : BothAbridge none none
  | defined {quick full : List Msg} (h : Abridges quick full) : BothAbridge (some quick) (some full)

theorem BothAbridge.cases_eq {quick full : Option (List Msg)} (h : BothAbridge quick full) :
    quick = none ∧ full = none ∨
      ∃ quick' full', quick = some quick' ∧ full = some full' ∧ Abridges quick' full' := by
  cases h with
  | undefined => exact Or.inl ⟨rfl, rfl⟩
  | defined h => exact Or.inr ⟨_, _, rfl, rfl, h⟩

theorem itemMessages_abridges (item : Item) :
    BothAbridge (itemMessages archive ⟨enabledTests, true⟩ item)
      (itemMessages archive ⟨enabledTests, false⟩ item) := by
  rw [itemMessages, itemMessages]
  by_cases hdata : (archive.getData item).length = 0
  · rw [if_pos hdata, if_pos hdata]
    exact .defined (.refl _)
  · rw [if_neg hdata, if_neg hdata]
    by_cases hhtml : item.mimetype = str "text/html"
    · have hlinks : pageLinks archive ⟨enabledTests, true⟩ item =
          pageLinks archive ⟨enabledTests, false⟩ item := rfl
      rw [if_pos hhtml, if_pos hhtml, hlinks]
      cases pageLinks archive ⟨enabledTests, false⟩ item with
      | none => exact .undefined
      | some links =>
          exact .defined (pageMessages_abridges archive enabledTests item.path links)
    · rw [if_neg hhtml, if_neg hhtml]
      exact .defined (.refl _)

theorem entryMessages_abridges (entry : Entry) :
    BothAbridge (entryMessages archive ⟨enabledTests, true⟩ entry)
      (entryMessages archive ⟨enabledTests, false⟩ entry) := by
  rw [entryMessages, entryMessages]
  cases checkedItem archive entry with
  | none => exact .defined (.refl _)
  | some item => exact itemMessages_abridges archive enabledTests item

theorem BothAbridge.cons {quick full : Option (List Msg)} {quicks fulls : Option (List (List Msg))}
    (h : BothAbridge quick full)
    (h' : BothAbridge (quicks.map List.flatten) (fulls.map List.flatten)) :
    BothAbridge ((quick.bind fun m => quicks.bind fun ms => some (m :: ms)).map List.flatten)
      ((full.bind fun m => fulls.bind fun ms => some (m :: ms)).map List.flatten) := by
  cases h with
  | undefined => exact .undefined
  | defined hmessages =>
      cases quicks with
      | none =>
          cases fulls with
          | none => exact .undefined
          | some fulls => exact nomatch h'
      | some quicks =>
          cases fulls with
          | none => exact nomatch h'
          | some fulls =>
              cases h' with
              | defined hrest => exact .defined (hmessages.append hrest)

theorem mapM_abridges : ∀ order : List Entry,
    BothAbridge ((order.mapM (entryMessages archive ⟨enabledTests, true⟩)).map List.flatten)
      ((order.mapM (entryMessages archive ⟨enabledTests, false⟩)).map List.flatten)
  | [] => .defined (.refl [])
  | e :: es => by
      rw [List.mapM_cons, List.mapM_cons]
      exact (entryMessages_abridges archive enabledTests e).cons (mapM_abridges es)

end Entry

/-! ## The run -/

/-- The messages about redundant items. -/
def redundantMessages (archive : Archive) (options : ZimCheckOptions) (order : List Entry) :
    Option (List Msg) :=
  if options.enabledTests .redundant then
    (⟨Buckets.ofList (tableEntries archive (tableItems archive options order)),
      .create (64 * 1024)⟩ : ArticleChecker).detectRedundantArticles archive
  else some []

theorem testArticles_eq (archive : Archive) (options : ZimCheckOptions) (order : List Entry) :
    testArticles archive options order =
      ((order.mapM (entryMessages archive options)).map List.flatten).bind fun messages =>
        (redundantMessages archive options order).map (messages ++ ·) := by
  have hspec := checkAll_spec options order (checked_create archive)
  cases hmessages : order.mapM (entryMessages archive options) with
  | none =>
      rw [hmessages] at hspec
      rw [testArticles, hspec]
      rfl
  | some messages =>
      rw [hmessages] at hspec
      obtain ⟨c, hc, hchecked⟩ := hspec
      have htable : c.hashMain =
          Buckets.ofList (tableEntries archive (tableItems archive options order)) :=
        hchecked.table
      rw [testArticles, hc, redundantMessages, ← htable]
      cases options.enabledTests .redundant with
      | true =>
          change (c.detectRedundantArticles archive).bind
            (fun redundant => some (messages.flatten ++ redundant)) =
            (c.detectRedundantArticles archive).map (messages.flatten ++ ·)
          exact Option.map_eq_bind.symm
      | false => exact congrArg some (List.append_nil _).symm

section Run

variable (icu : Icu) (file : ZimFile) (enabledTests : EnabledTests) (order : List Entry)

theorem testArticles_abridges (archive : Archive) :
    BothAbridge (testArticles archive ⟨enabledTests, true⟩ order)
      (testArticles archive ⟨enabledTests, false⟩ order) := by
  have hredundant : redundantMessages archive ⟨enabledTests, true⟩ order =
      redundantMessages archive ⟨enabledTests, false⟩ order := rfl
  rw [testArticles_eq, testArticles_eq, hredundant]
  rcases (mapM_abridges archive enabledTests order).cases_eq with
    ⟨hquick, hfull⟩ | ⟨quick, full, hquick, hfull, hentries⟩
  · rw [hquick, hfull]
    exact .undefined
  · rw [hquick, hfull]
    cases redundantMessages archive ⟨enabledTests, false⟩ order with
    | none => exact .undefined
    | some redundant => exact .defined (hentries.append (.refl redundant))

theorem articleMessages_abridges :
    BothAbridge (articleMessages file ⟨enabledTests, true⟩ order)
      (articleMessages file ⟨enabledTests, false⟩ order) := by
  rw [articleMessages, articleMessages]
  dsimp only
  split
  · exact testArticles_abridges enabledTests order file.archive
  · exact .defined (.refl [])

theorem Abridges.statusAfter_eq {quick full : List Msg} (h : Abridges quick full)
    (testStatus : EnabledTests) : statusAfter testStatus quick = statusAfter testStatus full := by
  refine statusAfter_congr testStatus fun t => ?_
  constructor
  · rintro ⟨m, hm, hcheck⟩
    exact ⟨m, h.sublist.subset hm, hcheck⟩
  · rintro ⟨m, hm, hcheck⟩
    obtain ⟨m', hm', hid, -⟩ := h.kinds m hm
    refine ⟨m', hm', ?_⟩
    rw [Msg.check, hid]
    exact hcheck

/-- A quick run and a full one are both undefined, or the quick one abridges the
messages of the full one and leaves the same status of each test. -/
theorem zimcheck_abridges :
    zimcheck icu file ⟨enabledTests, true⟩ order = none ∧
      zimcheck icu file ⟨enabledTests, false⟩ order = none ∨
    ∃ quick full, zimcheck icu file ⟨enabledTests, true⟩ order = some quick ∧
      zimcheck icu file ⟨enabledTests, false⟩ order = some full ∧
      quick.testStatus = full.testStatus ∧ Abridges quick.messages full.messages := by
  have hfull : shouldRunFullTest file ⟨enabledTests, true⟩ =
      shouldRunFullTest file ⟨enabledTests, false⟩ := rfl
  have hintegrity : integrityStatus file ⟨enabledTests, true⟩ =
      integrityStatus file ⟨enabledTests, false⟩ := rfl
  have harchive : archiveMessages icu file ⟨enabledTests, true⟩ =
      archiveMessages icu file ⟨enabledTests, false⟩ := rfl
  have hredirect : redirectMessages file ⟨enabledTests, true⟩ =
      redirectMessages file ⟨enabledTests, false⟩ := rfl
  rw [zimcheck, zimcheck, hfull, hintegrity, harchive, hredirect]
  cases shouldRunFullTest file ⟨enabledTests, false⟩ with
  | false => exact Or.inr ⟨_, _, rfl, rfl, rfl, .refl []⟩
  | true =>
      rw [if_pos rfl, if_pos rfl]
      cases archiveMessages icu file ⟨enabledTests, false⟩ with
      | none => exact Or.inl ⟨rfl, rfl⟩
      | some messages =>
          simp only [Option.bind_eq_bind, Option.bind_some]
          rcases (articleMessages_abridges file enabledTests order).cases_eq with
            ⟨hquick, hfull⟩ | ⟨quick, full, hquick, hfull, harticles⟩
          · rw [hquick, hfull]
            exact Or.inl ⟨rfl, rfl⟩
          · rw [hquick, hfull]
            cases redirectMessages file ⟨enabledTests, false⟩ with
            | none => exact Or.inl ⟨rfl, rfl⟩
            | some redirects =>
                have hall := ((Abridges.refl messages).append harticles).append (.refl redirects)
                exact Or.inr ⟨_, _, rfl, rfl, hall.statusAfter_eq _, hall⟩

/-- For every file, all enabled tests and every order of the checks, a quick run
has the overall status of the full run, it reports some of its messages, and
where the full run has messages of a kind that name an entry the quick run has
one of them.  When the full run reads behind a page the quick run does. -/
theorem quick_run :
    zimcheck icu file ⟨enabledTests, true⟩ order = none ∧
      zimcheck icu file ⟨enabledTests, false⟩ order = none ∨
    ∃ quick full, zimcheck icu file ⟨enabledTests, true⟩ order = some quick ∧
      zimcheck icu file ⟨enabledTests, false⟩ order = some full ∧
      quick.overallStatus = full.overallStatus ∧
      quick.messages.Sublist full.messages ∧
      ∀ path, ∀ m ∈ full.messages, path ∈ m.paths →
        ∃ m' ∈ quick.messages, m'.msgId = m.msgId ∧ path ∈ m'.paths := by
  rcases zimcheck_abridges icu file enabledTests order with
    hnone | ⟨quick, full, hquick, hfull, hstatus, habridges⟩
  · exact Or.inl hnone
  · refine Or.inr ⟨quick, full, hquick, hfull, congrArg overallStatus hstatus,
      habridges.sublist, fun path m hm hpath => ?_⟩
    obtain ⟨m', hm', hid, hpaths⟩ := habridges.kinds m hm
    exact ⟨m', hm', hid, hpaths ▸ hpath⟩

end Run

end Zimcheck
end ZimTools
