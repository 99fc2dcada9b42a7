import ZimTools.Zimcheck.Quick

/-!
# How much a quick run reports

A quick run is to report at most one error of each type for each entry.  The
loops over the dangling links and over the external links keep to that.  The
handlers of the loop over the links of a page do not: they go on with the next
link after a link to an absolute path and after one out of bounds.  So a quick
run keeps to it if and only if no page that it looks at for internal links has
two links of either sort (`quick_counts_iff`).
-/

namespace ZimTools
namespace Zimcheck

open Bytes ArticleChecker

/-- How many messages are of some kind. -/
def countKind (messages : List Msg) (kind : MsgId) : Nat := messages.countP (·.msgId = kind)

/-- How many messages are of some kind and about some entry. -/
def countAbout (messages : List Msg) (path : Bytes) (kind : MsgId) : Nat :=
  messages.countP fun m => m.msgId = kind ∧ m.path = some path

theorem countKind_append (messages messages' : List Msg) (kind : MsgId) :
    countKind (messages ++ messages') kind = countKind messages kind + countKind messages' kind :=
  List.countP_append

theorem countAbout_append (messages messages' : List Msg) (path : Bytes) (kind : MsgId) :
    countAbout (messages ++ messages') path kind =
      countAbout messages path kind + countAbout messages' path kind :=
  List.countP_append

theorem countAbout_eq_countKind {messages : List Msg} {path : Bytes}
    (h : ∀ m ∈ messages, m.About path) (kind : MsgId) :
    countAbout messages path kind = countKind messages kind := by
  refine List.countP_congr fun m hm => ?_
  simp [(h m hm).path]

theorem countAbout_eq_zero {messages : List Msg} {path : Bytes} {kind : MsgId}
    (h : ∀ m ∈ messages, m.msgId = kind → m.path ≠ some path) :
    countAbout messages path kind = 0 := by
  refine List.countP_eq_zero.mpr fun m hm => ?_
  simpa using h m hm

/-- At most one message, of a given kind. -/
structure Single (msgId : MsgId) (messages : List Msg) : Prop where
  length : messages.length ≤ 1
  kind : ∀ m ∈ messages, m.msgId = msgId

theorem single_nil (msgId : MsgId) : Single msgId [] :=
  ⟨Nat.zero_le 1, fun _ hm => nomatch hm⟩

section Single

variable {msgId : MsgId} {messages : List Msg}

theorem Single.count_le (h : Single msgId messages) (kind : MsgId) :
    countKind messages kind ≤ 1 :=
  List.countP_le_length.trans h.length

theorem Single.count_of_ne (h : Single msgId messages) {kind : MsgId} (hne : msgId ≠ kind) :
    countKind messages kind = 0 := by
  refine List.countP_eq_zero.mpr fun m hm => ?_
  rw [h.kind m hm]
  simpa using hne

theorem single_reported {options : ZimCheckOptions} (hquick : options.quick = true)
    (h : ∀ m ∈ messages, m.msgId = msgId) : Single msgId (reported options messages) where
  length := by
    rw [reported, if_pos hquick]
    exact List.length_take_le 1 messages
  kind := fun m hm => h m (mem_of_mem_reported hm)

end Single

/-! ## A page -/

section Page

variable {archive : Archive} {options : ZimCheckOptions} (path : Bytes) (links : List HtmlLink)

/-- The faults of the loop over the links that are of some class. -/
def faultCount (linkClass : LinkClass) : Nat := links.countP (classify path · = linkClass)

theorem count_faultMessages (kind : MsgId) :
    countKind (links.filterMap (faultMessage path)) kind =
      if kind = .absPathLink then faultCount path links .absolutePath
      else if kind = .outOfBoundsLink then faultCount path links .outOfBounds
      else 0 := by
  rw [countKind, List.countP_filterMap]
  by_cases habs : kind = .absPathLink
  · rw [if_pos habs, faultCount]
    refine List.countP_congr fun l _ => ?_
    cases hclass : classify path l <;> simp [faultMessage, hclass, linkMsg, habs]
  · rw [if_neg habs]
    by_cases hout : kind = .outOfBoundsLink
    · rw [if_pos hout, faultCount]
      refine List.countP_congr fun l _ => ?_
      cases hclass : classify path l <;> simp [faultMessage, hclass, linkMsg, hout]
    · rw [if_neg hout]
      refine List.countP_eq_zero.mpr fun l _ => ?_
      have habs' : MsgId.absPathLink ≠ kind := fun heq => habs heq.symm
      have hout' : MsgId.outOfBoundsLink ≠ kind := fun heq => hout heq.symm
      cases hclass : classify path l <;> simp [faultMessage, hclass, linkMsg, habs', hout']

theorem single_emptyLinksMessages : Single .emptyLinks (emptyLinksMessages path links) := by
  rw [emptyLinksMessages]
  split
  · exact ⟨Nat.le_refl 1, fun m hm => by rw [List.mem_singleton.mp hm]; rfl⟩
  · exact single_nil .emptyLinks

variable (archive) in
theorem single_danglingMessages (hquick : options.quick = true)
    (groups : List (Bytes × List Bytes)) :
    Single .danglingLinks (reported options (danglingMessages archive path groups)) := by
  refine single_reported hquick fun m hm => ?_
  obtain ⟨p, -, rfl⟩ := List.mem_map.mp hm
  rfl

theorem single_externalMessages (hquick : options.quick = true) :
    Single .externalLink (reported options (externalMessages path links)) := by
  refine single_reported hquick fun m hm => ?_
  obtain ⟨l, -, rfl⟩ := List.mem_map.mp hm
  rfl

/-- At most one link of a page is to an absolute path, and at most one is out of
bounds. -/
structure FewFaults : Prop where
  absolutePath : faultCount path links .absolutePath ≤ 1
  outOfBounds : faultCount path links .outOfBounds ≤ 1

theorem count_internalMessages (kind : MsgId) :
    countKind (internalMessages archive options path links) kind =
      (if kind = .absPathLink then faultCount path links .absolutePath
        else if kind = .outOfBoundsLink then faultCount path links .outOfBounds
        else 0) + countKind (emptyLinksMessages path links) kind +
      countKind (reported options
        (danglingMessages archive path (linkLoop path links).groupedLinks.toList)) kind := by
  have hloop : (linkLoop path links).messages = links.filterMap (faultMessage path) := by
    rw [linkLoop_eq]
  rw [internalMessages, countKind_append, countKind_append, hloop, count_faultMessages]

variable (archive) in
theorem internalMessages_few_iff (hquick : options.quick = true) :
    (∀ kind ∈ entryKinds, countKind (internalMessages archive options path links) kind ≤ 1) ↔
      FewFaults path links := by
  have hempty := single_emptyLinksMessages path links
  have hdangling := single_danglingMessages archive path hquick
    (linkLoop path links).groupedLinks.toList
  simp only [count_internalMessages]
  constructor
  · intro h
    have habs := h .absPathLink (by decide)
    have hout := h .outOfBoundsLink (by decide)
    rw [if_pos rfl] at habs
    rw [if_neg (by decide), if_pos rfl] at hout
    exact ⟨by omega, by omega⟩
  · intro h kind _
    by_cases habs : kind = .absPathLink
    · subst habs
      rw [if_pos rfl, hempty.count_of_ne (by decide), hdangling.count_of_ne (by decide)]
      exact h.absolutePath
    · rw [if_neg habs]
      by_cases hout : kind = .outOfBoundsLink
      · subst hout
        rw [if_pos rfl, hempty.count_of_ne (by decide), hdangling.count_of_ne (by decide)]
        exact h.outOfBounds
      · rw [if_neg hout]
        by_cases hkind : kind = .emptyLinks
        · subst hkind
          rw [hdangling.count_of_ne (by decide)]
          have := hempty.count_le .emptyLinks
          omega
        · rw [hempty.count_of_ne (Ne.symm hkind)]
          have := hdangling.count_le kind
          omega

theorem internalMessages_external (hquick : options.quick = true) :
    countKind (internalMessages archive options path links) .externalLink = 0 := by
  rw [count_internalMessages, if_neg (by decide), if_neg (by decide),
    (single_emptyLinksMessages path links).count_of_ne (by decide),
    (single_danglingMessages archive path hquick _).count_of_ne (by decide)]

theorem pageMessages_few_iff (hquick : options.quick = true) :
    (∀ kind ∈ entryKinds, countKind (pageMessages archive options path links) kind ≤ 1) ↔
      (options.enabledTests .urlInternal = true → FewFaults path links) := by
  have hexternal : Single .externalLink (if options.enabledTests .urlExternal then
      reported options (externalMessages path links) else []) := by
    split
    · exact single_externalMessages path links hquick
    · exact single_nil .externalLink
  simp only [pageMessages, countKind_append]
  by_cases hinternal : options.enabledTests .urlInternal = true
  · rw [if_pos hinternal, ← internalMessages_few_iff archive path links hquick]
    constructor
    · intro h _ kind hkind
      exact Nat.le_trans (Nat.le_add_right _ _) (h kind hkind)
    · intro h kind hkind
      by_cases hkindExt : kind = .externalLink
      · subst hkindExt
        rw [internalMessages_external path links hquick, Nat.zero_add]
        exact hexternal.count_le .externalLink
      · rw [hexternal.count_of_ne (Ne.symm hkindExt), Nat.add_zero]
        exact h hinternal kind hkind
  · rw [if_neg hinternal]
    constructor
    · intro _ h
      exact absurd h hinternal
    · intro _ kind _
      rw [countKind, List.countP_nil, Nat.zero_add]
      exact hexternal.count_le kind

end Page

/-! ## An entry -/

/-- The pages that are scanned for internal links have few faults. -/
def EntryFewFaults (archive : Archive) (entry : Entry) : Prop :=
  ∀ item ∈ checkedItem archive entry, item.mimetype = str "text/html" →
    ∀ links ∈ genericGetLinks (archive.getData item), FewFaults item.path links

section Entry

variable {archive : Archive} {options : ZimCheckOptions}

theorem emptyEntryMessages_few (item : Item) (kind : MsgId) :
    countKind (emptyEntryMessages archive options item) kind ≤ 1 := by
  rw [emptyEntryMessages]
  split
  · exact List.countP_le_length
  · exact Nat.zero_le 1

theorem itemMessages_few_iff (hquick : options.quick = true) {item : Item} {messages : List Msg}
    (hmessages : itemMessages archive options item = some messages) :
    (∀ kind ∈ entryKinds, countKind messages kind ≤ 1) ↔
      (options.enabledTests .urlInternal = true → item.mimetype = str "text/html" →
        ∀ links ∈ genericGetLinks (archive.getData item), FewFaults item.path links) := by
  rw [itemMessages] at hmessages
  by_cases hdata : (archive.getData item).length = 0
  · rw [if_pos hdata] at hmessages
    rw [← Option.some.inj hmessages, List.length_eq_zero_iff.mp hdata]
    constructor
    · intro _ _ _ links hlinks
      have hnil : genericGetLinks [] = some [] := by decide
      rw [hnil] at hlinks
      rw [← Option.some.inj hlinks]
      exact ⟨Nat.zero_le 1, Nat.zero_le 1⟩
    · intro _ kind _
      exact emptyEntryMessages_few item kind
  · rw [if_neg hdata] at hmessages
    by_cases hhtml : item.mimetype = str "text/html"
    · rw [if_pos hhtml] at hmessages
      obtain ⟨links, hlinks, rfl⟩ := Option.map_eq_some_iff.mp hmessages
      rw [pageMessages_few_iff item.path links hquick]
      refine forall_congr' fun hinternal => ?_
      have hscan : genericGetLinks (archive.getData item) = some links := by
        rw [← hlinks, pageLinks, hinternal]
        rfl
      rw [hscan]
      constructor
      · intro h _ links' hlinks'
        rwa [← Option.some.inj hlinks']
      · intro h
        exact h hhtml links rfl
    · rw [if_neg hhtml] at hmessages
      rw [← Option.some.inj hmessages]
      constructor
      · intro _ _ h
        exact absurd h hhtml
      · intro _ kind _
        exact Nat.zero_le 1

theorem entryMessages_few_iff (hquick : options.quick = true) {entry : Entry}
    {messages : List Msg} (hmessages : entryMessages archive options entry = some messages) :
    (∀ kind ∈ entryKinds, countKind messages kind ≤ 1) ↔
      (options.enabledTests .urlInternal = true → EntryFewFaults archive entry) := by
  rw [entryMessages] at hmessages
  cases hitem : checkedItem archive entry with
  | none =>
      rw [hitem] at hmessages
      rw [← Option.some.inj hmessages]
      constructor
      · intro _ _ item h
        rw [hitem] at h
        exact absurd h (Option.not_mem_none item)
      · intro _ kind _
        exact Nat.zero_le 1
  | some item =>
      rw [hitem] at hmessages
      rw [itemMessages_few_iff hquick hmessages]
      refine forall_congr' fun _ => ?_
      constructor
      · intro h item' hitem'
        rw [hitem] at hitem'
        rwa [← Option.some.inj hitem']
      · intro h
        exact h item hitem

end Entry

/-! ## The run -/

section Run

variable {archive : Archive} {options : ZimCheckOptions} {order : List Entry}

/-- Messages of other kinds are not counted for an entry. -/
theorem countAbout_of_kinds {messages : List Msg} (h : ∀ m ∈ messages, m.msgId ∉ entryKinds)
    (path : Bytes) {kind : MsgId} (hkind : kind ∈ entryKinds) :
    countAbout messages path kind = 0 :=
  countAbout_eq_zero fun m hm heq => absurd (heq ▸ hkind) (h m hm)

/-- Only the check of an entry gives messages about it. -/
theorem countAbout_flatMap (horder : order.Perm archive.entries) {messages : Entry → List Msg}
    (hmessages : ∀ e ∈ order, entryMessages archive options e = some (messages e)) {e : Entry}
    (he : e ∈ archive.entries) (kind : MsgId) :
    countAbout (order.flatMap messages) e.path kind = countKind (messages e) kind := by
  have hmem : e ∈ order := horder.mem_iff.mpr he
  have hnodup : order.Nodup := horder.nodup_iff.mpr (entries_nodup archive)
  have hrest : countAbout ((order.erase e).flatMap messages) e.path kind = 0 := by
    refine countAbout_eq_zero fun m hm _ hpath => ?_
    obtain ⟨e', he', hm'⟩ := List.mem_flatMap.mp hm
    obtain ⟨hne, he'⟩ := (hnodup.mem_erase_iff).mp he'
    have habout := about_of_mem_entryMessages (hmessages e' he') hm'
    have heq : e'.path = e.path := Option.some.inj (habout.path.symm.trans hpath)
    exact hne (archive.paths e' (horder.mem_iff.mp he') e he heq)
  have hperm : (order.flatMap messages).Perm ((e :: order.erase e).flatMap messages) :=
    (List.perm_cons_erase hmem).flatMap_right messages
  have hfirst : countAbout (messages e) e.path kind = countKind (messages e) kind :=
    countAbout_eq_countKind (fun m hm => about_of_mem_entryMessages (hmessages e hmem) hm) kind
  calc countAbout (order.flatMap messages) e.path kind
      = countAbout ((e :: order.erase e).flatMap messages) e.path kind := hperm.countP_eq _
    _ = countAbout (messages e) e.path kind +
          countAbout ((order.erase e).flatMap messages) e.path kind := by
        rw [List.flatMap_cons, countAbout_append]
    _ = countKind (messages e) kind := by rw [hrest, hfirst, Nat.add_zero]

theorem testArticles_few_iff (horder : order.Perm archive.entries) (hquick : options.quick = true)
    {messages : List Msg} (hrun : testArticles archive options order = some messages) :
    (∀ e ∈ archive.entries, ∀ kind ∈ entryKinds, countAbout messages e.path kind ≤ 1) ↔
      (options.enabledTests .urlInternal = true →
        ∀ e ∈ archive.entries, EntryFewFaults archive e) := by
  have hentries : ∀ e ∈ order, entryMessages archive options e =
      some ((entryMessages archive options e).getD []) := by
    intro e he
    refine (Option.getD_of_ne_none (fun hnone => ?_) []).symm
    rw [testArticles_undefined he hnone] at hrun
    exact absurd hrun.symm (Option.some_ne_none messages)
  obtain ⟨redundant, hdefined, -⟩ := testArticles_defined
    (horder.nodup_iff.mpr (entries_nodup archive)) (fun e he => horder.mem_iff.mp he) hentries
  rw [hrun] at hdefined
  have hcount : ∀ e ∈ archive.entries, ∀ kind ∈ entryKinds,
      countAbout messages e.path kind =
        countKind ((entryMessages archive options e).getD []) kind := by
    intro e he kind hkind
    have hkinds : MsgId.redundantItems ∉ entryKinds := by decide
    rw [Option.some.inj hdefined, countAbout_append, countAbout_flatMap horder hentries he,
      countAbout_of_kinds _ _ hkind, Nat.add_zero]
    intro m hm
    obtain ⟨p, -, rfl⟩ := List.mem_map.mp hm
    exact hkinds
  constructor
  · intro h hinternal e he
    refine (entryMessages_few_iff hquick (hentries e (horder.mem_iff.mpr he))).mp ?_ hinternal
    intro kind hkind
    rw [← hcount e he kind hkind]
    exact h e he kind hkind
  · intro h e he kind hkind
    rw [hcount e he kind hkind]
    exact (entryMessages_few_iff hquick (hentries e (horder.mem_iff.mpr he))).mpr
      (fun hinternal => h hinternal e he) kind hkind

end Run

section Zimcheck

variable {icu : Icu} {file : ZimFile} {options : ZimCheckOptions} {order : List Entry}

theorem msgId_of_mem_metadataMessages {messages : List Msg}
    (h : metadataMessages icu file options = some messages) :
    ∀ m ∈ messages, m.msgId = .metadata := by
  intro m hm
  rw [metadataMessages] at h
  split at h
  · obtain ⟨errors, -, rfl⟩ := Option.map_eq_some_iff.mp h
    obtain ⟨error, -, rfl⟩ := List.mem_map.mp hm
    rfl
  · rw [← Option.some.inj h] at hm
    exact absurd hm List.not_mem_nil

theorem archiveMessages_kinds {messages : List Msg}
    (h : archiveMessages icu file options = some messages) :
    ∀ m ∈ messages, m.msgId ∉ entryKinds := by
  obtain ⟨metadata, hmetadata, rfl⟩ := Option.map_eq_some_iff.mp h
  have hkinds : ∀ kind ∈ [MsgId.checksum, .metadata, .missingFavicon, .mainPage],
      kind ∉ entryKinds := by decide
  intro m hm
  refine hkinds m.msgId ?_
  simp only [List.mem_append] at hm
  rcases hm with ((hchecksum | hmeta) | hfavicon) | hmain
  · simp only [testChecksum] at hchecksum
    grind
  · rw [msgId_of_mem_metadataMessages hmetadata m hmeta]
    decide
  · simp only [testFavicon] at hfavicon
    grind
  · simp only [testMainpage] at hmain
    grind

theorem redirectMessages_kinds {messages : List Msg}
    (h : redirectMessages file options = some messages) :
    ∀ m ∈ messages, m.msgId ∉ entryKinds := by
  rw [redirectMessages] at h
  split at h
  · obtain ⟨answers, -, rfl⟩ := Option.map_eq_some_iff.mp h
    intro m hm
    obtain ⟨⟨i, inLoop⟩, -, hi⟩ := List.mem_filterMap.mp hm
    cases inLoop with
    | false => exact absurd hi.symm (Option.some_ne_none m)
    | true =>
        obtain ⟨entry, -, rfl⟩ := Option.map_eq_some_iff.mp hi
        have hkinds : MsgId.redirectLoop ∉ entryKinds := by decide
        exact hkinds
  · rw [← Option.some.inj h]
    intro m hm
    exact absurd hm List.not_mem_nil

theorem articleMessages_few_iff (horder : order.Perm file.archive.entries)
    (hquick : options.quick = true) {messages : List Msg}
    (h : articleMessages file options order = some messages) :
    (∀ e ∈ file.archive.entries, ∀ kind ∈ entryKinds, countAbout messages e.path kind ≤ 1) ↔
      (options.enabledTests .urlInternal = true →
        ∀ e ∈ file.archive.entries, EntryFewFaults file.archive e) := by
  rw [articleMessages] at h
  split at h
  · exact testArticles_few_iff horder hquick h
  · next hdisabled =>
      rw [← Option.some.inj h]
      constructor
      · intro _ hinternal
        simp [hinternal] at hdisabled
      · intro _ e _ kind _
        exact Nat.zero_le 1

/-- For every file, all enabled tests and every order of the checks, a quick run
reports for each entry at most one message of each kind if and only if it does
not get to the links, or does not look at the internal ones, or every page that
is checked has at most one link to an absolute path and at most one out of
bounds. -/
theorem quick_counts_iff (horder : order.Perm file.archive.entries)
    (hquick : options.quick = true) {run : Run}
    (hrun : zimcheck icu file options order = some run) :
    (∀ e ∈ file.archive.entries, ∀ kind ∈ entryKinds,
      countAbout run.messages e.path kind ≤ 1) ↔
      (shouldRunFullTest file options = true → options.enabledTests .urlInternal = true →
        ∀ e ∈ file.archive.entries, EntryFewFaults file.archive e) := by
  rw [zimcheck] at hrun
  by_cases hfull : shouldRunFullTest file options = true
  · rw [if_pos hfull] at hrun
    simp only [Option.bind_eq_bind, Option.bind_eq_some_iff] at hrun
    obtain ⟨messages, hmessages, articles, harticles, redirects, hredirects, hrun⟩ := hrun
    have hcount : ∀ e ∈ file.archive.entries, ∀ kind ∈ entryKinds,
        countAbout run.messages e.path kind = countAbout articles e.path kind := by
      intro e _ kind hkind
      rw [← Option.some.inj hrun, countAbout_append, countAbout_append,
        countAbout_of_kinds (archiveMessages_kinds hmessages) _ hkind,
        countAbout_of_kinds (redirectMessages_kinds hredirects) _ hkind, Nat.zero_add,
        Nat.add_zero]
    have hiff := articleMessages_few_iff horder hquick harticles
    constructor
    · intro h _
      refine hiff.mp fun e he kind hkind => ?_
      rw [← hcount e he kind hkind]
      exact h e he kind hkind
    · intro h e he kind hkind
      rw [hcount e he kind hkind]
      exact hiff.mpr (h hfull) e he kind hkind
  · rw [if_neg hfull] at hrun
    rw [← Option.some.inj hrun]
    constructor
    · intro _ h
      exact absurd h hfull
    · intro _ e _ kind _
      exact Nat.zero_le 1

end Zimcheck

/-- A page with links to two absolute paths. -/
def faultyPage : Item := ⟨0, str "a", str "text/html", 0, 0⟩

def faultyFile : ZimFile where
  archive :=
    { hasNewNamespaceScheme := true
      entries := [.item faultyPage]
      hasEntryByPath := fun path => path = str "a"
      blob := fun _ _ => str "<a href='/x'><a href='/y'>"
      indexed := rfl
      paths := by decide }
  validate := true
  check := true
  checksum := []
  metadata := []
  illustrationInfos := []
  mainEntry := true
  mainEntryIndex := 0

/-- No library, which is not used without metadata. -/
def noIcu : Icu := ⟨fun _ _ => [], none⟩

def internalOptions : ZimCheckOptions := ⟨fun t => t = .urlInternal, true⟩

theorem exists_faulty_run : ∃ run,
    zimcheck noIcu faultyFile internalOptions [.item faultyPage] = some run ∧
      countAbout run.messages (str "a") .absPathLink = 2 := by
  have hrun : (zimcheck noIcu faultyFile internalOptions [.item faultyPage]).any
      (fun run => countAbout run.messages (str "a") .absPathLink = 2) = true := by
    decide
  obtain ⟨run, hsome, hcount⟩ := (Option.any_eq_true _ _).mp hrun
  exact ⟨run, hsome, of_decide_eq_true hcount⟩

/-- A quick run that has the page with two faulty links. -/
theorem quick_counts_iff_sample : ∃ run,
    zimcheck noIcu faultyFile internalOptions [.item faultyPage] = some run ∧
    ((∀ e ∈ faultyFile.archive.entries, ∀ kind ∈ entryKinds,
      countAbout run.messages e.path kind ≤ 1) ↔
      (shouldRunFullTest faultyFile internalOptions = true →
        internalOptions.enabledTests .urlInternal = true →
        ∀ e ∈ faultyFile.archive.entries, EntryFewFaults faultyFile.archive e)) := by
  obtain ⟨run, hrun, -⟩ := exists_faulty_run
  exact ⟨run, hrun, quick_counts_iff (.refl _) rfl hrun⟩

theorem quick_reports_twice : ¬ ∀ (icu : Icu) (file : ZimFile) (enabledTests : EnabledTests)
    (order : List Entry), order.Perm file.archive.entries →
    ∀ run, zimcheck icu file ⟨enabledTests, true⟩ order = some run →
      ∀ e ∈ file.archive.entries, ∀ kind ∈ entryKinds,
        countAbout run.messages e.path kind ≤ 1 := by
  intro h
  obtain ⟨run, hrun, hcount⟩ := exists_faulty_run
  have hle := h noIcu faultyFile internalOptions.enabledTests [.item faultyPage] (.refl _) run hrun
    (.item faultyPage) (List.mem_cons_self ..) .absPathLink (by decide)
  have htwo : 2 ≤ 1 := hcount ▸ hle
  exact absurd htwo (by decide)

end Zimcheck
end ZimTools
