import ZimTools.Zimcheck.QuickCounts

/-!
# Independence of the tests

The tests of zimcheck share one pass over the entries, the data of an item, the
list of its links and the cache of the links.  What a test reports does not
depend on which other tests are enabled, as long as the runs end
(`zimcheck_independent`).  Only the checksum test is left out, which is not run
when the integrity test is.

Every list of messages of a run is made of blocks, each under the guard of one
test and with messages of this test alone.  Two runs that both enable a test
open the same blocks of it, and of the other blocks nothing is left when the
messages of the test are picked (`Agree.block`).
-/

namespace ZimTools
namespace Zimcheck

open Bytes ArticleChecker

/-- The test whose code reports a message.  Empty links have a name of their
own, under which they are filed, but no test of their own. -/
def Msg.reporter (m : Msg) : TestType :=
  match m.check with
  | .urlEmpty => .urlInternal
  | t => t

/-- Two lists with the same messages of a test, in the same order. -/
def Agree (t : TestType) (messages messages' : List Msg) : Prop :=
  (messages.filter fun m => m.reporter = t) = messages'.filter fun m => m.reporter = t

section Agree

variable {t u : TestType} {a b a' b' : List Msg}

theorem Agree.refl (messages : List Msg) : Agree t messages messages := rfl

theorem Agree.append (h : Agree t a b) (h' : Agree t a' b') : Agree t (a ++ a') (b ++ b') := by
  rw [Agree, List.filter_append, List.filter_append]
  exact congrArg₂ (· ++ ·) h h'

/-- The messages of another test. -/
theorem Agree.of_other (hne : u ≠ t) (ha : ∀ m ∈ a, m.reporter = u) (hb : ∀ m ∈ b, m.reporter = u) :
    Agree t a b := by
  have hnone : ∀ l : List Msg, (∀ m ∈ l, m.reporter = u) →
      (l.filter fun m => m.reporter = t) = [] := by
    intro l hl
    rw [List.filter_eq_nil_iff]
    intro m hm heq
    exact hne ((hl m hm).symm.trans (of_decide_eq_true heq))
  exact (hnone a ha).trans (hnone b hb).symm

/-- The block of a test in two runs. -/
theorem Agree.block (ha : ∀ m ∈ a, m.reporter = u) (hb : ∀ m ∈ b, m.reporter = u) {e e' : Bool}
    (h : u = t → e = true ∧ e' = true ∧ a = b) :
    Agree t (if e = true then a else []) (if e' = true then b else []) := by
  by_cases hut : u = t
  · obtain ⟨he, he', rfl⟩ := h hut
    rw [if_pos he, if_pos he']
    exact .refl a
  · refine .of_other hut (fun m hm => ?_) fun m hm => ?_
    · split at hm
      · exact ha m hm
      · exact absurd hm List.not_mem_nil
    · split at hm
      · exact hb m hm
      · exact absurd hm List.not_mem_nil

/-- The block of a test that may end in an exception. -/
theorem Agree.block_some {x y : Option (List Msg)} (hx : ∀ l, x = some l → ∀ m ∈ l, m.reporter = u)
    (hy : ∀ l, y = some l → ∀ m ∈ l, m.reporter = u) {e e' : Bool}
    (h : u = t → e = true ∧ e' = true ∧ x = y)
    (ha : (if e = true then x else some []) = some a)
    (hb : (if e' = true then y else some []) = some b) : Agree t a b := by
  by_cases hut : u = t
  · obtain ⟨he, he', rfl⟩ := h hut
    rw [if_pos he] at ha
    rw [if_pos he', ha] at hb
    rw [Option.some.inj hb]
    exact .refl b
  · refine .of_other hut (fun m hm => ?_) fun m hm => ?_
    · split at ha
      · exact hx a ha m hm
      · rw [← Option.some.inj ha] at hm
        exact absurd hm List.not_mem_nil
    · split at hb
      · exact hy b hb m hm
      · rw [← Option.some.inj hb] at hm
        exact absurd hm List.not_mem_nil

/-- The messages that are filed under a test are among those it reports. -/
theorem Agree.filter_check (h : Agree t a b) (ht : t ≠ .urlEmpty) :
    (a.filter fun m => m.check = t) = b.filter fun m => m.check = t := by
  have hfilter : ∀ l : List Msg, (l.filter fun m => m.check = t) =
      (l.filter fun m => m.reporter = t).filter fun m => m.check = t := by
    intro l
    rw [List.filter_filter]
    refine List.filter_congr fun m _ => ?_
    by_cases hm : m.check = t
    · have hreporter : m.reporter = t := by
        rw [Msg.reporter, hm]
        cases t with
        | urlEmpty => exact absurd rfl ht
        | _ => rfl
      simp [hm, hreporter]
    · simp [hm]
  rw [hfilter a, hfilter b, show _ = _ from h]

end Agree

/-! ## The messages of an entry -/

section Entry

variable {archive : Archive} {quick : Bool} {enabled enabled' : EnabledTests} {t : TestType}

theorem reporter_of_mem_emptyLinksMessages {path : Bytes} {links : List HtmlLink} {m : Msg}
    (h : m ∈ emptyLinksMessages path links) : m.reporter = .urlInternal := by
  rw [emptyLinksMessages] at h
  split at h
  · rw [List.mem_singleton.mp h]
    rfl
  · exact absurd h List.not_mem_nil

theorem reporter_of_mem_internalMessages {options : ZimCheckOptions} {path : Bytes}
    {links : List HtmlLink} : ∀ m ∈ internalMessages archive options path links,
      m.reporter = .urlInternal := by
  intro m hm
  rw [internalMessages, linkLoop_eq, List.mem_append, List.mem_append] at hm
  rcases hm with (hfault | hempty) | hdangling
  · obtain ⟨l, -, hl⟩ := List.mem_filterMap.mp hfault
    rw [faultMessage] at hl
    split at hl
    · rw [← Option.some.inj hl]
      rfl
    · rw [← Option.some.inj hl]
      rfl
    · exact absurd hl.symm (Option.some_ne_none m)
  · exact reporter_of_mem_emptyLinksMessages hempty
  · obtain ⟨p, -, rfl⟩ := List.mem_map.mp (mem_of_mem_reported hdangling)
    rfl

theorem reporter_of_mem_externalMessages {options : ZimCheckOptions} {path : Bytes}
    {links : List HtmlLink} : ∀ m ∈ reported options (externalMessages path links),
      m.reporter = .urlExternal := by
  intro m hm
  obtain ⟨l, -, rfl⟩ := List.mem_map.mp (mem_of_mem_reported hm)
  rfl

theorem emptyEntryMessages_agree (ht : enabled t = true) (ht' : enabled' t = true) (item : Item) :
    Agree t (emptyEntryMessages archive ⟨enabled, quick⟩ item)
      (emptyEntryMessages archive ⟨enabled', quick⟩ item) := by
  have hblock : ∀ e : EnabledTests, emptyEntryMessages archive ⟨e, quick⟩ item =
      if e .empty = true then
        (if namespaceOf archive item.path = char 'C' ∨ namespaceOf archive item.path = char 'A' ∨
          namespaceOf archive item.path = char 'I' then [emptyEntryMsg item.path] else [])
      else [] := fun e => ite_and ..
  have hreporter : ∀ m ∈ (if namespaceOf archive item.path = char 'C' ∨
      namespaceOf archive item.path = char 'A' ∨ namespaceOf archive item.path = char 'I' then
        [emptyEntryMsg item.path] else []), m.reporter = .empty := by
    intro m hm
    split at hm
    · rw [List.mem_singleton.mp hm]
      rfl
    · exact absurd hm List.not_mem_nil
  rw [hblock, hblock]
  refine .block hreporter hreporter ?_
  rintro rfl
  exact ⟨ht, ht', rfl⟩

/-- Both runs have the links that a test looks at, when they have any. -/
theorem pageMessages_agree (ht : enabled t = true) (ht' : enabled' t = true) {item : Item}
    {links links' : List HtmlLink}
    (hlinks : pageLinks archive ⟨enabled, quick⟩ item = some links)
    (hlinks' : pageLinks archive ⟨enabled', quick⟩ item = some links') :
    Agree t (pageMessages archive ⟨enabled, quick⟩ item.path links)
      (pageMessages archive ⟨enabled', quick⟩ item.path links') := by
  have hsame : t = .urlInternal ∨ t = .urlExternal → links = links' := by
    intro hlink
    have hpage : genericGetLinks (archive.getData item) = some links := by
      rw [pageLinks, if_pos] at hlinks
      · exact hlinks
      · rcases hlink with rfl | rfl <;> simp [ht]
    have hpage' : genericGetLinks (archive.getData item) = some links' := by
      rw [pageLinks, if_pos] at hlinks'
      · exact hlinks'
      · rcases hlink with rfl | rfl <;> simp [ht']
    exact Option.some.inj (hpage.symm.trans hpage')
  refine Agree.append ?_ ?_
  · refine .block (u := .urlInternal) reporter_of_mem_internalMessages
      reporter_of_mem_internalMessages ?_
    rintro rfl
    rw [hsame (Or.inl rfl)]
    exact ⟨ht, ht', rfl⟩
  · refine .block (u := .urlExternal) reporter_of_mem_externalMessages
      reporter_of_mem_externalMessages ?_
    rintro rfl
    rw [hsame (Or.inr rfl)]
    exact ⟨ht, ht', rfl⟩

theorem itemMessages_agree (ht : enabled t = true) (ht' : enabled' t = true) {item : Item}
    {messages messages' : List Msg}
    (h : itemMessages archive ⟨enabled, quick⟩ item = some messages)
    (h' : itemMessages archive ⟨enabled', quick⟩ item = some messages') :
    Agree t messages messages' := by
  rw [itemMessages] at h h'
  by_cases hdata : (archive.getData item).length = 0
  · rw [if_pos hdata] at h h'
    rw [← Option.some.inj h, ← Option.some.inj h']
    exact emptyEntryMessages_agree ht ht' item
  · rw [if_neg hdata] at h h'
    by_cases hhtml : item.mimetype = str "text/html"
    · rw [if_pos hhtml] at h h'
      obtain ⟨links, hlinks, rfl⟩ := Option.map_eq_some_iff.mp h
      obtain ⟨links', hlinks', rfl⟩ := Option.map_eq_some_iff.mp h'
      exact pageMessages_agree ht ht' hlinks hlinks'
    · rw [if_neg hhtml] at h h'
      rw [← Option.some.inj h, ← Option.some.inj h']
      exact .refl []

theorem entryMessages_agree (ht : enabled t = true) (ht' : enabled' t = true) {entry : Entry}
    {messages messages' : List Msg}
    (h : entryMessages archive ⟨enabled, quick⟩ entry = some messages)
    (h' : entryMessages archive ⟨enabled', quick⟩ entry = some messages') :
    Agree t messages messages' := by
  rw [entryMessages] at h h'
  cases hitem : checkedItem archive entry with
  | none =>
      rw [hitem] at h h'
      rw [← Option.some.inj h, ← Option.some.inj h']
      exact .refl []
  | some item =>
      rw [hitem] at h h'
      exact itemMessages_agree ht ht' h h'

theorem mapM_agree (ht : enabled t = true) (ht' : enabled' t = true) :
    ∀ {order : List Entry} {messages messages' : List (List Msg)},
      order.mapM (entryMessages archive ⟨enabled, quick⟩) = some messages →
      order.mapM (entryMessages archive ⟨enabled', quick⟩) = some messages' →
      Agree t messages.flatten messages'.flatten
  | [], messages, messages', h, h' => by
      rw [← Option.some.inj h, ← Option.some.inj h']
      exact .refl []
  | e :: es, messages, messages', h, h' => by
      simp only [List.mapM_cons, Option.bind_eq_bind, Option.bind_eq_some_iff, Option.pure_def,
        Option.some.injEq] at h h'
      obtain ⟨m, hm, ms, hms, rfl⟩ := h
      obtain ⟨m', hm', ms', hms', rfl⟩ := h'
      exact (entryMessages_agree ht ht' hm hm').append (mapM_agree ht ht' hms hms')

end Entry

/-! ## The tests behind the loop over the entries -/

section Archive

variable {archive : Archive}

theorem compareWith_reporter {e1 : Item} : ∀ {l others : List EntryIndex} {messages : List Msg},
    compareWith archive e1 l = some (others, messages) → ∀ m ∈ messages, m.reporter = .redundant
  | [], others, messages, h => by
      obtain ⟨-, rfl⟩ := Prod.mk.inj (Option.some.inj h)
      exact fun m hm => absurd hm List.not_mem_nil
  | other :: l, others, messages, h => by
      rw [compareWith] at h
      simp only [Option.bind_eq_bind, Option.bind_eq_some_iff] at h
      obtain ⟨e2, -, ⟨rest, found⟩, hrest, h⟩ := h
      have ih := compareWith_reporter hrest
      split at h
      · obtain ⟨-, rfl⟩ := Prod.mk.inj (Option.some.inj h)
        exact ih
      · split at h
        · obtain ⟨-, rfl⟩ := Prod.mk.inj (Option.some.inj h)
          exact ih
        · obtain ⟨-, rfl⟩ := Prod.mk.inj (Option.some.inj h)
          rw [List.forall_mem_cons]
          exact ⟨rfl, ih⟩

/-- What a pass over a bucket does. -/
theorem bucketPass_cases (archive : Archive) (l : List EntryIndex) (messages : List Msg) :
    bucketPass archive (l, messages) = .inr (some messages) ∨
      bucketPass archive (l, messages) = .inr none ∨
      ∃ others found, bucketPass archive (l, messages) = .inl (others, messages ++ found) ∧
        ∀ m ∈ found, m.reporter = .redundant := by
  cases l with
  | nil => exact Or.inl rfl
  | cons index l =>
      rw [bucketPass]
      cases archive.getItem index with
      | none => exact Or.inr (Or.inl rfl)
      | some e1 =>
          dsimp only
          cases hcompare : compareWith archive e1 l with
          | none => exact Or.inr (Or.inl rfl)
          | some p => exact Or.inr (Or.inr ⟨p.1, p.2, rfl, compareWith_reporter hcompare⟩)

theorem detectInBucket_reporter {fuel : Nat} {l : List EntryIndex} {messages : List Msg}
    (h : detectInBucket archive fuel l = some messages) : ∀ m ∈ messages, m.reporter = .redundant := by
  rw [detectInBucket, Option.join_eq_some_iff] at h
  refine Loop.run_invariant (fun s : List EntryIndex × List Msg => ∀ m ∈ s.2, m.reporter = .redundant)
    (fun r => ∀ found, r = some found → ∀ m ∈ found, m.reporter = .redundant) ?_ ?_ h
    (fun m hm => absurd hm List.not_mem_nil) messages rfl
  · rintro ⟨l, messages⟩ s' hs hpass
    rcases bucketPass_cases archive l messages with
      hexit | hexit | ⟨others, found, hnext, hfound⟩
    · exact absurd (hexit.symm.trans hpass) Sum.inr_ne_inl
    · exact absurd (hexit.symm.trans hpass) Sum.inr_ne_inl
    · rw [← Sum.inl.inj (hnext.symm.trans hpass)]
      intro m hm
      rcases List.mem_append.mp hm with hm | hm
      · exact hs m hm
      · exact hfound m hm
  · rintro ⟨l, messages⟩ r hs hpass found rfl
    rcases bucketPass_cases archive l messages with
      hexit | hexit | ⟨others, more, hnext, -⟩
    · obtain rfl := Option.some.inj (Sum.inr.inj (hexit.symm.trans hpass))
      exact hs
    · exact absurd (Sum.inr.inj (hpass.symm.trans hexit)) (Option.some_ne_none found)
    · exact absurd (hpass.symm.trans hnext) Sum.inr_ne_inl

theorem detectRedundantArticles_reporter {c : ArticleChecker} {messages : List Msg}
    (h : c.detectRedundantArticles archive = some messages) :
    ∀ m ∈ messages, m.reporter = .redundant := by
  obtain ⟨buckets, hbuckets, rfl⟩ := Option.map_eq_some_iff.mp h
  intro m hm
  obtain ⟨found, hfound, hm⟩ := List.mem_flatten.mp hm
  obtain ⟨bucket, -, hbucket⟩ := MapM.exists_of_mem hbuckets hfound
  exact detectInBucket_reporter hbucket m hm

theorem testRedirectLoop_reporter {messages : List Msg}
    (h : testRedirectLoop archive = some messages) : ∀ m ∈ messages, m.reporter = .redirect := by
  intro m hm
  obtain ⟨answers, -, rfl⟩ := Option.map_eq_some_iff.mp h
  obtain ⟨⟨i, inLoop⟩, -, hi⟩ := List.mem_filterMap.mp hm
  cases inLoop with
  | false => exact absurd hi.symm (Option.some_ne_none m)
  | true =>
      obtain ⟨entry, -, rfl⟩ := Option.map_eq_some_iff.mp hi
      rfl

end Archive

section Run

variable {icu : Icu} {file : ZimFile} {quick : Bool} {order : List Entry}
  {enabled enabled' : EnabledTests} {t : TestType}

theorem redundantMessages_agree {archive : Archive} (ht : enabled t = true)
    (ht' : enabled' t = true) {messages messages' : List Msg}
    (h : redundantMessages archive ⟨enabled, quick⟩ order = some messages)
    (h' : redundantMessages archive ⟨enabled', quick⟩ order = some messages') :
    Agree t messages messages' := by
  refine .block_some (u := .redundant) (fun l => detectRedundantArticles_reporter)
    (fun l => detectRedundantArticles_reporter) ?_ h h'
  rintro rfl
  refine ⟨ht, ht', ?_⟩
  have hitems : tableItems archive ⟨enabled, quick⟩ order =
      tableItems archive ⟨enabled', quick⟩ order := by
    simp only [tableItems, recordedItems, ht, ht']
  rw [hitems]

theorem testArticles_agree {archive : Archive} (ht : enabled t = true) (ht' : enabled' t = true)
    {messages messages' : List Msg}
    (h : testArticles archive ⟨enabled, quick⟩ order = some messages)
    (h' : testArticles archive ⟨enabled', quick⟩ order = some messages') :
    Agree t messages messages' := by
  rw [testArticles_eq] at h h'
  simp only [Option.bind_eq_some_iff, Option.map_eq_some_iff] at h h'
  obtain ⟨_, ⟨entries, hentries, rfl⟩, redundant, hredundant, rfl⟩ := h
  obtain ⟨_, ⟨entries', hentries', rfl⟩, redundant', hredundant', rfl⟩ := h'
  exact (mapM_agree ht ht' hentries hentries').append (redundantMessages_agree ht ht' hredundant hredundant')

/-- Without a test of the articles their checks report nothing. -/
theorem testArticles_disabled {archive : Archive} {options : ZimCheckOptions}
    (hinternal : options.enabledTests .urlInternal = false)
    (hexternal : options.enabledTests .urlExternal = false)
    (hredundant : options.enabledTests .redundant = false)
    (hempty : options.enabledTests .empty = false) :
    testArticles archive options order = some [] := by
  have hentries : ∀ e ∈ order, entryMessages archive options e = some [] := by
    intro e _
    rw [entryMessages]
    cases checkedItem archive e with
    | none => rfl
    | some item => simp [itemMessages, emptyEntryMessages, pageLinks, pageMessages, hinternal,
        hexternal, hempty]
  rw [testArticles_eq, MapM.flatten_eq_nil_iff.mpr hentries, redundantMessages, hredundant]
  rfl

theorem articleMessages_eq (options : ZimCheckOptions) :
    articleMessages file options order = testArticles file.archive options order := by
  rw [articleMessages]
  split
  · rfl
  · next hdisabled =>
      simp only [Bool.or_eq_true, not_or, Bool.not_eq_true] at hdisabled
      obtain ⟨⟨⟨hinternal, hexternal⟩, hredundant⟩, hempty⟩ := hdisabled
      exact (testArticles_disabled hinternal hexternal hredundant hempty).symm

theorem redirectMessages_agree (ht : enabled t = true) (ht' : enabled' t = true)
    {messages messages' : List Msg}
    (h : redirectMessages file ⟨enabled, quick⟩ = some messages)
    (h' : redirectMessages file ⟨enabled', quick⟩ = some messages') :
    Agree t messages messages' := by
  refine .block_some (u := .redirect) (fun l => testRedirectLoop_reporter)
    (fun l => testRedirectLoop_reporter) ?_ h h'
  rintro rfl
  exact ⟨ht, ht', rfl⟩

theorem metadataMessages_agree (ht : enabled t = true) (ht' : enabled' t = true)
    {messages messages' : List Msg}
    (h : metadataMessages icu file ⟨enabled, quick⟩ = some messages)
    (h' : metadataMessages icu file ⟨enabled', quick⟩ = some messages') :
    Agree t messages messages' := by
  have hreporter : ∀ l, testMetadata icu file = some l → ∀ m ∈ l, m.reporter = .metadata := by
    intro l hl m hm
    obtain ⟨errors, -, rfl⟩ := Option.map_eq_some_iff.mp hl
    obtain ⟨error, -, rfl⟩ := List.mem_map.mp hm
    rfl
  refine .block_some (u := .metadata) hreporter hreporter ?_ h h'
  rintro rfl
  exact ⟨ht, ht', rfl⟩

theorem archiveMessages_agree (hchecksum : t ≠ .checksum) (ht : enabled t = true)
    (ht' : enabled' t = true) {messages messages' : List Msg}
    (h : archiveMessages icu file ⟨enabled, quick⟩ = some messages)
    (h' : archiveMessages icu file ⟨enabled', quick⟩ = some messages') :
    Agree t messages messages' := by
  obtain ⟨metadata, hmetadata, rfl⟩ := Option.map_eq_some_iff.mp h
  obtain ⟨metadata', hmetadata', rfl⟩ := Option.map_eq_some_iff.mp h'
  have hcheck : ∀ m ∈ testChecksum file, m.reporter = .checksum := by
    intro m hm
    rw [testChecksum] at hm
    split at hm
    · exact absurd hm List.not_mem_nil
    · rw [List.mem_singleton.mp hm]
      rfl
  have hfavicon : ∀ m ∈ testFavicon file, m.reporter = .favicon := by
    intro m hm
    rw [testFavicon] at hm
    split at hm
    · rw [List.mem_singleton.mp hm]
      rfl
    · exact absurd hm List.not_mem_nil
  have hmain : ∀ m ∈ testMainpage file, m.reporter = .mainPage := by
    intro m hm
    rw [testMainpage] at hm
    split at hm
    · exact absurd hm List.not_mem_nil
    · rw [List.mem_singleton.mp hm]
      rfl
  refine (((Agree.block hcheck hcheck ?_).append
    (metadataMessages_agree ht ht' hmetadata hmetadata')).append
    (Agree.block hfavicon hfavicon ?_)).append (Agree.block hmain hmain ?_)
  · exact fun hsame => absurd hsame.symm hchecksum
  · rintro rfl
    exact ⟨ht, ht', rfl⟩
  · rintro rfl
    exact ⟨ht, ht', rfl⟩

/-- For every file, whether quick or not, the messages of a test in a run that
enables it do not depend on the other tests: any two runs report the same ones,
in the same order. -/
theorem zimcheck_independent {run run' : Run} (hchecksum : t ≠ .checksum) (hurl : t ≠ .urlEmpty)
    (ht : enabled t = true) (ht' : enabled' t = true)
    (hintegrity : enabled .integrity = true ∨ enabled' .integrity = true → file.validate = true)
    (hrun : zimcheck icu file ⟨enabled, quick⟩ order = some run)
    (hrun' : zimcheck icu file ⟨enabled', quick⟩ order = some run') :
    (run.messages.filter fun m => m.check = t) = (run'.messages.filter fun m => m.check = t) ∧
      (run.messages.filter fun m => m.reporter = t) =
        run'.messages.filter fun m => m.reporter = t := by
  have hfull : ∀ e : EnabledTests, (e .integrity = true → file.validate = true) →
      shouldRunFullTest file ⟨e, quick⟩ = true := by
    intro e he
    rw [shouldRunFullTest]
    dsimp only
    cases hint : e .integrity with
    | true => exact he hint
    | false => rfl
  rw [zimcheck, if_pos (hfull enabled fun h => hintegrity (Or.inl h)), articleMessages_eq] at hrun
  rw [zimcheck, if_pos (hfull enabled' fun h => hintegrity (Or.inr h)), articleMessages_eq] at hrun'
  simp only [Option.bind_eq_bind, Option.bind_eq_some_iff, Option.some.injEq] at hrun hrun'
  obtain ⟨messages, hmessages, articles, harticles, redirects, hredirects, rfl⟩ := hrun
  obtain ⟨messages', hmessages', articles', harticles', redirects', hredirects', rfl⟩ := hrun'
  have hagree := ((archiveMessages_agree hchecksum ht ht' hmessages hmessages').append
    (testArticles_agree ht ht' harticles harticles')).append
    (redirectMessages_agree ht ht' hredirects hredirects')
  exact ⟨hagree.filter_check hurl, hagree⟩

/-- A run of the test of the internal links alone, and one with two other tests. -/
theorem zimcheck_independent_sample : ∃ run run',
    zimcheck noIcu faultyFile ⟨fun t => t = .urlInternal, true⟩ [.item faultyPage] = some run ∧
      zimcheck noIcu faultyFile ⟨fun t => t = .urlInternal ∨ t = .urlExternal ∨ t = .redundant, true⟩
        [.item faultyPage] = some run' ∧
      (run.messages.filter fun m => m.check = .urlInternal) =
        run'.messages.filter fun m => m.check = .urlInternal := by
  have hsome : (zimcheck noIcu faultyFile ⟨fun t => t = .urlInternal, true⟩
      [.item faultyPage]).isSome = true := by decide
  have hsome' : (zimcheck noIcu faultyFile
      ⟨fun t => t = .urlInternal ∨ t = .urlExternal ∨ t = .redundant, true⟩
        [.item faultyPage]).isSome = true := by decide
  obtain ⟨run, hrun⟩ := Option.isSome_iff_exists.mp hsome
  obtain ⟨run', hrun'⟩ := Option.isSome_iff_exists.mp hsome'
  exact ⟨run, run', hrun, hrun',
    (zimcheck_independent (by decide) (by decide) rfl rfl (fun _ => rfl) hrun hrun').1⟩

end Run

end Zimcheck
end ZimTools
