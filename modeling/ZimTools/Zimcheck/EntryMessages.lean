import ZimTools.Zimcheck.ArticleChecker

/-!
# What the check of an entry reports

A check reports messages that depend on the entry alone (`entryMessages`), in
whatever state the checker is.  The cache of links may have seen any other links
before, but what is in it is true of the archive (`CacheValid`), so a lookup
gives what the archive would.  The table of items takes the items that are to be
compared, in the order of their checks (`recordedItems`).

`checkAll_spec` says it for a list of entries.
-/

namespace ZimTools
namespace Zimcheck

open Bytes ArticleChecker

variable (archive : Archive) (options : ZimCheckOptions)

/-! ## Messages -/

/-- All messages, or in a quick run the first one. -/
def reported (messages : List Msg) : List Msg :=
  if options.quick then messages.take 1 else messages

/-- The messages about the groups of links to paths that are not there. -/
def danglingMessages (path : Bytes) (groups : List (Bytes × List Bytes)) : List Msg :=
  (groups.filter fun p => !archive.hasEntryByPath p.1).map fun p => danglingMsg path p.1 p.2

def externalMessages (path : Bytes) (links : List HtmlLink) : List Msg :=
  (links.filter fun l => l.attr = .src ∧ l.isExternalUrl = true).map fun l =>
    linkMsg .externalLink path l.link

/-- The links of a page, as far as they are looked at. -/
def pageLinks (item : Item) : Option (List HtmlLink) :=
  if options.enabledTests .urlInternal || options.enabledTests .urlExternal then
    genericGetLinks (archive.getData item)
  else some []

/-- The loop over the links of a page. -/
def linkLoop (path : Bytes) (links : List HtmlLink) : LinkLoop :=
  links.foldl (checkLink path) ⟨∅, 0, []⟩

def emptyLinksMessages (path : Bytes) (links : List HtmlLink) : List Msg :=
  if (linkLoop path links).nremptylinks ≠ 0 then
    [emptyLinksMsg path (linkLoop path links).nremptylinks.toInt]
  else []

def internalMessages (path : Bytes) (links : List HtmlLink) : List Msg :=
  (linkLoop path links).messages ++ emptyLinksMessages path links ++
    reported options (danglingMessages archive path (linkLoop path links).groupedLinks.toList)

def emptyEntryMessages (item : Item) : List Msg :=
  let ns := namespaceOf archive item.path
  if options.enabledTests .empty ∧ (ns = char 'C' ∨ ns = char 'A' ∨ ns = char 'I') then
    [emptyEntryMsg item.path]
  else []

def pageMessages (path : Bytes) (links : List HtmlLink) : List Msg :=
  (if options.enabledTests .urlInternal then internalMessages archive options path links else []) ++
    if options.enabledTests .urlExternal then
      reported options (externalMessages path links)
    else []

/-- The messages about an item, unless it is a page with an unfinished link. -/
def itemMessages (item : Item) : Option (List Msg) :=
  if (archive.getData item).length = 0 then some (emptyEntryMessages archive options item)
  else if item.mimetype = str "text/html" then
    (pageLinks archive options item).map (pageMessages archive options item.path)
  else some []

/-- The item of an entry that is checked. -/
def checkedItem : Entry → Option Item
  | .redirect .. => none
  | .item i => if namespaceOf archive i.path = char 'M' then none else some i

def entryMessages (entry : Entry) : Option (List Msg) :=
  match checkedItem archive entry with
  | none => some []
  | some item => itemMessages archive options item

def checkedItems (entries : List Entry) : List Item := entries.filterMap (checkedItem archive)

/-- Those of the items that are put into the table. -/
def recordedItems (items : List Item) : List Item :=
  items.filter fun item =>
    options.enabledTests .redundant && (archive.getData item).length != 0

/-- Items as they are in the table. -/
def tableEntries (items : List Item) : List (UInt32 × EntryIndex) :=
  items.map fun item => (adler32 (archive.getData item), item.index)

/-! ## The loop over the links -/

def faultMessage (path : Bytes) (l : HtmlLink) : Option Msg :=
  match classify path l with
  | .absolutePath => some (linkMsg .absPathLink path l.link)
  | .outOfBounds => some (linkMsg .outOfBoundsLink path l.link)
  | _ => none

/-- A link with the path that it resolves to. -/
def resolvedLink (path : Bytes) (l : HtmlLink) : Option (Bytes × Bytes) :=
  match classify path l with
  | .resolved resolved => some (resolved, l.link)
  | _ => none

/-- What the loop over the links comes to. -/
theorem linkLoop_eq (path : Bytes) (links : List HtmlLink) :
    linkLoop path links =
      ⟨Buckets.ofList (links.filterMap (resolvedLink path)),
        .ofNat (links.countP (classify path · = .empty)), links.filterMap (faultMessage path)⟩ := by
  induction links using List.reverseRecOn with
  | nil => rfl
  | append_singleton links l ih =>
      rw [linkLoop] at ih ⊢
      rw [List.foldl_concat, ih, checkLink]
      cases hclass : classify path l with
      | empty => simp [resolvedLink, faultMessage, hclass, Int32.ofNat_add]
      | skipped => simp [resolvedLink, faultMessage, hclass]
      | absolutePath => simp [resolvedLink, faultMessage, hclass]
      | outOfBounds => simp [resolvedLink, faultMessage, hclass]
      | resolved resolved => simp [resolvedLink, faultMessage, hclass, Buckets.ofList]

/-! ## The entry of a message -/

/-- The kinds of messages about one entry. -/
def entryKinds : List MsgId :=
  [.emptyEntry, .absPathLink, .outOfBoundsLink, .emptyLinks, .danglingLinks, .externalLink]

/-- The parameter `path` of a message. -/
def Msg.path (m : Msg) : Option Bytes :=
  match m.msgParams.lookup (str "path") with
  | some (.string path) => some path
  | _ => none

/-- A message is about the entry with a path. -/
structure Msg.About (path : Bytes) (m : Msg) : Prop where
  kind : m.msgId ∈ entryKinds
  path : m.path = some path

theorem lookup_params_nil (name : Bytes) : (params []).lookup name = none :=
  AList.lookup_empty name

theorem lookup_params (name key : Bytes) (value : Data) (l : List (Bytes × Data)) :
    (params ((key, value) :: l)).lookup name =
      if name = key then some value else (params l).lookup name := by
  rw [params, List.foldr_cons]
  split
  · next h => rw [h, AList.lookup_insert]
  · next h => exact AList.lookup_insert_ne h

theorem about_linkMsg {msgId : MsgId} (h : msgId ∈ entryKinds) (path link : Bytes) :
    (linkMsg msgId path link).About path := by
  refine ⟨h, ?_⟩
  rw [Msg.path, linkMsg, lookup_params, if_neg (by decide), lookup_params, if_pos rfl]

theorem about_danglingMsg (path link : Bytes) (links : List Bytes) :
    (danglingMsg path link links).About path := by
  refine ⟨by simp [danglingMsg, entryKinds], ?_⟩
  rw [Msg.path, danglingMsg, lookup_params, if_pos rfl]

theorem about_emptyLinksMsg (path : Bytes) (count : Int) :
    (emptyLinksMsg path count).About path := by
  refine ⟨by simp [emptyLinksMsg, entryKinds], ?_⟩
  rw [Msg.path, emptyLinksMsg, lookup_params, if_neg (by decide), lookup_params, if_pos rfl]

theorem about_emptyEntryMsg (path : Bytes) : (emptyEntryMsg path).About path := by
  refine ⟨by simp [emptyEntryMsg, entryKinds], ?_⟩
  rw [Msg.path, emptyEntryMsg, lookup_params, if_pos rfl]

section About

variable {archive options} {path : Bytes} {links : List HtmlLink} {m : Msg}

theorem mem_of_mem_reported {messages : List Msg} (h : m ∈ reported options messages) :
    m ∈ messages := by
  rw [reported] at h
  split at h
  · exact List.mem_of_mem_take h
  · exact h

theorem about_of_mem_internalMessages (h : m ∈ internalMessages archive options path links) :
    m.About path := by
  rw [internalMessages, linkLoop_eq, List.mem_append, List.mem_append] at h
  rcases h with (hfault | hempty) | hdangling
  · obtain ⟨l, -, hl⟩ := List.mem_filterMap.mp hfault
    rw [faultMessage] at hl
    split at hl
    · rw [← Option.some.inj hl]
      exact about_linkMsg (by decide) path l.link
    · rw [← Option.some.inj hl]
      exact about_linkMsg (by decide) path l.link
    · exact nomatch hl
  · rw [emptyLinksMessages] at hempty
    split at hempty
    · rw [List.mem_singleton.mp hempty]
      exact about_emptyLinksMsg path _
    · exact nomatch hempty
  · obtain ⟨p, -, rfl⟩ := List.mem_map.mp (mem_of_mem_reported hdangling)
    exact about_danglingMsg path p.1 p.2

theorem about_of_mem_pageMessages (h : m ∈ pageMessages archive options path links) :
    m.About path := by
  rw [pageMessages, List.mem_append] at h
  rcases h with hinternal | hexternal
  · split at hinternal
    · exact about_of_mem_internalMessages hinternal
    · exact nomatch hinternal
  · split at hexternal
    · obtain ⟨l, -, rfl⟩ := List.mem_map.mp (mem_of_mem_reported hexternal)
      exact about_linkMsg (by decide) path l.link
    · exact nomatch hexternal

theorem about_of_mem_itemMessages {item : Item} {messages : List Msg}
    (hmessages : itemMessages archive options item = some messages) (h : m ∈ messages) :
    m.About item.path := by
  rw [itemMessages] at hmessages
  split at hmessages
  · rw [← Option.some.inj hmessages, emptyEntryMessages] at h
    split at h
    · rw [List.mem_singleton.mp h]
      exact about_emptyEntryMsg item.path
    · exact nomatch h
  · split at hmessages
    · obtain ⟨links, -, rfl⟩ := Option.map_eq_some_iff.mp hmessages
      exact about_of_mem_pageMessages h
    · rw [← Option.some.inj hmessages] at h
      exact nomatch h

theorem checkedItem_eq_some {entry : Entry} {item : Item}
    (h : checkedItem archive entry = some item) : entry = .item item := by
  cases entry with
  | redirect index path target => exact nomatch h
  | item i =>
      rw [checkedItem] at h
      split at h
      · exact nomatch h
      · rw [Option.some.inj h]

/-- The messages of an entry name it. -/
theorem about_of_mem_entryMessages {entry : Entry} {messages : List Msg}
    (hmessages : entryMessages archive options entry = some messages) (h : m ∈ messages) :
    m.About entry.path := by
  rw [entryMessages] at hmessages
  split at hmessages
  · rw [← Option.some.inj hmessages] at h
    exact nomatch h
  · next item hitem =>
      rw [checkedItem_eq_some hitem]
      exact about_of_mem_itemMessages hmessages h

end About

/-! ## The cache -/

/-- What is in the cache is true of the archive. -/
def CacheValid (cache : LruCache Bytes Bool) : Prop :=
  ∀ e ∈ cache.contents, e.2 = archive.hasEntryByPath e.1

variable {archive options}

theorem isValidInternalLink_spec {cache : LruCache Bytes Bool} (h : CacheValid archive cache)
    (link : Bytes) :
    (isValidInternalLink archive cache link).1 = archive.hasEntryByPath link ∧
      CacheValid archive (isValidInternalLink archive cache link).2 := by
  have hcontents := cache.getOrPut_contents link (archive.hasEntryByPath link)
  constructor
  · have hanswer := congrArg Prod.snd hcontents
    dsimp only at hanswer
    rw [isValidInternalLink]
    dsimp only
    rw [hanswer]
    rcases Recency.getOrPut_answer cache.data.maxSize link (archive.hasEntryByPath link)
      cache.contents with ⟨val, hmem, hhit⟩ | ⟨-, hput⟩
    · rw [hhit]
      exact h _ hmem
    · rw [hput]
      rfl
  · intro e he
    have hkept := congrArg Prod.fst hcontents
    dsimp only at hkept
    rw [isValidInternalLink] at he
    dsimp only at he
    rw [hkept] at he
    rcases Recency.mem_of_mem_getOrPut he with hold | rfl
    · exact h e hold
    · rfl

theorem danglingMessages_cons (path : Bytes) (p : Bytes × List Bytes)
    (ps : List (Bytes × List Bytes)) :
    danglingMessages archive path (p :: ps) =
      if archive.hasEntryByPath p.1 then danglingMessages archive path ps
      else danglingMsg path p.1 p.2 :: danglingMessages archive path ps := by
  rw [danglingMessages, List.filter_cons]
  cases archive.hasEntryByPath p.1 <;> rfl

variable (options) in
theorem checkGroupedLinks_spec (path : Bytes) : ∀ (groups : List (Bytes × List Bytes))
    {cache : LruCache Bytes Bool}, CacheValid archive cache →
    CacheValid archive (checkGroupedLinks archive options path cache groups).1 ∧
      (checkGroupedLinks archive options path cache groups).2 =
        reported options (danglingMessages archive path groups)
  | [], cache, h => ⟨h, by simp [checkGroupedLinks, danglingMessages, reported]⟩
  | p :: ps, cache, h => by
      obtain ⟨hanswer, hvalid⟩ := isValidInternalLink_spec h p.1
      have ih := checkGroupedLinks_spec path ps hvalid
      rw [danglingMessages_cons, checkGroupedLinks]
      dsimp only
      rw [hanswer]
      cases archive.hasEntryByPath p.1 with
      | true => exact ih
      | false =>
          cases hquick : options.quick with
          | true => exact ⟨hvalid, by simp [reported, hquick]⟩
          | false =>
              refine ⟨ih.1, ?_⟩
              have hmessages := ih.2
              simp only [reported, hquick] at hmessages ⊢
              exact congrArg _ hmessages

theorem checkInternalLinks_spec {cache : LruCache Bytes Bool} (h : CacheValid archive cache)
    (path : Bytes) (links : List HtmlLink) :
    CacheValid archive (checkInternalLinks archive options cache path links).1 ∧
      (checkInternalLinks archive options cache path links).2 =
        internalMessages archive options path links := by
  obtain ⟨hvalid, hmessages⟩ := checkGroupedLinks_spec options path
    (linkLoop path links).groupedLinks.toList h
  refine ⟨hvalid, ?_⟩
  rw [internalMessages, ← hmessages]
  rfl

theorem checkExternalLinks_eq (path : Bytes) : ∀ links : List HtmlLink,
    checkExternalLinks options path links = reported options (externalMessages path links)
  | [] => by simp [checkExternalLinks, externalMessages, reported]
  | l :: ls => by
      have ih := checkExternalLinks_eq path ls
      rw [checkExternalLinks, externalMessages, List.filter_cons]
      by_cases hl : l.attr = .src ∧ l.isExternalUrl = true
      · rw [if_pos hl, if_pos (decide_eq_true hl)]
        cases hquick : options.quick with
        | true => simp [reported, hquick]
        | false =>
            simp only [reported, hquick, externalMessages] at ih ⊢
            exact congrArg (List.cons _) ih
      · rw [if_neg hl, if_neg (by simpa using hl)]
        exact ih

/-! ## The checker -/

variable (archive) in
/-- The state of the checker when some items have been put into the table. -/
structure Checked (c : ArticleChecker) (items : List Item) : Prop where
  cache : CacheValid archive c.linkStatusCache
  table : c.hashMain = Buckets.ofList (tableEntries archive items)

theorem Checked.holds {c : ArticleChecker} {items : List Item} (h : Checked archive c items) :
    Buckets.Holds c.hashMain (tableEntries archive items) :=
  h.table ▸ Buckets.holds_ofList _

variable (archive) in
theorem checked_create : Checked archive .create [] where
  cache := by
    intro e he
    exact nomatch he
  table := rfl

variable (archive options) in
/-- The table behind the check of an item with data. -/
def recordItem (hashMain : Std.TreeMap UInt32 (List EntryIndex)) (item : Item) :
    Std.TreeMap UInt32 (List EntryIndex) :=
  if options.enabledTests .redundant then
    Buckets.push hashMain (adler32 (archive.getData item)) item.index
  else hashMain

theorem recordedItems_of_empty {item : Item} (hdata : (archive.getData item).length = 0) :
    recordedItems archive options [item] = [] := by
  simp [recordedItems, hdata]

theorem Checked.record {c : ArticleChecker} {done : List Item} {item : Item}
    (h : Checked archive c done) (hdata : (archive.getData item).length ≠ 0)
    {cache : LruCache Bytes Bool} (hcache : CacheValid archive cache) :
    Checked archive ⟨recordItem archive options c.hashMain item, cache⟩
      (done ++ recordedItems archive options [item]) where
  cache := hcache
  table := by
    rw [recordItem]
    cases hredundant : options.enabledTests .redundant with
    | true =>
        have hitems : recordedItems archive options [item] = [item] := by
          simp [recordedItems, hredundant, hdata]
        rw [hitems, tableEntries, List.map_append, Buckets.ofList, List.foldl_append, h.table]
        rfl
    | false =>
        have hitems : recordedItems archive options [item] = [] := by
          simp [recordedItems, hredundant]
        rw [hitems, List.append_nil]
        exact h.table

theorem checkItem_of_empty {c : ArticleChecker} {item : Item}
    (hdata : (archive.getData item).length = 0) :
    c.checkItem archive options item = some (c, emptyEntryMessages archive options item) := by
  rw [checkItem, if_pos hdata, emptyEntryMessages]
  dsimp only
  split <;> rfl

theorem checkItem_of_not_html {c : ArticleChecker} {item : Item}
    (hdata : (archive.getData item).length ≠ 0) (hhtml : item.mimetype ≠ str "text/html") :
    c.checkItem archive options item =
      some (⟨recordItem archive options c.hashMain item, c.linkStatusCache⟩, []) := by
  rw [checkItem, if_neg hdata]
  dsimp only
  rw [if_pos hhtml, recordItem]
  cases options.enabledTests .redundant <;> simp

variable (options) in
theorem checkItem_of_html {c : ArticleChecker} {item : Item}
    (hdata : (archive.getData item).length ≠ 0) (hhtml : item.mimetype = str "text/html")
    (hcache : CacheValid archive c.linkStatusCache) :
    ∃ cache : List HtmlLink → LruCache Bytes Bool, (∀ links, CacheValid archive (cache links)) ∧
      c.checkItem archive options item = (pageLinks archive options item).map fun links =>
        (⟨recordItem archive options c.hashMain item, cache links⟩,
          pageMessages archive options item.path links) := by
  refine ⟨fun links => if options.enabledTests .urlInternal then
    (checkInternalLinks archive options c.linkStatusCache item.path links).1
    else c.linkStatusCache, fun links => ?_, ?_⟩
  · split
    · exact (checkInternalLinks_spec hcache item.path links).1
    · exact hcache
  · rw [checkItem, if_neg hdata]
    dsimp only
    rw [if_neg (not_not.mpr hhtml), if_pos (Or.inr hhtml)]
    refine congrFun (congrArg Option.map (funext fun links => ?_)) _
    rw [pageMessages, ← (checkInternalLinks_spec hcache item.path links).2,
      checkExternalLinks_eq, recordItem]
    cases options.enabledTests .urlInternal <;> rfl

variable (options) in
/-- The check of an item reports the messages of the item, and is undefined
with them. -/
theorem checkItem_spec {c : ArticleChecker} {done : List Item} (h : Checked archive c done)
    (item : Item) :
    match itemMessages archive options item with
    | none => c.checkItem archive options item = none
    | some messages => ∃ c', c.checkItem archive options item = some (c', messages) ∧
        Checked archive c' (done ++ recordedItems archive options [item]) := by
  rw [itemMessages]
  by_cases hdata : (archive.getData item).length = 0
  · rw [if_pos hdata, recordedItems_of_empty hdata, List.append_nil]
    exact ⟨c, checkItem_of_empty hdata, h⟩
  · rw [if_neg hdata]
    by_cases hhtml : item.mimetype = str "text/html"
    · obtain ⟨cache, hcache, hcheck⟩ := checkItem_of_html options hdata hhtml h.cache
      rw [if_pos hhtml, hcheck]
      cases pageLinks archive options item with
      | none => rfl
      | some links => exact ⟨_, rfl, h.record hdata (hcache links)⟩
    · rw [if_neg hhtml]
      exact ⟨_, checkItem_of_not_html hdata hhtml, h.record hdata h.cache⟩

theorem check_of_none {c : ArticleChecker} {entry : Entry}
    (hitem : checkedItem archive entry = none) :
    c.check archive options entry = some (c, []) := by
  cases entry with
  | redirect index path target => rfl
  | item i =>
      rw [checkedItem] at hitem
      split at hitem
      · next hns => rw [check, if_pos hns]
      · exact absurd hitem (Option.some_ne_none i)

theorem check_of_some {c : ArticleChecker} {entry : Entry} {item : Item}
    (hitem : checkedItem archive entry = some item) :
    c.check archive options entry = c.checkItem archive options item := by
  cases entry with
  | redirect index path target => exact nomatch hitem
  | item i =>
      rw [checkedItem] at hitem
      split at hitem
      · exact nomatch hitem
      · next hns =>
          obtain rfl := Option.some.inj hitem
          rw [check, if_neg hns]

variable (options) in
theorem check_spec {c : ArticleChecker} {done : List Item} (h : Checked archive c done)
    (entry : Entry) :
    match entryMessages archive options entry with
    | none => c.check archive options entry = none
    | some messages => ∃ c', c.check archive options entry = some (c', messages) ∧
        Checked archive c'
          (done ++ recordedItems archive options (checkedItems archive [entry])) := by
  rw [entryMessages, checkedItems, List.filterMap_cons]
  cases hitem : checkedItem archive entry with
  | none =>
      rw [List.filterMap_nil, recordedItems, List.filter_nil, List.append_nil]
      exact ⟨c, check_of_none hitem, h⟩
  | some item =>
      rw [check_of_some hitem, List.filterMap_nil]
      exact checkItem_spec options h item

theorem recordedItems_cons (entry : Entry) (entries : List Entry) :
    recordedItems archive options (checkedItems archive (entry :: entries)) =
      recordedItems archive options (checkedItems archive [entry]) ++
        recordedItems archive options (checkedItems archive entries) := by
  rw [recordedItems, checkedItems, ← List.singleton_append, List.filterMap_append,
    List.filter_append]
  rfl

variable (options) in
/-- The checks of a list of entries report the messages of each in turn. -/
theorem checkAll_spec : ∀ (order : List Entry) {c : ArticleChecker} {done : List Item},
    Checked archive c done →
    match order.mapM (entryMessages archive options) with
    | none => c.checkAll archive options order = none
    | some messages => ∃ c', c.checkAll archive options order = some (c', messages.flatten) ∧
        Checked archive c' (done ++ recordedItems archive options (checkedItems archive order))
  | [], c, done, h => ⟨c, rfl, by simpa [checkedItems, recordedItems] using h⟩
  | e :: es, c, done, h => by
      have hcheck := check_spec options h e
      rw [List.mapM_cons, recordedItems_cons]
      cases hmessages : entryMessages archive options e with
      | none =>
          rw [hmessages] at hcheck
          rw [Option.bind_eq_bind, Option.bind_none, checkAll, hcheck]
          rfl
      | some messages =>
          rw [hmessages] at hcheck
          obtain ⟨c', hc', hchecked⟩ := hcheck
          have ih := checkAll_spec es hchecked
          rw [Option.bind_eq_bind, Option.bind_some, checkAll, hc']
          cases hrest : es.mapM (entryMessages archive options) with
          | none =>
              rw [hrest] at ih
              simp [ih]
          | some rest =>
              rw [hrest] at ih
              obtain ⟨c'', hc'', hchecked'⟩ := ih
              rw [List.append_assoc] at hchecked'
              exact ⟨c'', by simp [hc''], hchecked'⟩

end Zimcheck
end ZimTools
