import Mathlib.Algebra.GroupWithZero.Nat
import ZimTools.Zimcheck.EntryMessages

/-!
# What is reported of the internal links

`check_internal_links` files each link of a page under one class.  A link that
resolves goes on into a map of groups, and a lookup in the cache decides about
each group.  Without the quick option nothing is lost on that way and nothing
comes in: the messages are those that `Filed` says of the links one by one, as
long as the counter of the empty links does not overflow
(`checkInternalLinks_filed_iff`).
-/

namespace ZimTools
namespace Zimcheck

open Bytes ArticleChecker

/-! ## Classes -/

/-- A link that is resolved. -/
def Resolvable (l : HtmlLink) : Prop :=
  ∃ c rest, l.link = c :: rest ∧ c ≠ char '#' ∧ c ≠ char '?' ∧ l.isInternalUrl = true

/-- What it is for a link to be in a class. -/
def InClass (path : Bytes) (l : HtmlLink) : LinkClass → Prop
  | .empty => l.link = []
  | .skipped => l.link ≠ [] ∧ ¬ Resolvable l
  | .absolutePath => Resolvable l ∧
      ∃ url, resolveLinkTarget l.link path = .error (.absolutePathURL url)
  | .outOfBounds => Resolvable l ∧
      ∃ url, resolveLinkTarget l.link path = .error (.outOfBoundsURL url)
  | .resolved resolved => Resolvable l ∧ resolveLinkTarget l.link path = .ok resolved

theorem classify_of_resolvable (path : Bytes) {l : HtmlLink} (h : Resolvable l) :
    classify path l =
      match resolveLinkTarget l.link path with
      | .error (.absolutePathURL _) => .absolutePath
      | .error (.outOfBoundsURL _) => .outOfBounds
      | .ok resolved => .resolved resolved := by
  obtain ⟨c, rest, hcons, hhash, hquestion, hinternal⟩ := h
  rw [classify, hcons]
  dsimp only
  rw [if_neg (not_or.mpr ⟨hhash, hquestion⟩), hinternal, if_neg (by decide)]
  rfl

theorem classify_of_not_resolvable (path : Bytes) {l : HtmlLink} (hne : l.link ≠ [])
    (h : ¬ Resolvable l) : classify path l = .skipped := by
  obtain ⟨c, rest, hcons⟩ := List.exists_cons_of_ne_nil hne
  rw [classify, hcons]
  dsimp only
  split
  · rfl
  · next hmark =>
      split
      · rfl
      · next hinternal =>
          obtain ⟨hhash, hquestion⟩ := not_or.mp hmark
          exact absurd
            ⟨c, rest, hcons, hhash, hquestion, Bool.eq_true_of_not_eq_false hinternal⟩ h

/-- A link is in exactly one class. -/
theorem inClass_iff {path : Bytes} {l : HtmlLink} {k : LinkClass} :
    InClass path l k ↔ classify path l = k := by
  by_cases hnil : l.link = []
  · have hclass : classify path l = .empty := by
      rw [classify, hnil]
    have hresolvable : ¬ Resolvable l := by
      rintro ⟨c, rest, hcons, -⟩
      exact absurd (hcons.symm.trans hnil) (List.cons_ne_nil c rest)
    rw [hclass]
    cases k <;> simp [InClass, hnil, hresolvable]
  · by_cases hresolvable : Resolvable l
    · rw [classify_of_resolvable path hresolvable]
      cases hresolve : resolveLinkTarget l.link path with
      | ok resolved => cases k <;> simp [InClass, hnil, hresolvable, hresolve]
      | error e => cases e <;> cases k <;> simp [InClass, hnil, hresolvable, hresolve]
    · rw [classify_of_not_resolvable path hnil hresolvable]
      cases k <;> simp [InClass, hnil, hresolvable]

/-! ## The messages of the classes -/

/-- The path of a message about links that lead nowhere. -/
def Msg.normalizedLink (m : Msg) : Option Bytes :=
  match m.msgParams.lookup (str "normalized_link") with
  | some (.string link) => some link
  | _ => none

/-- The links that resolve to a path, in their order. -/
def occurrences (path : Bytes) (links : List HtmlLink) (resolved : Bytes) : List Bytes :=
  (links.filter fun l => classify path l = .resolved resolved).map (·.link)

/-- Every link is reported as its class has it. -/
structure Filed (archive : Archive) (path : Bytes) (links : List HtmlLink) (messages : List Msg) :
    Prop where
  kinds : ∀ m ∈ messages,
    m.msgId ∈ [MsgId.emptyLinks, .absPathLink, .outOfBoundsLink, .danglingLinks]
  /-- One message for all empty links. -/
  empty : messages.filter (·.msgId = .emptyLinks) =
    if links.countP (classify path · = .empty) = 0 then []
    else [emptyLinksMsg path (links.countP (classify path · = .empty))]
  absolutePath : messages.filter (·.msgId = .absPathLink) =
    (links.filter (classify path · = .absolutePath)).map (linkMsg .absPathLink path ·.link)
  outOfBounds : messages.filter (·.msgId = .outOfBoundsLink) =
    (links.filter (classify path · = .outOfBounds)).map (linkMsg .outOfBoundsLink path ·.link)
  /-- One message for each path that links resolve to and that is not there. -/
  dangling : ∀ resolved,
    messages.filter (fun m => m.msgId = .danglingLinks ∧ m.normalizedLink = some resolved) =
      if occurrences path links resolved ≠ [] ∧ archive.hasEntryByPath resolved = false then
        [danglingMsg path resolved (occurrences path links resolved)]
      else []
  danglingNamed : ∀ m ∈ messages, m.msgId = .danglingLinks → m.normalizedLink ≠ none

theorem values_resolvedLink (path : Bytes) (links : List HtmlLink) (resolved : Bytes) :
    Buckets.values (links.filterMap (resolvedLink path)) resolved =
      occurrences path links resolved := by
  induction links with
  | nil => rfl
  | cons l links ih =>
      rw [Buckets.values, occurrences] at ih ⊢
      rw [List.filterMap_cons, resolvedLink, List.filter_cons]
      cases hclass : classify path l with
      | resolved r =>
          by_cases hr : r = resolved
          · subst hr
            simpa using ih
          · simpa [hr] using ih
      | _ => simpa using ih

theorem normalizedLink_danglingMsg (path link : Bytes) (links : List Bytes) :
    (danglingMsg path link links).normalizedLink = some link := by
  rw [Msg.normalizedLink, danglingMsg, lookup_params, if_neg (by decide), lookup_params, if_pos rfl]

theorem filter_filterMap_faultMessage (path : Bytes) (links : List HtmlLink) (kind : MsgId)
    (linkClass : LinkClass)
    (h : ∀ l, (faultMessage path l).filter (·.msgId = kind) =
      if classify path l = linkClass then some (linkMsg kind path l.link) else none) :
    (links.filterMap (faultMessage path)).filter (·.msgId = kind) =
      (links.filter (classify path · = linkClass)).map (linkMsg kind path ·.link) := by
  rw [List.filter_filterMap]
  simp only [h]
  induction links with
  | nil => rfl
  | cons l links ih =>
      rw [List.filterMap_cons, List.filter_cons, ih]
      by_cases hl : classify path l = linkClass
      · simp [hl]
      · simp [hl]

theorem kind_of_mem_faults {path : Bytes} {links : List HtmlLink} {m : Msg}
    (h : m ∈ links.filterMap (faultMessage path)) :
    m.msgId = .absPathLink ∨ m.msgId = .outOfBoundsLink := by
  obtain ⟨l, -, hl⟩ := List.mem_filterMap.mp h
  rw [faultMessage] at hl
  split at hl
  · rw [← Option.some.inj hl]
    exact Or.inl rfl
  · rw [← Option.some.inj hl]
    exact Or.inr rfl
  · exact absurd hl.symm (Option.some_ne_none m)

theorem kind_of_mem_empties {path : Bytes} {links : List HtmlLink} {m : Msg}
    (h : m ∈ emptyLinksMessages path links) : m.msgId = .emptyLinks := by
  rw [emptyLinksMessages] at h
  split at h
  · rw [List.mem_singleton.mp h]
    rfl
  · exact absurd h List.not_mem_nil

theorem kind_of_mem_dangling {archive : Archive} {path : Bytes} {groups : List (Bytes × List Bytes)}
    {m : Msg} (h : m ∈ danglingMessages archive path groups) :
    m.msgId = .danglingLinks ∧ m.normalizedLink ≠ none := by
  obtain ⟨p, -, rfl⟩ := List.mem_map.mp h
  rw [normalizedLink_danglingMsg]
  exact ⟨rfl, Option.some_ne_none p.1⟩

/-- The groups of links are filed under the paths that are not there. -/
theorem filter_danglingMessages (archive : Archive) (path : Bytes) (links : List HtmlLink)
    (resolved : Bytes) :
    (danglingMessages archive path (linkLoop path links).groupedLinks.toList).filter
        (fun m => m.msgId = .danglingLinks ∧ m.normalizedLink = some resolved) =
      if occurrences path links resolved ≠ [] ∧ archive.hasEntryByPath resolved = false then
        [danglingMsg path resolved (occurrences path links resolved)]
      else [] := by
  have hgroups := (Buckets.holds_ofList (links.filterMap (resolvedLink path))).filter_toList resolved
  rw [values_resolvedLink] at hgroups
  have hnamed : ((fun m : Msg => decide (m.msgId = .danglingLinks ∧
      m.normalizedLink = some resolved)) ∘ fun p : Bytes × List Bytes => danglingMsg path p.1 p.2) =
        fun p => decide (p.1 = resolved) := by
    funext p
    simp only [Function.comp_apply, normalizedLink_danglingMsg, Option.some.injEq]
    exact decide_eq_decide.mpr (and_iff_right rfl)
  rw [danglingMessages, linkLoop_eq, List.filter_map, hnamed, List.filter_comm, hgroups]
  by_cases hnil : occurrences path links resolved = []
  · simp [hnil]
  · cases hentry : archive.hasEntryByPath resolved <;> simp [hnil, hentry]

/-- What asks for one kind of message finds none among messages of other kinds. -/
theorem filter_eq_nil_of_kinds {messages : List Msg} {kinds : List MsgId} {kind : MsgId}
    {q : Msg → Bool} (hq : ∀ m, q m = true → m.msgId = kind) (h : ∀ m ∈ messages, m.msgId ∈ kinds)
    (hkind : kind ∉ kinds) : messages.filter q = [] := by
  refine List.filter_eq_nil_iff.mpr fun m hm hqm => ?_
  exact hkind (hq m hqm ▸ h m hm)

theorem filter_kind_eq_nil {messages : List Msg} {kinds : List MsgId} {kind : MsgId}
    (h : ∀ m ∈ messages, m.msgId ∈ kinds) (hkind : kind ∉ kinds) :
    messages.filter (·.msgId = kind) = [] :=
  filter_eq_nil_of_kinds (fun _ => of_decide_eq_true) h hkind

theorem emptyLinksMsg_injective (path : Bytes) : Function.Injective (emptyLinksMsg path) := by
  intro a b h
  have hcount := congrArg (fun m : Msg => m.msgParams.lookup (str "count")) h
  simp only [emptyLinksMsg, lookup_params, if_pos, Option.some.injEq, Data.string.injEq] at hcount
  exact numberToString_injective hcount

/-- The number of the empty links is right below the bound of the counter. -/
theorem filter_emptyLinksMessages_iff (path : Bytes) (links : List HtmlLink) :
    (emptyLinksMessages path links).filter (·.msgId = .emptyLinks) =
        (if links.countP (classify path · = .empty) = 0 then []
        else [emptyLinksMsg path (links.countP (classify path · = .empty))]) ↔
      links.countP (classify path · = .empty) < 2 ^ 31 := by
  have hself : (emptyLinksMessages path links).filter (·.msgId = .emptyLinks) =
      emptyLinksMessages path links :=
    List.filter_eq_self.mpr fun m hm => decide_eq_true (kind_of_mem_empties hm)
  rw [hself, emptyLinksMessages, linkLoop_eq]
  dsimp only
  generalize links.countP (classify path · = .empty) = n
  constructor
  · intro h
    by_contra hlarge
    have hne : n ≠ 0 := by omega
    have hlt := (Int32.ofNat n).toInt_lt
    rw [if_neg hne] at h
    split at h
    · have hcount := emptyLinksMsg_injective path (List.singleton_inj.mp h)
      omega
    · exact absurd h.symm (List.cons_ne_nil _ _)
  · intro hlt
    have hcount : (Int32.ofNat n).toInt = n := Int32.toInt_ofNat_of_lt hlt
    have hzero : Int32.ofNat n = 0 ↔ n = 0 := by
      rw [← Int32.toInt_inj, hcount]
      exact Int.natCast_eq_zero
    rw [hcount]
    by_cases hn : n = 0
    · rw [if_pos hn, if_neg (not_not.mpr (hzero.mpr hn))]
    · rw [if_neg hn, if_pos (mt hzero.mp hn)]

theorem filter_faults (path : Bytes) (links : List HtmlLink) :
    (links.filterMap (faultMessage path)).filter (·.msgId = .absPathLink) =
        (links.filter (classify path · = .absolutePath)).map (linkMsg .absPathLink path ·.link) ∧
      (links.filterMap (faultMessage path)).filter (·.msgId = .outOfBoundsLink) =
        (links.filter (classify path · = .outOfBounds)).map
          (linkMsg .outOfBoundsLink path ·.link) := by
  constructor
  · refine filter_filterMap_faultMessage path links _ _ fun l => ?_
    cases hclass : classify path l <;> simp [faultMessage, hclass, linkMsg]
  · refine filter_filterMap_faultMessage path links _ _ fun l => ?_
    cases hclass : classify path l <;> simp [faultMessage, hclass, linkMsg]

theorem internalMessages_filed_iff (archive : Archive) {options : ZimCheckOptions}
    (hquick : options.quick = false) (path : Bytes) (links : List HtmlLink) :
    Filed archive path links (internalMessages archive options path links) ↔
      links.countP (classify path · = .empty) < 2 ^ 31 := by
  have hall : internalMessages archive options path links =
      links.filterMap (faultMessage path) ++ emptyLinksMessages path links ++
        danglingMessages archive path (linkLoop path links).groupedLinks.toList := by
    rw [internalMessages, reported, hquick, if_neg (by decide), linkLoop_eq]
  have hfaults : ∀ m ∈ links.filterMap (faultMessage path),
      m.msgId ∈ [MsgId.absPathLink, .outOfBoundsLink] := fun m hm => by
    rcases kind_of_mem_faults hm with heq | heq <;> simp [heq]
  have hempties : ∀ m ∈ emptyLinksMessages path links, m.msgId ∈ [MsgId.emptyLinks] :=
    fun m hm => List.mem_singleton.mpr (kind_of_mem_empties hm)
  have hdangling : ∀ m ∈ danglingMessages archive path (linkLoop path links).groupedLinks.toList,
      m.msgId ∈ [MsgId.danglingLinks] :=
    fun m hm => List.mem_singleton.mpr (kind_of_mem_dangling hm).1
  have hempty : (links.filterMap (faultMessage path) ++ emptyLinksMessages path links ++
      danglingMessages archive path (linkLoop path links).groupedLinks.toList).filter
        (·.msgId = .emptyLinks) =
      (emptyLinksMessages path links).filter (·.msgId = .emptyLinks) := by
    rw [List.filter_append, List.filter_append, filter_kind_eq_nil hfaults (by decide),
      filter_kind_eq_nil hdangling (by decide), List.nil_append, List.append_nil]
  rw [hall, ← filter_emptyLinksMessages_iff]
  refine ⟨fun h => hempty.symm.trans h.empty, fun hcount => ⟨?_, hempty.trans hcount, ?_, ?_, ?_, ?_⟩⟩
  · intro m hm
    simp only [List.mem_append] at hm
    rcases hm with (hm | hm) | hm
    · exact List.mem_cons_of_mem _ (List.mem_append_left [MsgId.danglingLinks] (hfaults m hm))
    · exact List.mem_append_left [MsgId.absPathLink, .outOfBoundsLink, .danglingLinks]
        (hempties m hm)
    · exact List.mem_append_right [MsgId.emptyLinks, .absPathLink, .outOfBoundsLink]
        (hdangling m hm)
  · rw [List.filter_append, List.filter_append, (filter_faults path links).1,
      filter_kind_eq_nil hempties (by decide), filter_kind_eq_nil hdangling (by decide),
      List.append_nil, List.append_nil]
  · rw [List.filter_append, List.filter_append, (filter_faults path links).2,
      filter_kind_eq_nil hempties (by decide), filter_kind_eq_nil hdangling (by decide),
      List.append_nil, List.append_nil]
  · intro resolved
    have hnamed : ∀ m : Msg, decide (m.msgId = .danglingLinks ∧ m.normalizedLink = some resolved) =
        true → m.msgId = .danglingLinks := fun m h => (of_decide_eq_true h).1
    rw [List.filter_append, List.filter_append, filter_danglingMessages,
      filter_eq_nil_of_kinds hnamed hfaults (by decide),
      filter_eq_nil_of_kinds hnamed hempties (by decide), List.nil_append, List.nil_append]
  · intro m hm heq
    simp only [List.mem_append] at hm
    rcases hm with (hm | hm) | hm
    · have hkind := hfaults m hm
      rw [heq] at hkind
      exact absurd hkind (by decide)
    · have hkind := hempties m hm
      rw [heq] at hkind
      exact absurd hkind (by decide)
    · exact (kind_of_mem_dangling hm).2

/-- The cache of a checker that has checked some entries. -/
theorem cacheValid_of_checkAll {archive : Archive} {options : ZimCheckOptions}
    {order : List Entry} {c : ArticleChecker} {messages : List Msg}
    (h : ArticleChecker.create.checkAll archive options order = some (c, messages)) :
    CacheValid archive c.linkStatusCache := by
  have hspec := checkAll_spec options order (checked_create archive)
  cases hmessages : order.mapM (entryMessages archive options) with
  | none =>
      rw [hmessages] at hspec
      exact absurd (hspec.symm.trans h).symm (Option.some_ne_none _)
  | some all =>
      rw [hmessages] at hspec
      obtain ⟨c', hc', hchecked⟩ := hspec
      obtain ⟨rfl, -⟩ := Prod.mk.inj (Option.some.inj (hc'.symm.trans h))
      exact hchecked.cache

/-- Whatever entries were checked before, every link of a page is filed and
reported under its one class, if and only if fewer than `2 ^ 31` of them are
empty. -/
theorem checkInternalLinks_filed_iff {archive : Archive} {options : ZimCheckOptions}
    (hquick : options.quick = false) {order : List Entry} {c : ArticleChecker}
    {messages : List Msg}
    (hchecked : ArticleChecker.create.checkAll archive options order = some (c, messages))
    (path : Bytes) (links : List HtmlLink) :
    ((∀ l ∈ links, ∃! k, InClass path l k) ∧ (∀ l k, InClass path l k ↔ classify path l = k) ∧
      Filed archive path links
        (checkInternalLinks archive options c.linkStatusCache path links).2) ↔
      (links.filter (·.link = [])).length < 2 ^ 31 := by
  have hempty : links.countP (classify path · = .empty) = (links.filter (·.link = [])).length := by
    rw [← List.countP_eq_length_filter]
    refine List.countP_congr fun l _ => ?_
    rw [decide_eq_true_iff, decide_eq_true_iff]
    exact (inClass_iff (k := .empty)).symm
  rw [(checkInternalLinks_spec (cacheValid_of_checkAll hchecked) path links).2,
    internalMessages_filed_iff archive hquick, hempty]
  refine ⟨fun h => h.2.2, fun h => ⟨fun l _ => ⟨classify path l, inClass_iff.mpr rfl,
    fun k hk => (inClass_iff.mp hk).symm⟩, fun l k => inClass_iff, h⟩⟩

/-- An archive without entries. -/
def noEntries : Archive where
  hasNewNamespaceScheme := true
  entries := []
  hasEntryByPath := fun _ => false
  blob := fun _ _ => []
  indexed := rfl
  paths := by simp

/-- Two spellings of one link that leads nowhere. -/
theorem checkInternalLinks_filed_sample :
    (checkInternalLinks noEntries ⟨fun _ => true, false⟩ ArticleChecker.create.linkStatusCache
        (str "a") [⟨.href, str "b"⟩, ⟨.href, str "./b"⟩]).2.filter
        (fun m => m.msgId = .danglingLinks ∧ m.normalizedLink = some (str "b")) =
      [danglingMsg (str "a") (str "b") [str "b", str "./b"]] :=
  (((@checkInternalLinks_filed_iff noEntries ⟨fun _ => true, false⟩ rfl [] _ _ rfl (str "a")
    [⟨.href, str "b"⟩, ⟨.href, str "./b"⟩]).mpr (by decide)).2.2.dangling (str "b")).trans
      (if_pos (by decide))

/-- With `2 ^ 31` empty links the counter is negative. -/
theorem checkInternalLinks_overflow : ¬ ∀ (archive : Archive) (options : ZimCheckOptions)
    (path : Bytes) (links : List HtmlLink), options.quick = false →
      Filed archive path links
        (checkInternalLinks archive options ArticleChecker.create.linkStatusCache path links).2 := by
  intro h
  have hfiled := h noEntries ⟨fun _ => true, false⟩ (str "a")
    (List.replicate (2 ^ 31) ⟨.href, []⟩) rfl
  have hchecked : ArticleChecker.create.checkAll noEntries ⟨fun _ => true, false⟩ [] =
      some (ArticleChecker.create, []) := rfl
  rw [(checkInternalLinks_spec (cacheValid_of_checkAll hchecked) _ _).2,
    internalMessages_filed_iff noEntries rfl, List.countP_replicate] at hfiled
  exact absurd hfiled (by decide)

end Zimcheck
end ZimTools
