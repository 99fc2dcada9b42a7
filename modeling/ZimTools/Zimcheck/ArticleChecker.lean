import ZimTools.Cache.LruCache
import ZimTools.Lib.Buckets
import ZimTools.Lib.Loop
import ZimTools.Std.Decimal
import ZimTools.Tools.HtmlLinks
import ZimTools.Tools.LinkResolver
import ZimTools.Zimcheck.ErrorLogger
import ZimTools.Zimcheck.RedirectionTable

/-!
# The checks of the articles

`ArticleChecker` checks the entries of an archive one after the other, in the
order its callers choose.  It keeps a table of the items under the checksums of
their data, and a cache of which paths are in the archive.  When all entries are
checked, the items with the same data are looked for in the table.

A check gives the messages that it reports, in their order.  It is `none` when
the scan of a page for its links reads behind the page, and then nothing is
known about it.
-/

namespace ZimTools

open Bytes

namespace Zimcheck

/-! ## Archives -/

/-- A `zim::Item`. -/
structure Item where
  index : EntryIndex
  path : Bytes
  mimetype : Bytes
  clusterIndex : UInt32
  blobIndex : UInt32
deriving DecidableEq, Repr

/-- A `zim::Entry`. -/
inductive Entry where
  | redirect (index : EntryIndex) (path : Bytes) (redirectEntryIndex : EntryIndex)
  | item (item : Item)
deriving DecidableEq, Repr

namespace Entry

def index : Entry → EntryIndex
  | redirect index _ _ => index
  | .item i => i.index

def path : Entry → Bytes
  | redirect _ path _ => path
  | .item i => i.path

end Entry

/-- What the checks read of a `zim::Archive`. -/
structure Archive where
  hasNewNamespaceScheme : Bool
  /-- The entries in the order of their indices. -/
  entries : List Entry
  hasEntryByPath : Bytes → Bool
  /-- The blob of a cluster. -/
  blob : UInt32 → UInt32 → Bytes
  /-- The index of an entry is its place. -/
  indexed : entries.map (fun e => e.index.toNat) = List.range entries.length
  /-- A path names its entry. -/
  paths : ∀ e ∈ entries, ∀ e' ∈ entries, e.path = e'.path → e = e'

namespace Archive

/-- `getEntryByPath`, on an index. -/
def getEntryByPath (archive : Archive) (index : EntryIndex) : Option Entry :=
  archive.entries[index.toNat]?

/-- `getEntryByPath(index).getItem()`, which throws for a redirect. -/
def getItem (archive : Archive) (index : EntryIndex) : Option Item :=
  match archive.getEntryByPath index with
  | some (.item item) => some item
  | _ => none

def getData (archive : Archive) (item : Item) : Bytes :=
  archive.blob item.clusterIndex item.blobIndex

end Archive

def areAliases (i1 i2 : Item) : Prop :=
  i1.clusterIndex = i2.clusterIndex ∧ i1.blobIndex = i2.blobIndex

instance (i1 i2 : Item) : Decidable (areAliases i1 i2) :=
  inferInstanceAs (Decidable (_ ∧ _))

/-! ## Messages -/

/-- A call of `ErrorLogger::addMsg`. -/
structure Msg where
  msgId : MsgId
  msgParams : MsgParams

/-- The parameters written as `{{name, value}, …}`. -/
def params (l : List (Bytes × Data)) : MsgParams := l.foldr (fun e p => p.insert e.1 e.2) ∅

/-! ## The checker -/

structure ZimCheckOptions where
  enabledTests : EnabledTests
  quick : Bool

/-- A `char`, which is signed, as an `unsigned int`. -/
def charToUInt32 (c : UInt8) : UInt32 := if c < 128 then c.toUInt32 else c.toUInt32 + 0xFFFFFF00

def adler32 (buf : Bytes) : UInt32 :=
  let sz := UInt32.ofNat buf.length
  let (s1, s2) := (buf.take sz.toNat).foldl (fun (s1, s2) c =>
    let s1 := (s1 + charToUInt32 c) % 65521
    (s1, (s2 + s1) % 65521)) ((1, 0) : UInt32 × UInt32)
  (s2 <<< 16) ||| s1

/-- The data of an `ArticleChecker` that its checks change. -/
structure ArticleChecker where
  hashMain : Std.TreeMap UInt32 (List EntryIndex)
  linkStatusCache : LruCache Bytes Bool

namespace ArticleChecker

def create : ArticleChecker := ⟨∅, .create (64 * 1024)⟩

variable (archive : Archive) (options : ZimCheckOptions)

/-! ### Links -/

/-- `is_valid_internal_link`, when no other call is running. -/
def isValidInternalLink (cache : LruCache Bytes Bool) (link : Bytes) :
    Bool × LruCache Bytes Bool :=
  let (cache, result) := cache.getOrPut link (archive.hasEntryByPath link)
  (result.value.getD false, cache)

abbrev GroupedLinkCollection := Std.TreeMap Bytes (List Bytes)

/-- What a link is for `check_internal_links`. -/
inductive LinkClass where
  | empty
  | skipped
  | absolutePath
  | outOfBounds
  | resolved (path : Bytes)
deriving DecidableEq, Repr

/-- The tests of the loop of `check_internal_links` on one link. -/
def classify (path : Bytes) (l : HtmlLink) : LinkClass :=
  match l.link with
  | [] => .empty
  | c :: _ =>
      if c = char '#' ∨ c = char '?' then .skipped
      else if l.isInternalUrl = false then .skipped
      else match (InternalLinkResolver.ofPath path).resolveLinkTarget l.link with
        | .error (.absolutePathURL _) => .absolutePath
        | .error (.outOfBoundsURL _) => .outOfBounds
        | .ok resolved => .resolved resolved

/-- The variables of that loop, and its messages.  The counter is an `int`, which is
taken to wrap. -/
structure LinkLoop where
  groupedLinks : GroupedLinkCollection
  nremptylinks : Int32
  messages : List Msg

def linkMsg (msgId : MsgId) (path link : Bytes) : Msg :=
  ⟨msgId, params [(str "link", .string link), (str "path", .string path)]⟩

def checkLink (path : Bytes) (s : LinkLoop) (l : HtmlLink) : LinkLoop :=
  match classify path l with
  | .empty => { s with nremptylinks := s.nremptylinks + 1 }
  | .skipped => s
  | .absolutePath => { s with messages := s.messages ++ [linkMsg .absPathLink path l.link] }
  | .outOfBounds => { s with messages := s.messages ++ [linkMsg .outOfBoundsLink path l.link] }
  | .resolved resolved => { s with groupedLinks := Buckets.push s.groupedLinks resolved l.link }

def danglingMsg (path link : Bytes) (links : List Bytes) : Msg :=
  ⟨.danglingLinks, params [(str "path", .string path), (str "normalized_link", .string link),
    (str "links", .list (links.map fun olink => .object [(str "value", .string olink)]))]⟩

/-- `check_internal_links` on the grouped links. -/
def checkGroupedLinks (path : Bytes) :
    LruCache Bytes Bool → List (Bytes × List Bytes) → LruCache Bytes Bool × List Msg
  | cache, [] => (cache, [])
  | cache, p :: ps =>
      let (valid, cache) := isValidInternalLink archive cache p.1
      if valid then checkGroupedLinks path cache ps
      else if options.quick then (cache, [danglingMsg path p.1 p.2])
      else
        let (cache, messages) := checkGroupedLinks path cache ps
        (cache, danglingMsg path p.1 p.2 :: messages)

def emptyLinksMsg (path : Bytes) (count : Int) : Msg :=
  ⟨.emptyLinks, params [(str "count", .string (numberToString count)), (str "path", .string path)]⟩

/-- `check_internal_links`. -/
def checkInternalLinks (cache : LruCache Bytes Bool) (path : Bytes) (links : List HtmlLink) :
    LruCache Bytes Bool × List Msg :=
  let s := links.foldl (checkLink path) ⟨∅, 0, []⟩
  let emptyLinks := if s.nremptylinks ≠ 0 then [emptyLinksMsg path s.nremptylinks.toInt] else []
  let (cache, dangling) := checkGroupedLinks archive options path cache s.groupedLinks.toList
  (cache, s.messages ++ emptyLinks ++ dangling)

def checkExternalLinks (path : Bytes) : List HtmlLink → List Msg
  | [] => []
  | l :: ls =>
      if l.attr = .src ∧ l.isExternalUrl = true then
        if options.quick then [linkMsg .externalLink path l.link]
        else linkMsg .externalLink path l.link :: checkExternalLinks path ls
      else checkExternalLinks path ls

/-! ### Entries -/

/-- The namespace of an entry. -/
def namespaceOf (path : Bytes) : UInt8 :=
  if archive.hasNewNamespaceScheme then char 'C' else path.headD 0

def emptyEntryMsg (path : Bytes) : Msg := ⟨.emptyEntry, params [(str "path", .string path)]⟩

def checkItem (c : ArticleChecker) (item : Item) : Option (ArticleChecker × List Msg) :=
  if (archive.getData item).length = 0 then
    let ns := namespaceOf archive item.path
    if options.enabledTests .empty ∧ (ns = char 'C' ∨ ns = char 'A' ∨ ns = char 'I') then
      some (c, [emptyEntryMsg item.path])
    else some (c, [])
  else
    let data :=
      if options.enabledTests .redundant = true ∨ item.mimetype = str "text/html" then
        archive.getData item
      else []
    let hashMain :=
      if options.enabledTests .redundant then
        Buckets.push c.hashMain (adler32 data) item.index
      else c.hashMain
    if item.mimetype ≠ str "text/html" then some ({ c with hashMain }, [])
    else
      let links :=
        if options.enabledTests .urlInternal || options.enabledTests .urlExternal then
          genericGetLinks data
        else some []
      links.map fun links =>
        let (linkStatusCache, internal) :=
          if options.enabledTests .urlInternal then
            checkInternalLinks archive options c.linkStatusCache item.path links
          else (c.linkStatusCache, [])
        let external :=
          if options.enabledTests .urlExternal then checkExternalLinks options item.path links
          else []
        ({ hashMain, linkStatusCache }, internal ++ external)

def check (c : ArticleChecker) (entry : Entry) : Option (ArticleChecker × List Msg) :=
  match entry with
  | .redirect .. => some (c, [])
  | .item item =>
      if namespaceOf archive item.path = char 'M' then some (c, [])
      else c.checkItem archive options item

/-- The checks of a list of entries, in its order. -/
def checkAll (c : ArticleChecker) : List Entry → Option (ArticleChecker × List Msg)
  | [] => some (c, [])
  | e :: es => do
      let (c, messages) ← c.check archive options e
      let (c, messages') ← checkAll c es
      some (c, messages ++ messages')

/-! ### Redundant articles -/

def redundantMsg (e1 e2 : Item) : Msg :=
  ⟨.redundantItems, params [(str "path1", .string e1.path), (str "path2", .string e2.path)]⟩

/-- The loop over the articles behind `e1`: those that differ from it, and the
messages. -/
def compareWith (e1 : Item) : List EntryIndex → Option (List EntryIndex × List Msg)
  | [] => some ([], [])
  | other :: l => do
      let e2 ← archive.getItem other
      let (articlesDifferentFromE1, messages) ← compareWith e1 l
      if areAliases e1 e2 then some (articlesDifferentFromE1, messages)
      else if archive.getData e1 ≠ archive.getData e2 then
        some (other :: articlesDifferentFromE1, messages)
      else some (articlesDifferentFromE1, redundantMsg e1 e2 :: messages)

/-- One pass of the loop over a bucket, which `none` leaves on an exception. -/
def bucketPass : List EntryIndex × List Msg →
    (List EntryIndex × List Msg) ⊕ Option (List Msg)
  | ([], messages) => .inr (some messages)
  | (index :: l, messages) =>
      match archive.getItem index with
      | none => .inr none
      | some e1 =>
          match compareWith archive e1 l with
          | none => .inr none
          | some (articlesDifferentFromE1, found) =>
              .inl (articlesDifferentFromE1, messages ++ found)

/-- The loop over a bucket, for at most `fuel` passes. -/
def detectInBucket (fuel : Nat) (l : List EntryIndex) : Option (List Msg) :=
  (Loop.run (bucketPass archive) fuel (l, [])).join

/-- `detect_redundant_articles`. -/
def detectRedundantArticles (c : ArticleChecker) : Option (List Msg) :=
  (c.hashMain.toList.mapM fun (it : UInt32 × List EntryIndex) =>
    detectInBucket archive (it.2.length + 1) it.2).map List.flatten

end ArticleChecker

/-- `test_articles`, with the order in which the entries are checked. -/
def testArticles (archive : Archive) (options : ZimCheckOptions) (order : List Entry) :
    Option (List Msg) := do
  let (c, messages) ← ArticleChecker.create.checkAll archive options order
  if options.enabledTests .redundant then
    let redundant ← c.detectRedundantArticles archive
    some (messages ++ redundant)
  else some messages

end Zimcheck
end ZimTools
