import ZimTools.Lib.Duplicates
import ZimTools.Lib.MapM
import ZimTools.Zimcheck.EntryMessages

/-!
# Redundant articles

`detect_redundant_articles` goes through the buckets of the table.  It compares
the first item of a bucket with the others, and goes on with those that differ
from it.  An alias of the first item has its data and is left out without a
comparison.

Whatever the checksums are, the items that are reported as redundant are the
duplicates among all items of the table, each with the first item that has its
data (`detect_redundant`).
-/

namespace ZimTools
namespace Zimcheck

open Bytes ArticleChecker Duplicates

/-- The pairs of an `item` with the first item that has its data. -/
abbrev itemPairs (archive : Archive) (items : List Item) : List (Item × Item) :=
  pairs archive.getData areAliases items

/-- Items of the archive. -/
def InArchive (archive : Archive) (items : List Item) : Prop :=
  ∀ item ∈ items, Entry.item item ∈ archive.entries

variable {archive : Archive} {options : ZimCheckOptions}

theorem getEntryByPath_index {e : Entry} (h : e ∈ archive.entries) :
    archive.getEntryByPath e.index = some e := by
  obtain ⟨i, hi⟩ := List.mem_iff_getElem?.mp h
  have hindex := congrArg (fun l => l[i]?) archive.indexed
  obtain ⟨hlt, -⟩ := List.getElem?_eq_some_iff.mp hi
  rw [List.getElem?_map, hi, List.getElem?_range hlt] at hindex
  have heq : e.index.toNat = i := Option.some.inj hindex
  rw [Archive.getEntryByPath, heq, hi]

theorem getItem_index {item : Item} (h : Entry.item item ∈ archive.entries) :
    archive.getItem item.index = some item := by
  have hentry : archive.getEntryByPath item.index = some (.item item) := getEntryByPath_index h
  rw [Archive.getItem, hentry]

variable (archive) in
theorem getData_of_aliases {e1 e2 : Item} (h : areAliases e1 e2) :
    archive.getData e1 = archive.getData e2 := by
  rw [Archive.getData, Archive.getData, h.1, h.2]

/-- What the comparison with `e1` leaves, and what it reports. -/
theorem compareWith_eq (e1 : Item) : ∀ {l : List Item}, InArchive archive l →
    compareWith archive e1 (l.map Item.index) =
      some ((differing archive.getData e1 l).map Item.index,
        (l.filter fun b => archive.getData b = archive.getData e1 ∧ ¬ areAliases e1 b).map
          (redundantMsg e1))
  | [], _ => rfl
  | e2 :: l, h => by
      have ih := compareWith_eq e1 (l := l) fun item hmem =>
        h item (List.mem_cons_of_mem e2 hmem)
      rw [List.map_cons, compareWith, getItem_index (h e2 (List.mem_cons_self ..)), ih]
      simp only [Option.bind_eq_bind, Option.bind_some]
      by_cases halias : areAliases e1 e2
      · have hdata := getData_of_aliases archive halias
        rw [if_pos halias]
        simp [differing, halias, hdata]
      · rw [if_neg halias]
        by_cases hdata : archive.getData e1 = archive.getData e2
        · rw [if_neg (not_not.mpr hdata)]
          simp [differing, halias, hdata]
        · have hne : ¬ archive.getData e2 = archive.getData e1 := fun heq => hdata heq.symm
          rw [if_pos hdata]
          simp [differing, hne]

/-- The loop over a bucket reports the duplicates in it. -/
theorem run_bucketPass : ∀ {fuel : Nat} {l : List Item} {messages : List Msg},
    InArchive archive l → l.length < fuel →
    Loop.run (bucketPass archive) fuel (l.map Item.index, messages) =
      some (some (messages ++ (itemPairs archive l).map fun p => redundantMsg p.1 p.2))
  | 0, l, _, _, hfuel => absurd hfuel (Nat.not_lt_zero _)
  | fuel + 1, [], messages, _, _ => by
      rw [itemPairs, pairs]
      simp [Loop.run, bucketPass]
  | fuel + 1, e1 :: l, messages, h, hfuel => by
      have hl : InArchive archive l := fun item hmem => h item (List.mem_cons_of_mem e1 hmem)
      have hrest : InArchive archive (differing archive.getData e1 l) := fun item hmem =>
        hl item (List.mem_filter.mp hmem).1
      have hlength : (differing archive.getData e1 l).length < fuel :=
        Nat.lt_of_le_of_lt (List.length_filter_le _ _) (Nat.lt_of_succ_lt_succ hfuel)
      have hpass : bucketPass archive ((e1 :: l).map Item.index, messages) =
          .inl ((differing archive.getData e1 l).map Item.index, messages ++
            (l.filter fun b => archive.getData b = archive.getData e1 ∧ ¬ areAliases e1 b).map
              (redundantMsg e1)) := by
        rw [List.map_cons, bucketPass, getItem_index (h e1 (List.mem_cons_self ..))]
        dsimp only
        rw [compareWith_eq e1 hl]
      have hpairs : itemPairs archive (e1 :: l) =
          (l.filter fun b => archive.getData b = archive.getData e1 ∧ ¬ areAliases e1 b).map (e1, ·) ++
            itemPairs archive (differing archive.getData e1 l) := by
        rw [itemPairs, pairs]
      rw [Loop.run_succ_inl fuel hpass, run_bucketPass hrest hlength, hpairs, List.map_append,
        List.map_map, List.append_assoc]
      rfl

theorem detectInBucket_eq {l : List Item} (h : InArchive archive l) :
    detectInBucket archive ((l.map Item.index).length + 1) (l.map Item.index) =
      some ((itemPairs archive l).map fun p => redundantMsg p.1 p.2) := by
  rw [detectInBucket, run_bucketPass h (by rw [List.length_map]; exact Nat.lt_succ_self _)]
  rfl

/-! ## The table -/

/-- The checksums of the table. -/
def checksums (c : ArticleChecker) : List UInt32 := c.hashMain.toList.map Prod.fst

theorem checksums_nodup (c : ArticleChecker) : (checksums c).Nodup := by
  rw [checksums, List.Nodup, List.pairwise_map]
  exact Buckets.toList_keys_ne c.hashMain

/-- The bucket of a checksum has the items whose data have it. -/
theorem values_tableEntries (items : List Item) (checksum : UInt32) :
    Buckets.values (tableEntries archive items) checksum =
      (bucket adler32 archive.getData items checksum).map Item.index := by
  simp [Buckets.values, tableEntries, bucket, List.filter_map, Function.comp_def]

theorem mem_checksums {c : ArticleChecker} {items : List Item} (h : Checked archive c items) :
    ∀ item ∈ items, adler32 (archive.getData item) ∈ checksums c := by
  intro item hmem
  have hbucket : item.index ∈
      Buckets.values (tableEntries archive items) (adler32 (archive.getData item)) := by
    rw [values_tableEntries]
    exact List.mem_map_of_mem (List.mem_filter.mpr ⟨hmem, decide_eq_true rfl⟩)
  exact List.mem_map.mpr ⟨_, h.holds.mem_toList.mpr ⟨rfl, List.ne_nil_of_mem hbucket⟩, rfl⟩

theorem detectRedundantArticles_eq {c : ArticleChecker} {items : List Item}
    (h : Checked archive c items) (hin : InArchive archive items) :
    c.detectRedundantArticles archive =
      some ((bucketPairs archive.getData areAliases adler32 items (checksums c)).map fun p =>
        redundantMsg p.1 p.2) := by
  have hbucket : ∀ it ∈ c.hashMain.toList,
      detectInBucket archive (it.2.length + 1) it.2 =
        some ((itemPairs archive (bucket adler32 archive.getData items it.1)).map fun p =>
          redundantMsg p.1 p.2) := by
    intro it hmem
    obtain ⟨hvalues, -⟩ := h.holds.mem_toList.mp hmem
    have hitems : InArchive archive (bucket adler32 archive.getData items it.1) :=
      fun item hmem => hin item (List.mem_filter.mp hmem).1
    rw [hvalues, values_tableEntries, detectInBucket_eq hitems]
  rw [detectRedundantArticles, MapM.eq_some_map hbucket, bucketPairs, checksums,
    List.map_flatMap, List.flatMap_map, List.flatMap_def]
  rfl

/-- What is reported of the items of a table. -/
theorem exists_redundant {c : ArticleChecker} {items : List Item} (h : Checked archive c items)
    (hin : InArchive archive items) (hnodup : items.Nodup) :
    ∃ reported : List (Item × Item),
      c.detectRedundantArticles archive =
        some (reported.map fun p => redundantMsg p.1 p.2) ∧
      reported.Nodup ∧
      ∀ a b, (a, b) ∈ reported ↔ IsPair archive.getData areAliases items a b :=
  ⟨_, detectRedundantArticles_eq h hin, nodup_bucketPairs hnodup (checksums_nodup c),
    fun _ _ => mem_bucketPairs hnodup (mem_checksums h)⟩

/-! ## Recorded items -/

/-- The state behind the checks of a list of items. -/
def checkItems (archive : Archive) (options : ZimCheckOptions) (c : ArticleChecker)
    (items : List Item) : Option ArticleChecker :=
  items.foldlM (fun c item => (c.checkItem archive options item).map Prod.fst) c

theorem checked_checkItems : ∀ {items done : List Item} {c c' : ArticleChecker},
    Checked archive c done → checkItems archive options c items = some c' →
    Checked archive c' (done ++ recordedItems archive options items)
  | [], done, c, c', h, hc' => by
      obtain rfl := Option.some.inj hc'
      rwa [recordedItems, List.filter_nil, List.append_nil]
  | item :: items, done, c, c', h, hc' => by
      rw [checkItems, List.foldlM_cons, Option.bind_eq_bind, Option.bind_eq_some_iff] at hc'
      obtain ⟨c₁, hcheck, hrest⟩ := hc'
      have hspec := checkItem_spec options h item
      cases hmessages : itemMessages archive options item with
      | none =>
          rw [hmessages] at hspec
          rw [hspec, Option.map_none] at hcheck
          exact absurd hcheck.symm (Option.some_ne_none c₁)
      | some messages =>
          rw [hmessages] at hspec
          obtain ⟨c₂, hc₂, hchecked⟩ := hspec
          rw [hc₂] at hcheck
          obtain rfl := Option.some.inj hcheck
          have ih := checked_checkItems hchecked hrest
          have hcons : recordedItems archive options (item :: items) =
              recordedItems archive options [item] ++ recordedItems archive options items := by
            rw [recordedItems, ← List.singleton_append, List.filter_append]
            rfl
          rwa [hcons, ← List.append_assoc]

/-- For every list of different non-empty items that are checked for redundancy,
the search for redundant articles ends, and it reports each duplicate that is no
alias with the first item of its content, once, and nothing else. -/
theorem detect_redundant (hredundant : options.enabledTests .redundant = true)
    {items : List Item} (hin : InArchive archive items) (hnodup : items.Nodup)
    (hdata : ∀ item ∈ items, (archive.getData item).length ≠ 0) {c : ArticleChecker}
    (hcheck : checkItems archive options .create items = some c) :
    ∃ reported : List (Item × Item),
      c.detectRedundantArticles archive =
        some (reported.map fun p => redundantMsg p.1 p.2) ∧
      reported.Nodup ∧
      ∀ a b, (a, b) ∈ reported ↔
        items.find? (archive.getData · = archive.getData a) = some a ∧ b ∈ items ∧ b ≠ a ∧
          archive.getData b = archive.getData a ∧ ¬ areAliases a b := by
  have hall : recordedItems archive options items = items := by
    rw [recordedItems, List.filter_eq_self]
    intro item hmem
    simpa [hredundant] using hdata item hmem
  have hchecked := checked_checkItems (checked_create archive) hcheck
  rw [List.nil_append, hall] at hchecked
  obtain ⟨reported, hreported, hnodup', hmem⟩ := exists_redundant hchecked hin hnodup
  refine ⟨reported, hreported, hnodup', fun a b => ?_⟩
  rw [hmem]
  constructor
  · intro h
    exact ⟨h.first, h.mem, h.ne, h.same, h.notAliases⟩
  · rintro ⟨hfirst, hb, hne, hsame, halias⟩
    exact ⟨hfirst, hb, hne, hsame, halias⟩

def sampleItem (index : EntryIndex) (path : String) (blobIndex : UInt32) : Item :=
  ⟨index, str path, str "text/plain", 0, blobIndex⟩

/-- The second item is an alias of the first, and the third has the same data. -/
def sampleItems : List Item :=
  [sampleItem 0 "a" 0, sampleItem 1 "b" 0, sampleItem 2 "c" 1, sampleItem 3 "d" 2]

def sampleArchive : Archive where
  hasNewNamespaceScheme := true
  entries := sampleItems.map .item
  hasEntryByPath := fun path => sampleItems.any fun item => item.path = path
  blob := fun _ blobIndex => if blobIndex = 2 then str "y" else str "x"
  indexed := by decide
  paths := by decide

def sampleOptions : ZimCheckOptions := ⟨fun t => t = .redundant, false⟩

theorem detect_redundant_sample : ∃ c, checkItems sampleArchive sampleOptions .create sampleItems =
    some c ∧ ∃ reported : List (Item × Item),
      c.detectRedundantArticles sampleArchive =
        some (reported.map fun p => redundantMsg p.1 p.2) ∧
      (sampleItem 0 "a" 0, sampleItem 2 "c" 1) ∈ reported := by
  have hsome : (checkItems sampleArchive sampleOptions .create sampleItems).isSome = true := by
    decide
  obtain ⟨c, hc⟩ := Option.isSome_iff_exists.mp hsome
  obtain ⟨reported, hreported, -, hmem⟩ := @detect_redundant sampleArchive sampleOptions rfl
    sampleItems (by unfold InArchive; decide) (by decide) (by decide) c hc
  exact ⟨c, hc, reported, hreported, (hmem _ _).mpr (by decide)⟩

end Zimcheck
end ZimTools
