import ZimTools.Zimcheck.Run
import ZimTools.Zimrecreate.Create

/-!
# The redirects that are reported

`zimcheck` searches for redirect loops by the indices of the entries, with one
memo for all of them.  The other tools follow a redirect by the path that it
leads to, up to a limit.  The entries that are reported are exactly those that
cannot be followed to an item, and no limit from the number of entries on makes
a difference (`testRedirectLoop_reports`).
-/

namespace ZimTools.Zimcheck

open Bytes Zimrecreate

/-! ## One file, read twice -/

/-- An entry as it is read by index, and as it is read by path. -/
inductive SameEntry (file : Archive) : Entry → Incremental.Entry → Prop where
  | item {item : Item} {title : Bytes} :
      SameEntry file (.item item) ⟨item.path, title, .item item.mimetype (file.getData item)⟩
  | redirect {index i : EntryIndex} {path title target : Bytes}
      (h : (file.getEntryByPath i).map Entry.path = some target) :
      SameEntry file (.redirect index path i) ⟨path, title, .redirect target⟩

/-- The entries of a file, in the order of their indices. -/
def SameFile (file : Archive) (archive : Incremental.Archive) : Prop :=
  List.Forall₂ (SameEntry file) file.entries archive.entries

/-- What the table of redirects is built from. -/
def additions (file : Archive) : List Addition := file.entries.map Entry.addition

theorem SameEntry.path_eq {file : Archive} {e : Entry} {entry : Incremental.Entry}
    (h : SameEntry file e entry) : e.path = entry.path := by
  cases h <;> rfl

namespace SameFile

variable {file : Archive} {archive : Incremental.Archive}

theorem length_additions (h : SameFile file archive) :
    (additions file).length = archive.entries.length := by
  rw [additions, List.length_map, List.Forall₂.length_eq h]

theorem exists_entry (h : SameFile file archive) {n : Nat} {e : Entry}
    (he : file.entries[n]? = some e) :
    ∃ entry, archive.entries[n]? = some entry ∧ SameEntry file e entry := by
  obtain ⟨hn, rfl⟩ := List.getElem?_eq_some_iff.mp he
  have hn' : n < archive.entries.length := List.Forall₂.length_eq h ▸ hn
  exact ⟨_, List.getElem?_eq_getElem hn', (List.forall₂_iff_get.mp h).2 n hn hn'⟩

theorem exists_read (h : SameFile file archive) {n : Nat} {entry : Incremental.Entry}
    (hentry : archive.entries[n]? = some entry) :
    ∃ e, file.entries[n]? = some e ∧ SameEntry file e entry := by
  obtain ⟨hn, rfl⟩ := List.getElem?_eq_some_iff.mp hentry
  have hn' : n < file.entries.length := (List.Forall₂.length_eq h).symm ▸ hn
  exact ⟨_, List.getElem?_eq_getElem hn', (List.forall₂_iff_get.mp h).2 n hn' hn⟩

/-- A file that is read by path has no redirect out of its entries. -/
theorem targetsInRange (h : SameFile file archive) : TargetsInRange (additions file) := by
  intro target hmem
  obtain ⟨e, he, hadd⟩ := List.mem_map.mp hmem
  obtain ⟨n, hn⟩ := List.mem_iff_getElem?.mp he
  obtain ⟨entry, -, hsame⟩ := h.exists_entry hn
  cases hsame with
  | item => cases hadd
  | redirect htarget =>
      cases hadd
      obtain ⟨e', he', -⟩ := Option.map_eq_some_iff.mp htarget
      obtain ⟨hlt, -⟩ := List.getElem?_eq_some_iff.mp he'
      rwa [additions, List.length_map]

/-- The path of a target leads to the entry at its index. -/
theorem find_path (h : SameFile file archive) {i : EntryIndex} {target : Bytes}
    (htarget : (file.getEntryByPath i).map Entry.path = some target) :
    ∃ entry, archive.find target = some entry ∧ archive.entries[i.toNat]? = some entry := by
  obtain ⟨e, he, rfl⟩ := Option.map_eq_some_iff.mp htarget
  obtain ⟨entry, hentry, hsame⟩ := h.exists_entry he
  refine ⟨entry, ?_, hentry⟩
  rw [hsame.path_eq]
  exact Incremental.Archive.find_of_mem (List.mem_of_getElem? hentry)

theorem addition_eq {i : EntryIndex} {e : Entry} (he : file.entries[i.toNat]? = some e) :
    (additions file)[i.toNat]? = some e.addition := by
  rw [additions, List.getElem?_map, he]
  rfl

/-! ## Following by path and by index -/

/-- A limit is enough for an entry when the indices come to an item within it. -/
theorem isSome_getItem_iff (h : SameFile file archive) :
    ∀ {watchdog : Nat} {i : EntryIndex} {entry : Incremental.Entry},
      archive.entries[i.toNat]? = some entry →
      ((getItem archive watchdog entry).isSome = true ↔
        ∃ k ≤ watchdog, IsItem (additions file) ((follow (additions file))^[k] i)) := by
  intro watchdog
  induction watchdog with
  | zero =>
      intro i entry hentry
      obtain ⟨e, he, hsame⟩ := h.exists_read hentry
      have hadd := addition_eq he
      cases hsame with
      | item =>
          rw [getItem_item]
          exact ⟨fun _ => ⟨0, Nat.le_refl 0, hadd⟩, fun _ => rfl⟩
      | redirect htarget =>
          rw [getItem_redirect_zero]
          constructor
          · intro hsome
            cases hsome
          · intro ⟨k, hk, hitem⟩
            obtain rfl := Nat.le_zero.mp hk
            exact absurd hitem (not_item_of_redirect ⟨_, hadd⟩)
  | succ watchdog ih =>
      intro i entry hentry
      obtain ⟨e, he, hsame⟩ := h.exists_read hentry
      have hadd := addition_eq he
      cases hsame with
      | item =>
          rw [getItem_item]
          exact ⟨fun _ => ⟨0, Nat.zero_le _, hadd⟩, fun _ => rfl⟩
      | @redirect index j path title target htarget =>
          obtain ⟨entry', hfind, hentry'⟩ := h.find_path htarget
          rw [getItem_redirect, hfind, Option.bind_some, ih hentry']
          have hfollow : follow (additions file) i = j := follow_of_redirect hadd
          constructor
          · intro ⟨k, hk, hitem⟩
            refine ⟨k + 1, Nat.succ_le_succ hk, ?_⟩
            rwa [Function.iterate_succ_apply, hfollow]
          · intro ⟨k, hk, hitem⟩
            cases k with
            | zero => exact absurd hitem (not_item_of_redirect ⟨_, hadd⟩)
            | succ k =>
                rw [Function.iterate_succ_apply, hfollow] at hitem
                exact ⟨k, Nat.le_of_succ_le_succ hk, hitem⟩

/-- From the number of entries on the limit makes no difference. -/
theorem isNone_getItem_iff (h : SameFile file archive) {watchdog : Nat}
    (hwatchdog : archive.entries.length ≤ watchdog) {i : EntryIndex} {entry : Incremental.Entry}
    (hentry : archive.entries[i.toNat]? = some entry) :
    (getItem archive watchdog entry).isNone = true ↔ ¬ ReachesItem (additions file) i := by
  have hlt : i.toNat < (additions file).length := by
    rw [h.length_additions]
    exact (List.getElem?_eq_some_iff.mp hentry).1
  rw [← Option.not_isSome, Bool.not_eq_true', ← Bool.not_eq_true, h.isSome_getItem_iff hentry]
  refine not_congr ⟨fun ⟨k, _, hitem⟩ => ⟨k, hitem⟩, fun hreach => ?_⟩
  obtain ⟨k, hk, hitem⟩ :=
    hreach.exists_lt toNat_injective (iterate_in_range h.targetsInRange hlt)
  rw [h.length_additions] at hk
  exact ⟨k, Nat.le_of_lt (Nat.lt_of_lt_of_le hk hwatchdog), hitem⟩

end SameFile

/-! ## What is reported -/

/-- What one list keeps is what another one keeps at the same places. -/
theorem filterMap_eq_map_filter {α β γ : Type} {f : α → Option γ} {p : β → Bool} {g : β → γ}
    {l : List α} {l' : List β} (hlength : l.length = l'.length)
    (h : ∀ n (hn : n < l.length) (hn' : n < l'.length),
      f l[n] = if p l'[n] then some (g l'[n]) else none) :
    l.filterMap f = (l'.filter p).map g := by
  have hmap : l.map f = l'.map fun b => if p b then some (g b) else none := by
    refine List.ext_getElem (by simpa using hlength) fun n hn hn' => ?_
    rw [List.getElem_map, List.getElem_map]
    exact h n (by simpa using hn) (by simpa using hn')
  calc l.filterMap f = (l.map f).filterMap id := by rw [List.filterMap_map, Function.id_comp]
    _ = l'.filterMap fun b => if p b then some (g b) else none := by
      rw [hmap, List.filterMap_map, Function.id_comp]
    _ = (l'.filter p).map g := by
      rw [← List.filterMap_eq_map, List.filterMap_filter]
      rfl

/-- The answers for all entries are those of following them one by one. -/
theorem testRedirectLoop_eq {file : Archive} {archive : Incremental.Archive}
    (h : SameFile file archive) (watchdog : Nat) (hwatchdog : archive.entries.length ≤ watchdog) :
    testRedirectLoop file =
      some ((archive.entries.filter fun entry => (getItem archive watchdog entry).isNone).map
        fun entry => redirectLoopMsg entry.path) := by
  have hlength := h.length_additions
  have hindex : ∀ n < archive.entries.length, (UInt32.ofNat n).toNat = n := fun n hn =>
    UInt32.toNat_ofNat_of_lt' (Nat.lt_trans hn archive.count_lt)
  have hindices : ∀ i ∈ (List.range (additions file).length).map UInt32.ofNat,
      i.toNat < (additions file).length := by
    intro i hi
    obtain ⟨n, hn, rfl⟩ := List.mem_map.mp hi
    have hlt := List.mem_range.mp hn
    rwa [hindex n (hlength ▸ hlt)]
  obtain ⟨answers, table, hqueries, hanswers⟩ := Classified.queries_spec h.targetsInRange
    (Nat.lt_succ_self (2 * (additions file).length)) _ _ (classified_build _) hindices
  have hsize : (RedirectionTable.build (additions file)).size = (additions file).length :=
    build_size _
  obtain ⟨hcount, hanswer⟩ := List.forall₂_iff_get.mp hanswers
  rw [List.length_map, List.length_range] at hcount
  have hrun : testRedirectLoop file =
      some ((((List.range (additions file).length).map UInt32.ofNat).zip answers).filterMap
        fun p =>
          if p.2 then (file.getEntryByPath p.1).map fun entry => redirectLoopMsg entry.path
          else none) := by
    rw [testRedirectLoop]
    dsimp only
    rw [← additions, hsize, hqueries, Option.map_some]
  rw [hrun]
  refine congrArg some (filterMap_eq_map_filter ?_ fun n hn hn' => ?_)
  · rw [List.length_zip, List.length_map, List.length_range, ← hcount, Nat.min_self, hlength]
  · have hn : n < (additions file).length := hlength ▸ hn'
    have hentry : archive.entries[(UInt32.ofNat n).toNat]? = some archive.entries[n] := by
      rw [hindex n hn', List.getElem?_eq_getElem hn']
    have hnone := h.isNone_getItem_iff hwatchdog hentry
    have hloop := (hanswer n (by simpa using hn) (hcount ▸ hn)).1
    obtain ⟨e, he, hsame⟩ := h.exists_read hentry
    simp only [List.get_eq_getElem, List.getElem_map, List.getElem_range] at hloop
    have hfile : file.getEntryByPath (UInt32.ofNat n) = some e := he
    have heq : answers[n] = (getItem archive watchdog archive.entries[n]).isNone :=
      Bool.eq_iff_iff.mpr (hloop.trans hnone.symm)
    rw [List.getElem_zip, List.getElem_map, List.getElem_range]
    dsimp only
    rw [hfile, heq, Option.map_some, hsame.path_eq]

/-- The entries that are reported are exactly those that cannot be followed to
an item of the file, and there are none of them exactly when each entry can. -/
theorem testRedirectLoop_reports {file : Archive} {archive : Incremental.Archive}
    (h : SameFile file archive) (watchdog : Nat) (hwatchdog : archive.entries.length ≤ watchdog) :
    testRedirectLoop file =
        some ((archive.entries.filter fun entry => (getItem archive watchdog entry).isNone).map
          fun entry => redirectLoopMsg entry.path) ∧
      (testRedirectLoop file = some [] ↔ ∀ entry ∈ archive.entries,
        ∃ item ∈ archive.entries, getItem archive watchdog entry = some item) := by
  have heq := testRedirectLoop_eq h watchdog hwatchdog
  refine ⟨heq, ?_⟩
  rw [heq, Option.some.injEq, List.map_eq_nil_iff, List.filter_eq_nil_iff]
  refine forall₂_congr fun entry hentry => ?_
  rw [Option.isNone_iff_eq_none, ← ne_eq, Option.ne_none_iff_exists']
  constructor
  · intro ⟨item, hitem⟩
    exact ⟨item, mem_of_getItem hentry hitem, hitem⟩
  · intro ⟨item, _, hitem⟩
    exact ⟨item, hitem⟩

/-- Two redirects in a cycle, one into it, one to an item and the item. -/
def redirectsFile : Archive where
  hasNewNamespaceScheme := true
  entries := [.redirect 0 (str "a") 1, .redirect 1 (str "b") 0, .redirect 2 (str "c") 1,
    .redirect 3 (str "d") 4, .item ⟨4, str "e", str "text/plain", 0, 0⟩]
  hasEntryByPath := fun path => [str "a", str "b", str "c", str "d", str "e"].contains path
  blob := fun _ _ => str "x"
  indexed := by decide
  paths := by decide

def redirectsArchive : Incremental.Archive where
  entries := [⟨str "a", str "A", .redirect (str "b")⟩, ⟨str "b", str "B", .redirect (str "a")⟩,
    ⟨str "c", str "C", .redirect (str "b")⟩, ⟨str "d", str "D", .redirect (str "e")⟩,
    ⟨str "e", str "E", .item (str "text/plain") (str "x")⟩]
  nodup := by decide
  count_lt := by decide
  metadata := []
  uuid := sampleUuid
  mainPath := none

theorem testRedirectLoop_reports_sample :
    SameFile redirectsFile redirectsArchive ∧
      testRedirectLoop redirectsFile =
        some [redirectLoopMsg (str "a"), redirectLoopMsg (str "b"), redirectLoopMsg (str "c")] := by
  have hsame : SameFile redirectsFile redirectsArchive :=
    .cons (.redirect rfl) (.cons (.redirect rfl) (.cons (.redirect rfl) (.cons (.redirect rfl)
      (.cons .item .nil))))
  exact ⟨hsame, (testRedirectLoop_reports hsame 5 (Nat.le_refl 5)).1⟩

end ZimTools.Zimcheck
