import ZimTools.Zimcheck.Redundancy
import ZimTools.Zimcheck.TestStatus

/-!
# The order of the checks

The streams that check the entries come to them in any order.  What an entry
reports does not depend on it, so the messages are the same but for those about
redundant items, which name the first item with some data.  Whether there are
any such messages, and which items they connect, does not depend on the order
either (`testArticles_order`).
-/

namespace ZimTools
namespace Zimcheck

open ArticleChecker Duplicates
open Relation (EqvGen)

variable {archive : Archive} {options : ZimCheckOptions}

/-! ## A run of the checks -/

theorem entries_nodup (archive : Archive) : archive.entries.Nodup := by
  refine List.Nodup.of_map (fun e : Entry => e.index.toNat) ?_
  rw [archive.indexed]
  exact List.nodup_range

/-- The items of the archive that are put into the table. -/
abbrev tableItems (archive : Archive) (options : ZimCheckOptions) (order : List Entry) :
    List Item :=
  recordedItems archive options (checkedItems archive order)

theorem entry_of_mem_tableItems {order : List Entry} {item : Item}
    (h : item ∈ tableItems archive options order) : Entry.item item ∈ order := by
  obtain ⟨e, he, hitem⟩ := List.mem_filterMap.mp (List.mem_filter.mp h).1
  rwa [← checkedItem_eq_some hitem]

theorem tableItems_nodup {order : List Entry} (h : order.Nodup) :
    (tableItems archive options order).Nodup := by
  refine List.Nodup.filter _ (h.filterMap ?_)
  intro e e' item he he'
  rw [checkedItem_eq_some he, checkedItem_eq_some he']

/-- A run of the checks in which every entry reports its messages. -/
theorem testArticles_defined {order : List Entry} (hnodup : order.Nodup)
    (hin : ∀ e ∈ order, e ∈ archive.entries) {messages : Entry → List Msg}
    (hmessages : ∀ e ∈ order, entryMessages archive options e = some (messages e)) :
    ∃ redundant : List (Item × Item),
      testArticles archive options order =
        some (order.flatMap messages ++ redundant.map fun p => redundantMsg p.1 p.2) ∧
      redundant.Nodup ∧
      ∀ a b, (a, b) ∈ redundant ↔
        IsPair archive.getData areAliases (tableItems archive options order) a b := by
  have hspec := checkAll_spec options order (checked_create archive)
  rw [MapM.eq_some_map hmessages] at hspec
  obtain ⟨c, hc, hchecked⟩ := hspec
  rw [← List.flatMap_def] at hc
  rw [testArticles, hc, Option.bind_eq_bind, Option.bind_some]
  dsimp only
  by_cases hredundant : options.enabledTests .redundant = true
  · have hitems : InArchive archive (tableItems archive options order) := fun item hmem =>
      hin _ (entry_of_mem_tableItems hmem)
    obtain ⟨redundant, hdetect, hpairs⟩ :=
      exists_redundant hchecked hitems (tableItems_nodup hnodup)
    refine ⟨redundant, ?_, hpairs⟩
    rw [if_pos hredundant, hdetect]
    rfl
  · have hempty : tableItems archive options order = [] := by
      simp [recordedItems, hredundant]
    refine ⟨[], ?_, List.nodup_nil, fun a b => ?_⟩
    · rw [if_neg hredundant, List.map_nil, List.append_nil]
    · rw [hempty]
      exact ⟨fun h => absurd h List.not_mem_nil, fun h => absurd h.mem List.not_mem_nil⟩

/-- A run of the checks that reads behind a page. -/
theorem testArticles_undefined {order : List Entry} {e : Entry} (he : e ∈ order)
    (h : entryMessages archive options e = none) : testArticles archive options order = none := by
  have hspec := checkAll_spec options order (checked_create archive)
  rw [MapM.eq_none he h] at hspec
  rw [testArticles, hspec]
  rfl

/-! ## Redundant items -/

theorem areAliases_equivalence : Equivalence areAliases where
  refl := fun _ => ⟨rfl, rfl⟩
  symm := fun h => ⟨h.1.symm, h.2.symm⟩
  trans := fun h h' => ⟨h.1.trans h'.1, h.2.trans h'.2⟩

/-- The aliases of an archive. -/
def Aliases (archive : Archive) (a b : Item) : Prop :=
  Entry.item a ∈ archive.entries ∧ Entry.item b ∈ archive.entries ∧ areAliases a b

/-- A pair of items of the archive that some messages report as redundant. -/
def Reported (archive : Archive) (messages : List Msg) (a b : Item) : Prop :=
  Entry.item a ∈ archive.entries ∧ Entry.item b ∈ archive.entries ∧ redundantMsg a b ∈ messages

/-- The equivalence that the reported pairs and the aliases generate. -/
def SameAsReported (archive : Archive) (messages : List Msg) : Item → Item → Prop :=
  EqvGen fun a b => Reported archive messages a b ∨ Aliases archive a b

theorem lookup_path1 (a b : Item) :
    (redundantMsg a b).msgParams.lookup (str "path1") = some (.string a.path) := by
  rw [redundantMsg, lookup_params, if_pos rfl]

theorem lookup_path2 (a b : Item) :
    (redundantMsg a b).msgParams.lookup (str "path2") = some (.string b.path) := by
  rw [redundantMsg, lookup_params, if_neg (by decide), lookup_params, if_pos rfl]

theorem redundantMsg_inj {a b a' b' : Item} (ha : Entry.item a ∈ archive.entries)
    (hb : Entry.item b ∈ archive.entries) (ha' : Entry.item a' ∈ archive.entries)
    (hb' : Entry.item b' ∈ archive.entries) (h : redundantMsg a b = redundantMsg a' b') :
    a = a' ∧ b = b' := by
  have hpath1 := lookup_path1 a b
  have hpath2 := lookup_path2 a b
  rw [h, lookup_path1] at hpath1
  rw [h, lookup_path2] at hpath2
  have heq1 : a'.path = a.path := Data.string.inj (Option.some.inj hpath1)
  have heq2 : b'.path = b.path := Data.string.inj (Option.some.inj hpath2)
  exact ⟨Entry.item.inj (archive.paths _ ha _ ha' heq1.symm),
    Entry.item.inj (archive.paths _ hb _ hb' heq2.symm)⟩

theorem redundantMsg_not_about {a b : Item} {path : Bytes} : ¬ (redundantMsg a b).About path :=
  fun h => absurd h.kind (by simp [redundantMsg, entryKinds])

/-! ## Two orders -/

/-- The messages about other things than redundant items. -/
def others (messages : List Msg) : List Msg := messages.filter (·.msgId ≠ .redundantItems)

/-- A run of the checks: what its entries report, and what it reports as
redundant. -/
structure RunOf (archive : Archive) (options : ZimCheckOptions) (order : List Entry)
    (entryMsgs : List Msg) (redundant : List (Item × Item)) : Prop where
  about : ∀ m ∈ entryMsgs, ∃ path, m.About path
  pairs : ∀ a b, (a, b) ∈ redundant ↔
    IsPair archive.getData areAliases (tableItems archive options order) a b

section Run

variable {order : List Entry} {entryMsgs : List Msg} {redundant : List (Item × Item)}

theorem RunOf.others (h : RunOf archive options order entryMsgs redundant) :
    Zimcheck.others (entryMsgs ++ redundant.map fun p => redundantMsg p.1 p.2) = entryMsgs := by
  rw [Zimcheck.others, List.filter_append, List.filter_eq_self.mpr, List.filter_eq_nil_iff.mpr,
    List.append_nil]
  · intro m hm
    obtain ⟨p, -, rfl⟩ := List.mem_map.mp hm
    simp [redundantMsg]
  · intro m hm
    obtain ⟨path, habout⟩ := h.about m hm
    have hkinds : ∀ k ∈ entryKinds, k ≠ .redundantItems := by decide
    exact decide_eq_true (hkinds m.msgId habout.kind)

/-- The reported pairs are the duplicates. -/
theorem RunOf.reported_iff (h : RunOf archive options order entryMsgs redundant)
    (hin : ∀ e ∈ order, e ∈ archive.entries) {a b : Item} :
    Reported archive (entryMsgs ++ redundant.map fun p => redundantMsg p.1 p.2) a b ↔
      IsPair archive.getData areAliases (tableItems archive options order) a b := by
  have hentry : ∀ {item}, item ∈ tableItems archive options order →
      Entry.item item ∈ archive.entries := fun hmem => hin _ (entry_of_mem_tableItems hmem)
  rw [← h.pairs]
  constructor
  · rintro ⟨ha, hb, hmem⟩
    rcases List.mem_append.mp hmem with hentries | hredundant
    · obtain ⟨path, habout⟩ := h.about _ hentries
      exact absurd habout redundantMsg_not_about
    · obtain ⟨⟨a', b'⟩, hpair, heq⟩ := List.mem_map.mp hredundant
      have hpair' := (h.pairs a' b').mp hpair
      obtain ⟨rfl, rfl⟩ := redundantMsg_inj (hentry (List.mem_of_find?_eq_some hpair'.first))
        (hentry hpair'.mem) ha hb heq
      exact hpair
  · intro hpair
    have hpair' := (h.pairs a b).mp hpair
    exact ⟨hentry (List.mem_of_find?_eq_some hpair'.first), hentry hpair'.mem,
      List.mem_append_right _ (List.mem_map.mpr ⟨(a, b), hpair, rfl⟩)⟩

/-- The equivalence is that of the duplicates and the aliases. -/
theorem RunOf.sameAsReported_iff (h : RunOf archive options order entryMsgs redundant)
    (hin : ∀ e ∈ order, e ∈ archive.entries) {a b : Item} :
    SameAsReported archive (entryMsgs ++ redundant.map fun p => redundantMsg p.1 p.2) a b ↔
      Linked archive.getData (Aliases archive) (tableItems archive options order) a b := by
  have hentry : ∀ {item}, item ∈ tableItems archive options order →
      Entry.item item ∈ archive.entries := fun hmem => hin _ (entry_of_mem_tableItems hmem)
  have hpair : ∀ a b, IsPair archive.getData areAliases (tableItems archive options order) a b ↔
      IsPair archive.getData (Aliases archive) (tableItems archive options order) a b := by
    intro a b
    constructor
    · intro hab
      exact ⟨hab.first, hab.mem, hab.ne, hab.same, fun halias => hab.notAliases halias.2.2⟩
    · intro hab
      have ha := hentry (List.mem_of_find?_eq_some hab.first)
      exact ⟨hab.first, hab.mem, hab.ne, hab.same,
        fun halias => hab.notAliases ⟨ha, hentry hab.mem, halias⟩⟩
  have hgenerator : (fun a b => Reported archive
      (entryMsgs ++ redundant.map fun p => redundantMsg p.1 p.2) a b ∨ Aliases archive a b) =
      fun a b => IsPair archive.getData (Aliases archive) (tableItems archive options order) a b ∨
        Aliases archive a b := by
    funext a b
    rw [h.reported_iff hin, hpair]
  rw [SameAsReported, hgenerator]
  rfl

/-- The tests that the messages are about. -/
theorem RunOf.check_iff (h : RunOf archive options order entryMsgs redundant) {t : TestType} :
    (∃ m ∈ entryMsgs ++ redundant.map fun p => redundantMsg p.1 p.2, m.check = t) ↔
      (∃ m ∈ entryMsgs, m.check = t) ∨ t = .redundant ∧
        ∃ a ∈ tableItems archive options order, ∃ b ∈ tableItems archive options order,
          archive.getData a = archive.getData b ∧ ¬ areAliases a b := by
  rw [← exists_isPair_iff areAliases_equivalence]
  constructor
  · rintro ⟨m, hm, hcheck⟩
    rcases List.mem_append.mp hm with hentries | hredundant
    · exact Or.inl ⟨m, hentries, hcheck⟩
    · obtain ⟨⟨a, b⟩, hpair, rfl⟩ := List.mem_map.mp hredundant
      exact Or.inr ⟨hcheck.symm, a, b, (h.pairs a b).mp hpair⟩
  · rintro (⟨m, hm, hcheck⟩ | ⟨rfl, a, b, hpair⟩)
    · exact ⟨m, List.mem_append_left _ hm, hcheck⟩
    · exact ⟨redundantMsg a b, List.mem_append_right _
        (List.mem_map.mpr ⟨(a, b), (h.pairs a b).mpr hpair, rfl⟩), rfl⟩

end Run

theorem exists_runOf {order : List Entry} (h : order.Perm archive.entries)
    {messages : Entry → List Msg}
    (hmessages : ∀ e ∈ archive.entries, entryMessages archive options e = some (messages e)) :
    ∃ redundant : List (Item × Item),
      testArticles archive options order =
        some (order.flatMap messages ++ redundant.map fun p => redundantMsg p.1 p.2) ∧
      RunOf archive options order (order.flatMap messages) redundant := by
  obtain ⟨redundant, hrun, -, hpairs⟩ := testArticles_defined
    (h.nodup_iff.mpr (entries_nodup archive)) (fun e he => h.mem_iff.mp he)
    fun e he => hmessages e (h.mem_iff.mp he)
  refine ⟨redundant, hrun, fun m hm => ?_, hpairs⟩
  obtain ⟨e, he, hmem⟩ := List.mem_flatMap.mp hm
  exact ⟨e.path, about_of_mem_entryMessages (hmessages e (h.mem_iff.mp he)) hmem⟩

/-- For every archive, all options and any two orders of the checks, either both
runs read behind a page, or they report the same messages other than those about
redundant items, they leave the same status of every test, and the pairs that
they report generate, with the aliases, the same equivalence. -/
theorem testArticles_order {order₁ order₂ : List Entry} (h₁ : order₁.Perm archive.entries)
    (h₂ : order₂.Perm archive.entries) :
    testArticles archive options order₁ = none ∧ testArticles archive options order₂ = none ∨
    ∃ messages₁ messages₂, testArticles archive options order₁ = some messages₁ ∧
      testArticles archive options order₂ = some messages₂ ∧
      (others messages₁).Perm (others messages₂) ∧
      (∀ testStatus, statusAfter testStatus messages₁ = statusAfter testStatus messages₂) ∧
      ∀ a b, SameAsReported archive messages₁ a b ↔ SameAsReported archive messages₂ a b := by
  by_cases hdefined : ∃ e ∈ archive.entries, entryMessages archive options e = none
  · obtain ⟨e, he, hnone⟩ := hdefined
    exact Or.inl ⟨testArticles_undefined (h₁.mem_iff.mpr he) hnone,
      testArticles_undefined (h₂.mem_iff.mpr he) hnone⟩
  · right
    have hmessages : ∀ e ∈ archive.entries, entryMessages archive options e =
        some ((entryMessages archive options e).getD []) := fun e he =>
      (Option.getD_of_ne_none (fun hnone => hdefined ⟨e, he, hnone⟩) []).symm
    obtain ⟨redundant₁, hrun₁, hof₁⟩ := exists_runOf h₁ hmessages
    obtain ⟨redundant₂, hrun₂, hof₂⟩ := exists_runOf h₂ hmessages
    have hitems : ∀ item, item ∈ tableItems archive options order₁ ↔
        item ∈ tableItems archive options order₂ := fun item =>
      (((h₁.trans h₂.symm).filterMap _).filter _).mem_iff
    have hentries : (order₁.flatMap fun e => (entryMessages archive options e).getD []).Perm
        (order₂.flatMap fun e => (entryMessages archive options e).getD []) :=
      (h₁.trans h₂.symm).flatMap_right _
    refine ⟨_, _, hrun₁, hrun₂, ?_, fun testStatus => ?_, fun a b => ?_⟩
    · rw [hof₁.others, hof₂.others]
      exact hentries
    · refine statusAfter_congr testStatus fun t => ?_
      rw [hof₁.check_iff, hof₂.check_iff]
      simp only [hitems, hentries.mem_iff]
    · rw [hof₁.sameAsReported_iff fun e he => h₁.mem_iff.mp he,
        hof₂.sameAsReported_iff fun e he => h₂.mem_iff.mp he, linked_congr hitems]

/-- The entries of an archive in their order and from the last one back. -/
theorem testArticles_order_sample :
    ∃ messages₁ messages₂,
      testArticles sampleArchive sampleOptions sampleArchive.entries = some messages₁ ∧
      testArticles sampleArchive sampleOptions sampleArchive.entries.reverse = some messages₂ ∧
      (others messages₁).Perm (others messages₂) ∧
      (∀ testStatus, statusAfter testStatus messages₁ = statusAfter testStatus messages₂) ∧
      ∀ a b, SameAsReported sampleArchive messages₁ a b ↔
        SameAsReported sampleArchive messages₂ a b := by
  rcases @testArticles_order sampleArchive sampleOptions _ _ (.refl _)
    (List.reverse_perm _) with ⟨hnone, -⟩ | h
  · exact absurd (congrArg Option.isSome hnone) (by decide)
  · exact h

end Zimcheck
end ZimTools
