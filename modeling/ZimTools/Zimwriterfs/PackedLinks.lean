import ZimTools.Zimwriterfs.VisitDirectory

/-!
# Links between packed files

A symbolic link becomes a redirect to where `realpath` ends, and a page with a
refresh one to a path that can be opened.  Neither is compared with what is
packed: `realpath` may end at a special file, and a directory can be opened.
So the library is given no dangling redirect exactly when each of them leads to a
file of the tree, or to a link that was not skipped (`packed_links`).
-/

namespace ZimTools.Zimwriterfs

open Bytes Loop Incremental

namespace CanonicalPath

variable {base q : CanonicalPath}

theorem text_append (hroot : base.names ≠ []) {below : List Bytes}
    (hnames : q.names = base.names ++ below) : q.text = base.text ++ namesText below := by
  have hne : q.names ≠ [] := hnames ▸ List.append_ne_nil_of_left_ne_nil hroot below
  rw [text, text, if_neg hroot, if_neg hne, hnames, List.flatMap_append, namesText]

/-- What is behind the slash in the text of a path is the URL of the names that
are behind those of the directory. -/
theorem text_below_iff (hroot : base.names ≠ []) {rest : Bytes} :
    q.text = base.text ++ char '/' :: rest ↔
      ∃ below, below ≠ [] ∧ q.names = base.names ++ below ∧ leafUrl below = rest := by
  constructor
  · intro htext
    obtain ⟨below, hbelow⟩ := (names_prefix_iff hroot).mpr (.inr ⟨rest, htext⟩)
    have hnames : namesText below = char '/' :: rest :=
      List.append_cancel_left ((text_append hroot hbelow.symm).symm.trans htext)
    refine ⟨below, ?_, hbelow.symm, by rw [leafUrl, hnames, List.drop_one, List.tail_cons]⟩
    rintro rfl
    cases hnames
  · rintro ⟨below, hne, hnames, rfl⟩
    rw [text_append hroot hnames]
    cases below with
    | nil => exact absurd rfl hne
    | cons name below => rfl

end CanonicalPath

/-! ## Symbolic links -/

/-- A symbolic link leads to what is not a directory, below the one that is packed. -/
def LinksTo (os : Os) (creator : ZimCreatorFS) (base : CanonicalPath) (names below : List Bytes) :
    Prop :=
  below ≠ [] ∧ ∃ resolved, os.realpath (creator.directoryPath ++ namesText names) = .ok resolved ∧
    os.isDirectory resolved.text = false ∧ resolved.names = base.names ++ below

/-- The canonical path of the directory is not the root, and where the system
says that a link of the directory leads to, the tree has a leaf, which is not a
link again. -/
structure Resolves (os : Os) (creator : ZimCreatorFS) (base : CanonicalPath)
    (tree : FileTree Bytes Leaf) : Prop where
  base_ne_root : base.names ≠ []
  canonicalBasedir : creator.canonicalBasedir = base.text
  shown : ∀ names below, tree.get names = some (.inl .symlink) →
    LinksTo os creator base names below →
      ∃ kind, tree.get below = some (.inl kind) ∧ kind ≠ .symlink

section Links

variable {os : Os} {creator : ZimCreatorFS} {base : CanonicalPath} {tree : FileTree Bytes Leaf}

/-- The test of `processSymlink`, and what it takes as target. -/
theorem inside_iff {text base rest : Bytes} :
    (text.take base.length = base ∧ text[base.length]? = some (char '/')) ∧
        text.drop (base.length + 1) = rest ↔
      text = base ++ char '/' :: rest := by
  constructor
  · rintro ⟨⟨htake, hslash⟩, rfl⟩
    obtain ⟨hlt, hget⟩ := List.getElem?_eq_some_iff.mp hslash
    calc text = text.take base.length ++ text.drop base.length := (List.take_append_drop ..).symm
      _ = base ++ char '/' :: text.drop (base.length + 1) := by
          rw [htake, List.drop_eq_getElem_cons hlt, hget]
  · rintro rfl
    rw [List.take_left, List.getElem?_append_right (Nat.le_refl _), Nat.sub_self, ← List.drop_drop,
      List.drop_left]
    exact ⟨⟨rfl, rfl⟩, rfl⟩

/-- A link gives a redirect exactly when it leads to what is below the directory. -/
theorem symlinkEntry_eq_some_iff (hroot : base.names ≠ [])
    (hbase : creator.canonicalBasedir = base.text) {names : List Bytes} (hne : names ≠ [])
    {entry : Entry} :
    symlinkEntry os creator names = some entry ↔
      ∃ below, LinksTo os creator base names below ∧
        entry = ⟨leafUrl names, [], .redirect (leafUrl below)⟩ := by
  rw [symlinkEntry, processSymlink, hbase]
  cases hreal : os.realpath (creator.directoryPath ++ namesText names) with
  | error message =>
      refine iff_of_false (Option.some_ne_none entry).symm ?_
      rintro ⟨below, ⟨-, resolved, hresolved, -⟩, -⟩
      rw [hreal] at hresolved
      cases hresolved
  | ok resolved =>
      have hlinks : ∀ below, LinksTo os creator base names below ↔
          os.isDirectory resolved.text = false ∧
            (below ≠ [] ∧ resolved.names = base.names ++ below) := by
        intro below
        rw [LinksTo, hreal]
        constructor
        · rintro ⟨hbelow, _, ⟨⟩, hfile, hnames⟩
          exact ⟨hfile, hbelow, hnames⟩
        · rintro ⟨hfile, hbelow, hnames⟩
          exact ⟨hbelow, resolved, rfl, hfile, hnames⟩
      dsimp only
      cases hdirectory : os.isDirectory resolved.text with
      | true => simp [hlinks, hdirectory]
      | false =>
          rw [if_neg Bool.false_ne_true]
          split_ifs with houtside hshort
          · refine iff_of_false not_false ?_
            rintro ⟨below, hbelow, -⟩
            obtain ⟨-, hne, hnames⟩ := (hlinks below).mp hbelow
            have htext := (CanonicalPath.text_below_iff hroot).mpr ⟨below, hne, hnames, rfl⟩
            obtain ⟨⟨htake, hslash⟩, -⟩ := inside_iff.mpr htext
            exact houtside.elim (· htake) (· hslash)
          · exact absurd hshort (not_length_lt hne)
          · rw [not_or, not_not, not_not] at houtside
            have htext := inside_iff.mp ⟨houtside, rfl⟩
            obtain ⟨below, hbelow, hnames, hurl⟩ := (CanonicalPath.text_below_iff hroot).mp htext
            rw [← hurl]
            constructor
            · rintro ⟨⟩
              exact ⟨below, (hlinks below).mpr ⟨hdirectory, hbelow, hnames⟩, rfl⟩
            · rintro ⟨below', hbelow', rfl⟩
              obtain ⟨-, -, hnames'⟩ := (hlinks below').mp hbelow'
              rw [List.append_cancel_left (hnames.symm.trans hnames')]

theorem packed_file_iff {names : List Bytes} {entry : Option Entry} :
    packed os creator (names, .file) = .ok entry ↔
      ∃ entry', entry = some entry' ∧ fileEntry os creator names = .ok entry' := by
  show (fileEntry os creator names).map some = .ok entry ↔ _
  cases fileEntry os creator names with
  | error failure => exact iff_of_false nofun fun ⟨_, _, h⟩ => nomatch h
  | ok entry' =>
      constructor
      · rintro ⟨⟩
        exact ⟨entry', rfl, rfl⟩
      · rintro ⟨_, rfl, ⟨⟩⟩
        rfl

/-- What a symbolic link leads to is packed unless it is a special file. -/
theorem isPacked_below_iff (hresolves : Resolves os creator base tree)
    (hnames : tree.AllNames IsName) (hdistinct : tree.Distinct)
    (hok : ∀ leaf ∈ tree.leaves, ∃ entry, packed os creator leaf = .ok entry)
    {names below : List Bytes} (hget : tree.get names = some (.inl .symlink))
    (hlinks : LinksTo os creator base names below) :
    IsPacked os creator tree (leafUrl below) ↔ tree.get below = some (.inl .file) := by
  obtain ⟨kind, hbelow, hkind⟩ := hresolves.shown names below hget hlinks
  have hmem : (below, kind) ∈ tree.leaves := (FileTree.mem_leaves_iff hdistinct).mpr hbelow
  constructor
  · rintro ⟨names', kind', entry, hget', hurl, hpacked⟩
    have hmem' : (names', kind') ∈ tree.leaves := (FileTree.mem_leaves_iff hdistinct).mpr hget'
    obtain rfl : names' = below := eq_of_leafUrl_eq hnames hmem' hmem hurl
    cases hbelow.symm.trans hget'
    cases kind with
    | file => exact hbelow
    | symlink => exact absurd rfl hkind
    | passedOver => cases hpacked
  · intro hfile
    obtain ⟨entry, hentry⟩ := hok (below, .file) ((FileTree.mem_leaves_iff hdistinct).mpr hfile)
    obtain ⟨entry', rfl, -⟩ := packed_file_iff.mp hentry
    exact ⟨below, .file, entry', hfile, rfl, hentry⟩

/-- No link leads to a special file, and every page with a refresh leads to what is
packed. -/
def LeadsInside (os : Os) (creator : ZimCreatorFS) (base : CanonicalPath)
    (tree : FileTree Bytes Leaf) : Prop :=
  (∀ names below, tree.get names = some (.inl .symlink) → LinksTo os creator base names below →
    tree.get below = some (.inl .file)) ∧
  ∀ names title url, tree.get names = some (.inl .file) →
    fileEntry os creator names = .ok ⟨leafUrl names, title, .redirect url⟩ →
      IsPacked os creator tree url

theorem packed_symlink_iff (hresolves : Resolves os creator base tree) (hdistinct : tree.Distinct)
    {names : List Bytes} (hget : tree.get names = some (.inl .symlink)) {entry : Entry} :
    packed os creator (names, .symlink) = .ok (some entry) ↔
      ∃ below, LinksTo os creator base names below ∧
        entry = ⟨leafUrl names, [], .redirect (leafUrl below)⟩ := by
  have hne := ne_nil_of_mem_leaves _ ((FileTree.mem_leaves_iff hdistinct).mpr hget)
  rw [← symlinkEntry_eq_some_iff hresolves.base_ne_root hresolves.canonicalBasedir hne]
  show Except.ok (symlinkEntry os creator names) = .ok (some entry) ↔ _
  rw [Except.ok.injEq]

/-- The library is given no dangling redirect. -/
theorem leadsInside_iff (hresolves : Resolves os creator base tree) (hnames : tree.AllNames IsName)
    (hdistinct : tree.Distinct)
    (hok : ∀ leaf ∈ tree.leaves, ∃ entry, packed os creator leaf = .ok entry) :
    LeadsInside os creator base tree ↔
      ∀ entry ∈ entriesOf os creator tree.leaves, ∀ target, entry.kind = .redirect target →
        IsPacked os creator tree target := by
  simp only [mem_entriesOf_iff hdistinct]
  constructor
  · rintro ⟨hlinks, hpages⟩ entry ⟨names, kind, hget, hpacked⟩ target htarget
    cases kind with
    | file =>
        obtain ⟨_, ⟨⟩, hentry⟩ := packed_file_iff.mp hpacked
        have hpath : entry.path = leafUrl names := path_of_packed hpacked
        obtain ⟨path, title, kind⟩ := entry
        dsimp only at hpath htarget
        subst hpath htarget
        exact hpages names title target hget hentry
    | symlink =>
        obtain ⟨below, hlinksTo, rfl⟩ := (packed_symlink_iff hresolves hdistinct hget).mp hpacked
        cases htarget
        exact (isPacked_below_iff hresolves hnames hdistinct hok hget hlinksTo).mpr
          (hlinks names below hget hlinksTo)
    | passedOver => cases hpacked
  · intro hclosed
    constructor
    · intro names below hget hlinksTo
      have hpacked := (packed_symlink_iff hresolves hdistinct hget).mpr ⟨below, hlinksTo, rfl⟩
      exact (isPacked_below_iff hresolves hnames hdistinct hok hget hlinksTo).mp
        (hclosed _ ⟨names, .symlink, hget, hpacked⟩ _ rfl)
    · intro names title url hget hentry
      exact hclosed _ ⟨names, .file, hget, packed_file_iff.mpr ⟨_, rfl, hentry⟩⟩ url rfl

section Archive

variable {zimCreator : Creator} {dangling : Creator.Dangling} {nodup count_lt}

theorem hasEntryByPath_iff (hdistinct : tree.Distinct) (hempty : zimCreator.entries = [])
    {url : Bytes} :
    (((zimCreator.addAll (entriesOf os creator tree.leaves)).stored dangling).toArchive nodup
        count_lt).hasEntryByPath url = true ↔
      ∃ entry ∈ entriesOf os creator tree.leaves,
        entry.path = url ∧ IsStored dangling os creator tree entry := by
  rw [Archive.hasEntryByPath, Option.isSome_iff_exists]
  refine exists_congr fun entry => ?_
  rw [Archive.find_eq_some_iff, Creator.mem_toArchive, mem_stored_iff hdistinct hempty,
    and_right_comm, and_assoc]

/-- At the URL of a leaf is what the leaf gives, if it is stored. -/
theorem find_leafUrl (hnames : tree.AllNames IsName) (hdistinct : tree.Distinct)
    (hempty : zimCreator.entries = []) {names : List Bytes} {kind : Leaf}
    (hget : tree.get names = some (.inl kind)) {entry : Entry} :
    (((zimCreator.addAll (entriesOf os creator tree.leaves)).stored dangling).toArchive nodup
        count_lt).find (leafUrl names) = some entry ↔
      packed os creator (names, kind) = .ok (some entry) ∧
        IsStored dangling os creator tree entry := by
  have hmem : (names, kind) ∈ tree.leaves := (FileTree.mem_leaves_iff hdistinct).mpr hget
  rw [find_packed hdistinct hempty]
  refine and_congr_left fun _ => ?_
  constructor
  · rintro ⟨names', kind', hget', hurl, hpacked⟩
    have hmem' : (names', kind') ∈ tree.leaves := (FileTree.mem_leaves_iff hdistinct).mpr hget'
    obtain rfl : names' = names := eq_of_leafUrl_eq hnames hmem' hmem hurl
    cases hget.symm.trans hget'
    exact hpacked
  · exact fun hpacked => ⟨names, kind, hget, rfl, hpacked⟩

/-- When the library is given no dangling redirect, it stores none. -/
theorem closed_of_leads (hdistinct : tree.Distinct) (hempty : zimCreator.entries = [])
    (hleads : ∀ entry ∈ entriesOf os creator tree.leaves, ∀ target,
      entry.kind = .redirect target → IsPacked os creator tree target) :
    (((zimCreator.addAll (entriesOf os creator tree.leaves)).stored dangling).toArchive nodup
      count_lt).Closed := by
  intro entry hentry target htarget
  rw [Creator.mem_toArchive, mem_stored_iff hdistinct hempty] at hentry
  obtain ⟨entry', hentry', hpath⟩ := (isPacked_iff hdistinct).mp (hleads entry hentry.1 target htarget)
  exact (hasEntryByPath_iff hdistinct hempty).mpr ⟨entry', hentry', hpath, fun _ => hleads entry' hentry'⟩

/-- What is stored with dangling redirects has none only when none was given. -/
theorem leads_of_closed (hdistinct : tree.Distinct) (hempty : zimCreator.entries = [])
    (hclosed : (((zimCreator.addAll (entriesOf os creator tree.leaves)).stored .stored).toArchive
      nodup count_lt).Closed) :
    ∀ entry ∈ entriesOf os creator tree.leaves, ∀ target,
      entry.kind = .redirect target → IsPacked os creator tree target := by
  intro entry hentry target htarget
  have hmem : entry ∈ ((zimCreator.addAll (entriesOf os creator tree.leaves)).stored
      .stored).entries := (mem_stored_iff hdistinct hempty).mpr ⟨hentry, nofun⟩
  obtain ⟨entry', hentry', hpath, -⟩ := (hasEntryByPath_iff hdistinct hempty).mp
    (hclosed entry (Creator.mem_toArchive.mpr hmem) target htarget)
  exact (isPacked_iff hdistinct).mpr ⟨entry', hentry', hpath⟩

end Archive

/-- Every link that is packed is a redirect to the path that it resolves to, and is
there unless the library discards those to special files.  The archive has no
dangling redirect when no link leads to a special file, and every page with a
refresh leads to what is packed.  If the library stores dangling redirects, only
then. -/
theorem packed_links {listing : List (Bytes × DType)}
    (hopen : os.opendir creator.directoryPath = some listing)
    (hlists : Lists os creator.directoryPath listing tree) (hdistinct : tree.Distinct) {fuel : Nat}
    (hfuel : tree.depth < fuel) {zimCreator : Creator} (hempty : zimCreator.entries = [])
    (hresolves : Resolves os creator base tree) {dangling : Creator.Dangling} {out : Archive}
    (hout : Returns (packDirectory os creator dangling fuel zimCreator) out) :
    (∀ names, tree.get names = some (.inl .symlink) → ∀ entry,
      out.find (leafUrl names) = some entry ↔ ∃ below, LinksTo os creator base names below ∧
        (dangling = .discarded → tree.get below = some (.inl .file)) ∧
        entry = ⟨leafUrl names, [], .redirect (leafUrl below)⟩) ∧
      (LeadsInside os creator base tree → out.Closed) ∧
      (dangling = .stored → out.Closed → LeadsInside os creator base tree) := by
  have hnames : tree.AllNames IsName := allNames_of_lists hlists
  obtain ⟨hok, nodup, count_lt, rfl⟩ := (returns_packDirectory hopen hlists hdistinct hfuel).mp hout
  refine ⟨fun names hget entry => ?_, ?_, ?_⟩
  · rw [find_leafUrl hnames hdistinct hempty hget, packed_symlink_iff hresolves hdistinct hget]
    constructor
    · rintro ⟨⟨below, hlinksTo, rfl⟩, hstored⟩
      refine ⟨below, hlinksTo, fun hdiscarded => ?_, rfl⟩
      exact (isPacked_below_iff hresolves hnames hdistinct hok hget hlinksTo).mp
        (hstored hdiscarded _ rfl)
    · rintro ⟨below, hlinksTo, hfile, rfl⟩
      refine ⟨⟨below, hlinksTo, rfl⟩, ?_⟩
      rintro hdiscarded _ ⟨⟩
      exact (isPacked_below_iff hresolves hnames hdistinct hok hget hlinksTo).mpr (hfile hdiscarded)
  · rw [leadsInside_iff hresolves hnames hdistinct hok]
    exact closed_of_leads hdistinct hempty
  · rintro rfl hclosed
    rw [leadsInside_iff hresolves hnames hdistinct hok]
    exact leads_of_closed hdistinct hempty hclosed

end Links

def sampleBase : CanonicalPath := ⟨[str "w", str "d"], by decide⟩

theorem linksTo_sample {names below : List Bytes}
    (h : LinksTo sampleOs sampleCreator sampleBase names below) :
    below = [str "sub", str "x.css"] := by
  obtain ⟨-, resolved, hreal, -, hnames⟩ := h
  simp only [sampleOs] at hreal
  split at hreal
  · cases hreal
    have hcancel : [str "w", str "d"] ++ [str "sub", str "x.css"] = [str "w", str "d"] ++ below := hnames
    exact (List.append_cancel_left hcancel).symm
  · cases hreal

theorem resolves_sample : Resolves sampleOs sampleCreator sampleBase sampleTree where
  base_ne_root := List.cons_ne_nil _ _
  canonicalBasedir := rfl
  shown names below _ hlinks := ⟨.file, by rw [linksTo_sample hlinks]; rfl, nofun⟩

theorem packed_links_sample :
    ∃ out, Returns (packDirectory sampleOs sampleCreator .discarded 2
        (.startZimCreation ⟨List.replicate 16 0, rfl⟩)) out ∧
      out.find (str "link") = some ⟨str "link", [], .redirect (str "sub/x.css")⟩ ∧ out.Closed := by
  obtain ⟨out, hout⟩ : ∃ out, Returns (packDirectory sampleOs sampleCreator .discarded 2
      (.startZimCreation ⟨List.replicate 16 0, rfl⟩)) out := by
    exact ⟨_, (returns_packDirectory rfl lists_sample distinct_sample (Nat.lt_succ_self 1)).mpr
      ⟨packed_sample, by decide, by decide, rfl⟩⟩
  obtain ⟨hlinks, hclosed, -⟩ := packed_links rfl lists_sample distinct_sample
    (Nat.lt_succ_self 1) rfl resolves_sample hout
  have hsheet : LinksTo sampleOs sampleCreator sampleBase [str "link"] [str "sub", str "x.css"] :=
    ⟨List.cons_ne_nil _ _, _, rfl, rfl, rfl⟩
  refine ⟨out, hout, ?_, ?_⟩
  · exact (hlinks [str "link"] rfl _).mpr ⟨_, hsheet, fun _ => rfl, rfl⟩
  · refine hclosed ⟨fun names below _ hlinksTo => ?_, fun names title url hget hentry => ?_⟩
    · rw [linksTo_sample hlinksTo]
      rfl
    · have hmem : (names, Leaf.file) ∈
          [([str "link"], Leaf.symlink), ([str "sub", str "x.css"], Leaf.file)] :=
        (FileTree.mem_leaves_iff distinct_sample).mpr hget
      obtain rfl : names = [str "sub", str "x.css"] := by simpa using hmem
      cases hentry

end ZimTools.Zimwriterfs
