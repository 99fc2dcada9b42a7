import ZimTools.Incremental.RoundTrip

/-!
# The lists of a diff, read back

`zimdiff` writes the deleted paths and the redirects as text, which `zimpatch`
reads.  A path with a newline becomes two lines.  Both lists are read back exactly
when no path has one, and the counters of the reader suffice (`readBack_iff`).
-/

namespace ZimTools.Incremental

open Loop Zimdiff Zimpatch

/-! ## The texts -/

/-- Paths with targets.  An archive has no path twice. -/
structure Redirects where
  pairs : List (Bytes × Bytes)
  nodup : (pairs.map Prod.fst).Nodup

/-- What `zimdiff` writes for deleted paths. -/
def dlistText (paths : List Bytes) : Bytes :=
  paths.foldl (fun dlist path => dlist ++ (path ++ str "\n")) []

/-- What `zimdiff` writes for redirects. -/
def redirectlistText (redirects : Redirects) : Bytes :=
  redirects.pairs.foldl (fun list redirect =>
    list ++ (redirect.1 ++ str "\n" ++ redirect.2 ++ str "\n")) []

/-- What `zimpatch` makes of the text of a redirect list. -/
def readRedirectList (text : Bytes) (fuel : Nat) : Program (List (Bytes × Bytes)) := do
  let rdlist ← readList text fuel
  pairUp rdlist []

def pairLines (redirect : Bytes × Bytes) : List Bytes := [redirect.1, redirect.2]

theorem dlistText_eq (paths : List Bytes) : dlistText paths = unlines paths := by
  rw [dlistText, unlines, List.flatMap_eq_foldl]

theorem redirectlistText_eq (redirects : Redirects) :
    redirectlistText redirects = unlines (redirects.pairs.flatMap pairLines) := by
  rw [redirectlistText, unlines, List.flatMap_assoc, List.flatMap_eq_foldl]
  simp [pairLines]

theorem length_redirectlistText (redirects : Redirects) :
    (redirectlistText redirects).length =
      (redirects.pairs.map fun redirect => redirect.1.length + 1 + (redirect.2.length + 1)).sum := by
  rw [redirectlistText_eq, length_unlines]
  induction redirects.pairs with
  | nil => rfl
  | cons redirect pairs ih =>
      rw [List.flatMap_cons, List.map_append, List.sum_append, ih, List.map_cons, List.sum_cons]
      simp [pairLines]

/-! ## Reading -/

/-- Both lists are read back.  A `std::map` is what it gives for each path. -/
def ReadBack (paths : List Bytes) (redirects : Redirects) : Prop :=
  ∃ fuel deleteList redirectList,
    Returns (readList (dlistText paths) fuel) deleteList ∧
    Returns (readRedirectList (redirectlistText redirects) fuel) redirectList ∧
    deleteList = paths ∧
    ∀ path, redirectList.lookup path = redirects.pairs.lookup path

/-- No line has a newline. -/
theorem newline_notMem_linesFrom {temp text line : Bytes} (htemp : char '\n' ∉ temp)
    (h : line ∈ linesFrom temp text) : char '\n' ∉ line := by
  induction text generalizing temp with
  | nil => cases h
  | cons c text ih =>
      rw [linesFrom] at h
      split_ifs at h with hc
      · cases h with
        | head => exact htemp
        | tail _ h => exact ih List.not_mem_nil h
      · refine ih (fun hmem => ?_) h
        rcases List.mem_append.mp hmem with hmem | hmem
        · exact htemp hmem
        · exact hc (List.mem_singleton.mp hmem).symm

theorem newline_notMem_textLines {text line : Bytes} (h : line ∈ textLines text) :
    char '\n' ∉ line :=
  newline_notMem_linesFrom List.not_mem_nil h

/-- Every path and every target was a line. -/
theorem mem_of_returns_pairUp : ∀ {lines : List Bytes} {redirectList r : List (Bytes × Bytes)},
    Returns (pairUp lines redirectList) r → ∀ redirect ∈ r,
      redirect ∈ redirectList ∨ redirect.1 ∈ lines ∧ redirect.2 ∈ lines
  | [], _, _, h, redirect, hmem => by
      rw [pairUp, returns_pure] at h
      exact Or.inl (h ▸ hmem)
  | [_], _, _, h, _, _ => by
      rw [pairUp] at h
      simp at h
  | url :: target :: lines, redirectList, r, h, redirect, hmem => by
      have hrest : Returns (pairUp lines ((url, target) :: redirectList)) r := h
      rcases mem_of_returns_pairUp hrest redirect hmem with hlist | ⟨h1, h2⟩
      · cases hlist with
        | head => exact Or.inr ⟨by simp, by simp⟩
        | tail _ hlist => exact Or.inl hlist
      · exact Or.inr ⟨by simp [h1], by simp [h2]⟩

theorem returns_pairUp_pairLines {pairs : List (Bytes × Bytes)} :
    ∀ {redirectList r : List (Bytes × Bytes)},
      Returns (pairUp (pairs.flatMap pairLines) redirectList) r ↔
        r = pairs.reverse ++ redirectList := by
  induction pairs with
  | nil => simp [pairUp]
  | cons redirect pairs ih =>
      intro redirectList r
      rw [List.reverse_cons, List.append_assoc]
      exact ih

/-- Where no key is twice a list gives the values it has. -/
theorem lookup_eq_some_iff {l : List (Bytes × Bytes)} (h : (l.map Prod.fst).Nodup)
    {key val : Bytes} : l.lookup key = some val ↔ (key, val) ∈ l := by
  induction l with
  | nil => simp
  | cons e l ih =>
      obtain ⟨key', val'⟩ := e
      rw [List.map_cons, List.nodup_cons] at h
      rw [List.lookup_cons, List.mem_cons, Prod.mk.injEq]
      by_cases hkey : key = key'
      · have hnot : (key, val) ∉ l := fun hmem =>
          h.1 (List.mem_map.mpr ⟨(key, val), hmem, hkey⟩)
        simp [hkey, hkey ▸ hnot, eq_comm]
      · rw [beq_false_of_ne hkey]
        simp [hkey, ih h.2]

theorem lookup_reverse {l : List (Bytes × Bytes)} (h : (l.map Prod.fst).Nodup) (key : Bytes) :
    l.reverse.lookup key = l.lookup key := by
  have hreverse : (l.reverse.map Prod.fst).Nodup := by
    rw [List.map_reverse]
    exact List.nodup_reverse.mpr h
  ext val
  rw [lookup_eq_some_iff hreverse, List.mem_reverse, lookup_eq_some_iff h]

theorem newlineFree_of_readBack {paths : List Bytes} {redirects : Redirects}
    (h : ReadBack paths redirects) :
    (∀ path ∈ paths, char '\n' ∉ path) ∧
      ∀ redirect ∈ redirects.pairs, char '\n' ∉ redirect.1 ∧ char '\n' ∉ redirect.2 := by
  obtain ⟨fuel, deleteList, redirectList, hdelete, hredirect, rfl, hlookup⟩ := h
  obtain ⟨-, -, hlines⟩ := returns_readText.mp hdelete
  rw [readRedirectList, returns_bind] at hredirect
  obtain ⟨rdlist, hrdlist, hpairs⟩ := hredirect
  obtain ⟨-, -, rfl⟩ := returns_readText.mp hrdlist
  refine ⟨fun path hpath => newline_notMem_textLines (hlines ▸ hpath), fun redirect hmem => ?_⟩
  have hkey : redirectList.lookup redirect.1 = some redirect.2 := by
    rw [hlookup]
    exact (lookup_eq_some_iff redirects.nodup).mpr hmem
  obtain ⟨a, b, rfl, -⟩ := List.lookup_eq_some_iff.mp hkey
  rcases mem_of_returns_pairUp hpairs (redirect.1, redirect.2) (by simp) with hnil | ⟨h1, h2⟩
  · cases hnil
  · exact ⟨newline_notMem_textLines h1, newline_notMem_textLines h2⟩

/-- Both lists are read back exactly when no path and no target has a newline,
and each text has fewer than 2^32 bytes. -/
theorem readBack_iff (paths : List Bytes) (redirects : Redirects) :
    ReadBack paths redirects ↔
      ((∀ path ∈ paths, char '\n' ∉ path) ∧
        ∀ redirect ∈ redirects.pairs, char '\n' ∉ redirect.1 ∧ char '\n' ∉ redirect.2) ∧
      (paths.map fun path => path.length + 1).sum < UInt32.size ∧
      (redirects.pairs.map fun redirect =>
        redirect.1.length + 1 + (redirect.2.length + 1)).sum < UInt32.size := by
  rw [← length_unlines, ← length_redirectlistText, ← dlistText_eq]
  constructor
  · intro h
    refine ⟨newlineFree_of_readBack h, ?_⟩
    obtain ⟨fuel, deleteList, redirectList, hdelete, hredirect, -, -⟩ := h
    rw [readRedirectList, returns_bind] at hredirect
    obtain ⟨rdlist, hrdlist, -⟩ := hredirect
    exact ⟨(returns_readText.mp hdelete).1, (returns_readText.mp hrdlist).1⟩
  · rintro ⟨⟨hpaths, hredirects⟩, hdlist, hredirectlist⟩
    have hlines : ∀ line ∈ redirects.pairs.flatMap pairLines, char '\n' ∉ line := by
      intro line hline
      obtain ⟨redirect, hmem, hline⟩ := List.mem_flatMap.mp hline
      rcases List.mem_pair.mp hline with rfl | rfl
      · exact (hredirects redirect hmem).1
      · exact (hredirects redirect hmem).2
    refine ⟨UInt32.size, paths, redirects.pairs.reverse, ?_, ?_, rfl,
      lookup_reverse redirects.nodup⟩
    · rw [dlistText_eq] at hdlist ⊢
      exact (returns_readList hpaths).mpr ⟨hdlist, hdlist, rfl⟩
    · rw [redirectlistText_eq] at hredirectlist ⊢
      rw [readRedirectList, returns_bind]
      exact ⟨_, (returns_readList hlines).mpr ⟨hredirectlist, hredirectlist, rfl⟩,
        returns_pairUp_pairLines.mpr (List.append_nil _).symm⟩

/-- A deleted path with a newline is read as two paths, and a redirect from such
a path is not read at all. -/
theorem not_readBack_newline :
    ¬ ReadBack [str "a\nb"] ⟨[], List.nodup_nil⟩ ∧
      ¬ ReadBack [] ⟨[(str "a\nb", str "c")], List.nodup_singleton _⟩ := by
  constructor
  · intro h
    exact (newlineFree_of_readBack h).1 (str "a\nb") (List.mem_singleton_self _) (by decide)
  · intro h
    exact ((newlineFree_of_readBack h).2 (str "a\nb", str "c") (List.mem_singleton_self _)).1
      (by decide)

end ZimTools.Incremental
