import ZimTools.Tools.LinkReference

/-!
# Absolute paths of redirects

`computeAbsolutePath` of `tools.cpp`, by which `zimwriterfs` finds the target of
an HTML redirect.  It holds the current directory with a slash behind it, and
at a `..` above the root it stays there.

For all inputs it is the lexical walk over the segments of the relative path
(`computeAbsolutePath_eq_walk`), and so it ends where the resolver of `zimcheck`
does, as long as that one gives a result.
-/

namespace ZimTools

open Bytes DotSegments

/-! ## The code -/

/-- `s.length() - 1`, which is `npos` for the empty string. -/
def lastIndex (s : Bytes) : Option Nat := if s = [] then none else some (s.length - 1)

/-- `s.substr(0, offset)`. -/
def substrBefore (s : Bytes) : Option Nat → Bytes
  | none => s
  | some i => s.take i

/-- `s.substr(0, offset + 1)`, where `npos + 1` is 0. -/
def substrThrough (s : Bytes) : Option Nat → Bytes
  | none => []
  | some i => s.take (i + 1)

/-- `removeLastPathElement`. -/
def removeLastPathElement (path : Bytes) (removePreSeparator removePostSeparator : Bool) : Bytes :=
  let offset := findLastOf path (str "/")
  let (newPath, offset) :=
    if removePreSeparator ∧ offset = lastIndex path then
      let newPath := substrBefore path offset
      (newPath, findLastOf newPath (str "/"))
    else (path, offset)
  if removePostSeparator then substrBefore newPath offset else substrThrough newPath offset

/-- What `std::getline` reads of a string with the given delimiter.  Behind a
last delimiter there is no item. -/
def getlines (s : Bytes) (delim : UInt8) : List Bytes :=
  let pieces := s.splitOn delim
  if pieces.getLast? = some [] then pieces.dropLast else pieces

/-- The loop body of `computeAbsolutePath`. -/
def goThrough (absolutePath relativePathItem : Bytes) : Bytes :=
  if relativePathItem = str ".." then removeLastPathElement absolutePath true false
  else if relativePathItem ≠ [] ∧ relativePathItem ≠ str "." then
    absolutePath ++ relativePathItem ++ str "/"
  else absolutePath

/-- `computeAbsolutePath`. -/
def computeAbsolutePath (path relativePath : Bytes) : Bytes :=
  let absolutePath :=
    if path = [] then path
    else if path.getLast? = some (char '/') then path
    else removeLastPathElement path false false
  ((getlines relativePath (char '/')).foldl goThrough absolutePath).dropLast

/-! ## One element -/

/-- The leaf is dropped, and the slash before it stays. -/
theorem removeLastPathElement_leaf (a : Bytes) {b : Bytes} (hb : char '/' ∉ b) :
    removeLastPathElement (a ++ str "/" ++ b) false false = a ++ str "/" := by
  have hlen : (a ++ str "/").length = a.length + 1 := by simp [str]
  simp only [removeLastPathElement, findLastOf_slash_append a hb, Bool.false_eq_true, false_and,
    if_false, substrThrough]
  rw [← hlen, List.take_left]

theorem removeLastPathElement_single {s : Bytes} (hs : char '/' ∉ s) :
    removeLastPathElement s false false = [] := by
  simp only [removeLastPathElement, findLastOf_slash_single hs, Bool.false_eq_true, false_and,
    if_false, substrThrough]

/-- The path starts as the directory of its leaf. -/
theorem start_eq_withSlash (path : Bytes) :
    (if path = [] then path
      else if path.getLast? = some (char '/') then path
      else removeLastPathElement path false false) = withSlash (dirSegments path) := by
  rcases last_split (str "/") path with hnone | ⟨a, c, b, rfl, hc, hb⟩
  · have hslash : char '/' ∉ path := fun h => hnone _ h (by decide)
    rw [dirSegments, List.splitOn_eq_singleton hslash, removeLastPathElement_single hslash]
    have hlast : path.getLast? ≠ some (char '/') := fun h => hslash (List.mem_of_getLast? h)
    rw [if_neg hlast]
    split_ifs with hnil
    · exact hnil
    · rfl
  · obtain rfl : c = char '/' := by simpa [str] using hc
    have hslash : char '/' ∉ b := fun h => hb _ h (by decide)
    have hjoin : withSlash (a.splitOn (char '/')) = a ++ str "/" := by
      have hsplit : [char '/'].intercalate (a.splitOn (char '/')) = a :=
        List.intercalate_splitOn (char '/')
      obtain ⟨dir, s, hdir⟩ :=
        (List.eq_nil_or_concat' _).resolve_left (List.splitOn_ne_nil (char '/') a)
      rw [hdir] at hsplit ⊢
      rw [withSlash_concat, ← intercalate_concat]
      exact congrArg (· ++ str "/") hsplit
    rw [dirSegments, List.splitOn_append_cons_self, List.splitOn_eq_singleton hslash,
      List.dropLast_concat, hjoin]
    have hcons : a ++ char '/' :: b = a ++ str "/" ++ b := by simp [str]
    rw [hcons, if_neg (by simp [str])]
    rcases List.eq_nil_or_concat' b with rfl | ⟨b, x, rfl⟩
    · rw [if_pos (by simp [str]), List.append_nil]
    · have hx : x ≠ char '/' := fun h => hslash (by simp [h])
      rw [if_neg, removeLastPathElement_leaf a hslash]
      rw [← List.append_assoc, List.getLast?_concat]
      exact fun h => hx (Option.some.inj h)

/-- At a `..` the last name is dropped, and the root is kept. -/
theorem removeLastPathElement_withSlash {dir : List Bytes} (h : ∀ s ∈ dir, char '/' ∉ s) :
    removeLastPathElement (withSlash dir) true false = withSlash dir.dropLast := by
  rcases List.eq_nil_or_concat' dir with rfl | ⟨dir, s, rfl⟩
  · rfl
  · have hs : char '/' ∉ s := h s (List.mem_append_right _ (List.mem_singleton_self s))
    have hoffset : findLastOf (withSlash (dir ++ [s])) (str "/") = some (withSlash dir ++ s).length := by
      have hlast := findLastOf_slash_append (withSlash dir ++ s) (s := []) List.not_mem_nil
      rwa [List.append_nil, ← withSlash_concat] at hlast
    have hindex : lastIndex (withSlash (dir ++ [s])) = some (withSlash dir ++ s).length := by
      rw [lastIndex, if_neg (fun hnil => List.concat_ne_nil s dir (withSlash_eq_nil_iff.mp hnil)),
        ← List.length_dropLast, dropLast_withSlash_concat]
    have hnew : substrBefore (withSlash (dir ++ [s])) (some (withSlash dir ++ s).length) =
        withSlash dir ++ s := by
      rw [withSlash_concat]
      exact List.take_left
    simp only [removeLastPathElement, hoffset, hindex, and_self, if_true, hnew,
      Bool.false_eq_true, if_false, List.dropLast_concat]
    rcases List.eq_nil_or_concat' dir with rfl | ⟨dir, d, rfl⟩
    · rw [withSlash_nil, List.nil_append, findLastOf_slash_single hs]
      rfl
    · have hlen : (withSlash (dir ++ [d])).length = (withSlash dir ++ d).length + 1 := by
        rw [withSlash_concat, List.length_append]
        rfl
      conv_lhs => arg 2; rw [withSlash_concat, findLastOf_slash_append _ hs]
      rw [substrThrough, ← hlen, List.take_left]

/-! ## The walk -/

/-- One item moves the directory as its segment says. -/
theorem goThrough_withSlash {loc : Location Bytes} (habs : loc.absolute = true)
    (h : ∀ s ∈ loc.names, char '/' ∉ s) (item : Bytes) :
    goThrough (withSlash loc.names) item = withSlash (loc.move (lastMove item)).names := by
  rw [goThrough, lastMove, innerMove]
  by_cases hup : item = str ".."
  · subst hup
    rw [if_pos rfl, if_neg (by decide), if_neg dot_ne_dotdot, if_pos rfl,
      removeLastPathElement_withSlash h, Location.move, Location.parent, if_pos habs]
    split_ifs with hnames
    · rfl
    · rw [of_not_not hnames]
      rfl
  by_cases hnil : item = []
  · subst hnil
    rfl
  by_cases hdot : item = str "."
  · subst hdot
    rfl
  · rw [if_neg hup, if_pos ⟨hnil, hdot⟩, if_neg hnil, if_neg hdot, if_neg hup, ← withSlash_concat]
    rfl

theorem lastMove_noSlash {item name : Bytes} (h : char '/' ∉ item) (hmove : lastMove item = .down name) :
    char '/' ∉ name := by
  rw [lastMove, innerMove] at hmove
  split_ifs at hmove
  exact Move.down.inj hmove ▸ h

/-- A move keeps the names without slashes. -/
theorem noSlash_move {loc : Location Bytes} (h : ∀ s ∈ loc.names, char '/' ∉ s) {item : Bytes}
    (hitem : char '/' ∉ item) : ∀ s ∈ (loc.move (lastMove item)).names, char '/' ∉ s := by
  cases hmove : lastMove item with
  | stay => exact h
  | up =>
      rw [Location.move, Location.parent]
      split_ifs
      · exact fun s hs => h s (List.dropLast_subset _ hs)
      · exact h
      · exact h
  | down name =>
      intro s hs
      rcases List.mem_append.mp hs with hs | hs
      · exact h s hs
      · rw [List.mem_singleton.mp hs]
        exact lastMove_noSlash hitem hmove

theorem foldl_goThrough {segs : List Bytes} (hsegs : ∀ s ∈ segs, char '/' ∉ s)
    {loc : Location Bytes} (habs : loc.absolute = true) (h : ∀ s ∈ loc.names, char '/' ∉ s) :
    segs.foldl goThrough (withSlash loc.names) =
      withSlash (loc.walk (segs.map lastMove)).names := by
  induction segs generalizing loc with
  | nil => rfl
  | cons s segs ih =>
      rw [List.forall_mem_cons] at hsegs
      rw [List.foldl_cons, goThrough_withSlash habs h,
        ih hsegs.2 (by rw [Location.move_absolute, habs]) (noSlash_move h hsegs.1)]
      rfl

/-- An empty piece is passed over, so the last one does not count. -/
theorem foldl_goThrough_getlines (path relativePath : Bytes) :
    (getlines relativePath (char '/')).foldl goThrough path =
      (relativePath.splitOn (char '/')).foldl goThrough path := by
  rw [getlines]
  split_ifs with hlast
  · obtain ⟨segs, hsegs⟩ := List.getLast?_eq_some_iff.mp hlast
    rw [hsegs, List.dropLast_concat, List.foldl_append]
    rfl
  · rfl

/-- The target of a redirect is found by the lexical walk over the segments of
the relative path. -/
theorem computeAbsolutePath_eq_walk (path relativePath : Bytes) :
    computeAbsolutePath path relativePath =
      (withSlash ((⟨true, 0, dirSegments path⟩ : Location Bytes).walk
        ((relativePath.splitOn (char '/')).map lastMove)).names).dropLast := by
  simp only [computeAbsolutePath, foldl_goThrough_getlines, start_eq_withSlash]
  have hsegs : ∀ s ∈ relativePath.splitOn (char '/'), char '/' ∉ s := fun s hs =>
    notMem_of_mem_splitOn hs
  have hdir : ∀ s ∈ (⟨true, 0, dirSegments path⟩ : Location Bytes).names, char '/' ∉ s :=
    dirSegments_noSlash path
  exact congrArg List.dropLast (foldl_goThrough hsegs rfl hdir)

/-! ## The two resolvers -/

theorem moves_eq_map {segs : List Bytes} (h : ∀ s ∈ segs, s ≠ []) :
    moves segs = segs.map lastMove := by
  induction segs with
  | nil => rfl
  | cons s segs ih =>
      rw [List.forall_mem_cons] at h
      cases segs with
      | nil => rfl
      | cons t segs =>
          have hs : lastMove s = innerMove s := if_neg h.1
          rw [moves, ih h.2, List.map_cons (a := s), hs]

/-- A walk by a name at the end ends below its last directory. -/
theorem exists_of_walk_concat {dir target : List Bytes} {ms : List (Move Bytes)} {s : Bytes}
    (h : walk dir (ms ++ [.down s]) = some target) : ∃ dir', target = dir' ++ [s] := by
  rw [walk, List.foldlM_append] at h
  cases hms : ms.foldlM step dir with
  | none =>
      rw [hms] at h
      cases h
  | some dir' =>
      rw [hms] at h
      exact ⟨dir', (Option.some.inj h).symm⟩

/-- The reference of a relative path that ends in a name. -/
theorem referenceResolve_eq_walk {dir segs : List Bytes} {x : Bytes} (hsegs : ∀ s ∈ segs, s ≠ [])
    (hname : ∃ s, segs.getLast? = some s ∧ s ≠ str "." ∧ s ≠ str "..")
    (h : referenceResolve dir segs = some x) :
    x = (withSlash ((⟨true, 0, dir⟩ : Location Bytes).walk (segs.map lastMove)).names).dropLast := by
  obtain ⟨s, hlast, hdot, hdotdot⟩ := hname
  obtain ⟨inner, rfl⟩ := List.getLast?_eq_some_iff.mp hlast
  have hs : s ≠ [] := hsegs s (List.mem_append_right _ (List.mem_singleton_self s))
  have hmove : lastMove s = .down s := by
    rw [lastMove, innerMove, if_neg hs, if_neg hdot, if_neg hdotdot]
  rw [referenceResolve, moves_eq_map hsegs, Option.map_eq_some_iff] at h
  obtain ⟨target, hwalk, rfl⟩ := h
  rw [Location.walk_of_walk hwalk]
  rw [List.map_append, List.map_singleton, hmove] at hwalk
  obtain ⟨dir', rfl⟩ := exists_of_walk_concat hwalk
  have hfile : namesDirectory (inner ++ [s]) = false := by
    simp [namesDirectory, hs, hdot, hdotdot]
  rw [hfile, writePath_concat dir' hs]
  exact (dropLast_withSlash_concat dir' s).symm

/-- The walk along the decoded segments of a relative link ends where `zimcheck`
resolves it. -/
theorem walk_eq_of_resolveLinkTarget {p r x : Bytes} (hp : ∀ s ∈ (dirSegments p).tail, s ≠ [])
    (hne : r ≠ []) (hquery : char '?' ∉ r) (hfragment : char '#' ∉ r)
    (hrelative : r.head? ≠ some (char '/'))
    (hr : ∀ s ∈ (percentDecode r).splitOn (char '/'), s ≠ [])
    (hname : ∃ s, ((percentDecode r).splitOn (char '/')).getLast? = some s ∧
      s ≠ str "." ∧ s ≠ str "..")
    (hok : resolveLinkTarget r p = .ok x) :
    (withSlash ((⟨true, 0, dirSegments p⟩ : Location Bytes).walk
      (((percentDecode r).splitOn (char '/')).map lastMove)).names).dropLast = x := by
  have hinner : ∀ s ∈ ((percentDecode r).splitOn (char '/')).dropLast, s ≠ [] :=
    fun s hs => hr s (List.dropLast_subset _ hs)
  rw [resolveLinkTarget_eq_reference r p hp hne hquery hfragment hrelative hinner] at hok
  cases href : referenceResolve (dirSegments p) ((percentDecode r).splitOn (char '/')) with
  | none =>
      rw [href] at hok
      cases hok
  | some y =>
      rw [href] at hok
      obtain rfl : y = x := Except.ok.inj hok
      exact (referenceResolve_eq_walk hr hname href).symm

/-- `zimwriterfs` follows a relative target to where `zimcheck` resolves it. -/
theorem computeAbsolutePath_eq_resolveLinkTarget {p r x : Bytes}
    (hp : ∀ s ∈ (p.splitOn (char '/')).tail.dropLast, s ≠ [])
    (hclean : char '%' ∉ r ∧ char '?' ∉ r ∧ char '#' ∉ r)
    (hr : ∀ s ∈ r.splitOn (char '/'), s ≠ [])
    (hname : ∃ s, (r.splitOn (char '/')).getLast? = some s ∧ s ≠ str "." ∧ s ≠ str "..")
    (hok : resolveLinkTarget r p = .ok x) : computeAbsolutePath p (decodeUrl r) = x := by
  obtain ⟨hpercent, hquery, hfragment⟩ := hclean
  have hdecode : percentDecode r = r := percentDecode_of_notMem hpercent
  have hne : r ≠ [] := by
    rintro rfl
    exact hr [] (by simp) rfl
  have hrelative : r.head? ≠ some (char '/') := by
    intro hhead
    obtain ⟨rest, rfl⟩ := List.head?_eq_some_iff.mp hhead
    exact hr [] (by simp [List.splitOn_cons_eq_if_modifyHead]) rfl
  have hbase : ∀ s ∈ (dirSegments p).tail, s ≠ [] := by
    rw [dirSegments, List.tail_dropLast]
    exact hp
  rw [decodeUrl_eq_percentDecode, computeAbsolutePath_eq_walk]
  exact walk_eq_of_resolveLinkTarget hbase hne hquery hfragment hrelative (hdecode.symm ▸ hr)
    (hdecode.symm ▸ hname) hok

/-- A redirect from an entry at the root, up and down again. -/
theorem computeAbsolutePath_eq_resolveLinkTarget_up :
    computeAbsolutePath (str "/blog/a/page") (decodeUrl (str "../.././about/./me")) =
      str "/about/me" :=
  computeAbsolutePath_eq_resolveLinkTarget (by decide) (by decide) (by decide)
    ⟨str "me", by decide, by decide, by decide⟩ (by decide)

end ZimTools
