import ZimTools.Tools.LinkDirectories

/-!
# The segment-list reference of link resolution

The rules of RFC 3986, Section 5, on lists of segments.  The directory of the
entry is a list of opaque names.  The decoded URL is a list of moves from it:
`.` stays, `..` goes up, an empty last segment stays, and any other segment is
a name to go down to.  Going up from the empty directory is the error of the
code.

In a directory of which only the first name may be empty the code loses no
name, and along nonempty segments it stays in such directories.  There the loop
and the reference are in step (`PlainDir.resolve`).
-/

namespace ZimTools

open Bytes DotSegments

/-! ## The reference -/

/-- The segments of the directory part of a ZIM path. -/
def dirSegments (zimPath : Bytes) : List Bytes := (zimPath.splitOn (char '/')).dropLast

/-- The move of a segment that is not the last one. -/
def innerMove (s : Bytes) : Move Bytes :=
  if s = str "." then .stay else if s = str ".." then .up else .down s

/-- The move of the last segment.  An empty one only asks for a slash. -/
def lastMove (s : Bytes) : Move Bytes := if s = [] then .stay else innerMove s

/-- The moves of the segments of a URL. -/
def moves : List Bytes → List (Move Bytes)
  | [] => []
  | [s] => [lastMove s]
  | s :: t :: segs => innerMove s :: moves (t :: segs)

/-- A URL names a directory when its last segment is empty, `.` or `..`. -/
def namesDirectory (segs : List Bytes) : Bool :=
  match segs.getLast? with
  | none => false
  | some s => s == [] || s == str "." || s == str ".."

/-- A directory as text, with a slash behind it or not.  The empty directory is
the empty string, and the directory of one empty segment is the slash. -/
def writePath (dir : List Bytes) (slash : Bool) : Bytes :=
  if dir = [] then []
  else if dir = [[]] then str "/"
  else (str "/").intercalate dir ++ if slash then str "/" else []

/-- The reference resolution of a decoded URL in the directory `dir`. -/
def referenceResolve (dir segs : List Bytes) : Option Bytes :=
  (walk dir (moves segs)).map fun target => writePath target (namesDirectory segs)

/-- Names without slashes, of which only the first may be empty. -/
structure PlainDir (dir : List Bytes) : Prop where
  noSlash : ∀ s ∈ dir, char '/' ∉ s
  nonempty : ∀ s ∈ dir.tail, s ≠ []

theorem PlainDir.init {dir : List Bytes} {s : Bytes} (h : PlainDir (dir ++ [s])) : PlainDir dir := by
  refine ⟨fun t ht => h.noSlash t (by simp [ht]), fun t ht => h.nonempty t ?_⟩
  cases dir with
  | nil => simp at ht
  | cons d dir => simpa using Or.inl ht

theorem PlainDir.snoc {dir : List Bytes} {s : Bytes} (h : PlainDir dir) (hs : char '/' ∉ s)
    (hne : s ≠ []) : PlainDir (dir ++ [s]) := by
  refine ⟨?_, ?_⟩
  · intro t ht
    rcases List.mem_append.mp ht with ht | ht
    · exact h.noSlash t ht
    · rw [List.mem_singleton.mp ht]; exact hs
  · intro t ht
    cases dir with
    | nil => simp at ht
    | cons d dir =>
        rcases List.mem_append.mp (by simpa using ht : t ∈ dir ++ [s]) with ht | ht
        · exact h.nonempty t ht
        · rw [List.mem_singleton.mp ht]; exact hne

/-- Of plain names only the first may be empty. -/
theorem PlainDir.ne_two {dir : List Bytes} (h : PlainDir dir) : dir ≠ [[], []] := by
  rintro rfl
  exact h.nonempty [] (by simp) rfl

/-! ## The steps of the reference -/

theorem intercalate_snoc {sep : Bytes} {dir : List Bytes} (hdir : dir ≠ []) (s : Bytes) :
    sep.intercalate (dir ++ [s]) = sep.intercalate dir ++ sep ++ s := by
  induction dir with
  | nil => exact absurd rfl hdir
  | cons d dir ih =>
      cases dir with
      | nil => simp
      | cons e dir =>
          have htail := ih (by simp)
          rw [List.cons_append] at htail
          rw [List.cons_append, List.cons_append, List.intercalate_cons_cons, htail,
            List.intercalate_cons_cons]
          simp

theorem intercalate_concat (dir : List Bytes) (s : Bytes) :
    (str "/").intercalate (dir ++ [s]) = withSlash dir ++ s := by
  induction dir using List.reverseRecOn generalizing s with
  | nil => simp
  | append_singleton dir d ih =>
      rw [intercalate_snoc (List.concat_ne_nil d dir), ih, withSlash_concat]

theorem writePath_true (dir : List Bytes) : writePath dir true = withSlash dir := by
  rcases List.eq_nil_or_concat' dir with rfl | ⟨dir, s, rfl⟩
  · rfl
  · rw [writePath, if_neg (List.concat_ne_nil s dir)]
    split
    · next hone =>
        rw [hone]
        rfl
    · rw [intercalate_concat, withSlash_concat]
      rfl

theorem writePath_concat (dir : List Bytes) {s : Bytes} (hs : s ≠ []) :
    writePath (dir ++ [s]) false = withSlash dir ++ s := by
  have hone : dir ++ [s] ≠ [[]] := by
    intro h
    have hsplit : dir = [] ∧ s = [] := by simpa [List.append_eq_singleton_iff] using h
    exact hs hsplit.2
  rw [writePath, if_neg (List.concat_ne_nil s dir), if_neg hone, intercalate_concat]
  exact List.append_nil _

/-- The last segment of a URL in the reference. -/
theorem referenceResolve_single (dir : List Bytes) (s : Bytes) :
    referenceResolve dir [s] =
      if s = str "." then some (withSlash dir)
      else if s = str ".." then (step dir .up).map withSlash
      else some (withSlash dir ++ s) := by
  by_cases hnil : s = []
  · subst hnil
    rw [if_neg (by decide), if_neg (by decide), List.append_nil, ← writePath_true]
    rfl
  by_cases hdot : s = str "."
  · subst hdot
    rw [if_pos rfl, ← writePath_true]
    rfl
  by_cases hdotdot : s = str ".."
  · subst hdotdot
    have hmoves : walk dir (moves [str ".."]) = step dir .up := by
      simp [moves, lastMove, innerMove, walk, str]
    rw [if_neg dot_ne_dotdot, if_pos rfl, referenceResolve, hmoves]
    refine congrFun (congrArg Option.map (funext fun target => ?_)) _
    exact writePath_true target
  · have hmove : lastMove s = .down s := by simp [lastMove, innerMove, hnil, hdot, hdotdot]
    have hname : namesDirectory [s] = false := by simp [namesDirectory, hnil, hdot, hdotdot]
    rw [if_neg hdot, if_neg hdotdot, referenceResolve, moves, hmove, walk_cons_down, walk_nil, hname,
      Option.map_some, writePath_concat dir hnil]

theorem step_up {dir : List Bytes} (h : dir ≠ []) : step dir .up = some dir.dropLast :=
  if_neg h

/-- A segment of a URL that is not the last one. -/
theorem referenceResolve_cons_cons (dir : List Bytes) (s t : Bytes) (segs : List Bytes) :
    referenceResolve dir (s :: t :: segs) =
      if s = str "." then referenceResolve dir (t :: segs)
      else if s = str ".." then (step dir .up).bind (referenceResolve · (t :: segs))
      else referenceResolve (dir ++ [s]) (t :: segs) := by
  have hstep : referenceResolve dir (s :: t :: segs) =
      (step dir (innerMove s)).bind fun target => referenceResolve target (t :: segs) := by
    simp only [referenceResolve, moves, walk, List.foldlM_cons, namesDirectory,
      List.getLast?_cons_cons]
    cases step dir (innerMove s) <;> rfl
  rw [hstep, innerMove]
  split_ifs <;> rfl

/-! ## Plain directories -/

theorem PlainDir.valid {dir : List Bytes} (h : PlainDir dir) : (⟨isRoot dir, dir⟩ : Held).Valid where
  root := id
  joined := by
    rintro hroot rfl
    exact absurd hroot.symm Bool.false_ne_true
  noSlash := h.noSlash

/-- A plain directory without a separator behind it is a root. -/
theorem PlainDir.root_or {dir : List Bytes} (h : PlainDir dir) :
    isRoot dir = true ∨ (dir ≠ [[]] ∧ dir ≠ [[], []]) := by
  by_cases hone : dir = [[]]
  · exact Or.inl (isRoot_iff.mpr (Or.inr hone))
  · exact Or.inr ⟨hone, h.ne_two⟩

theorem PlainDir.dot {dir : List Bytes} (h : PlainDir dir) :
    (⟨isRoot dir, dir⟩ : Held).dot = ⟨isRoot dir, dir⟩ :=
  Held.dot_of_ne h.valid h.root_or

theorem PlainDir.dropLast {dir : List Bytes} (h : PlainDir dir) : PlainDir dir.dropLast := by
  rcases List.eq_nil_or_concat' dir with rfl | ⟨dir, s, rfl⟩
  · exact h
  · rw [List.dropLast_concat]
    exact h.init

/-- At a `..` the code and the reference drop the same name. -/
theorem PlainDir.dotdot {dir : List Bytes} (h : PlainDir dir) :
    (⟨isRoot dir, dir⟩ : Held).dotdot = (step dir .up).map fun target => ⟨isRoot target, target⟩ := by
  by_cases hnil : dir = []
  · subst hnil
    rfl
  · rw [step_up hnil]
    exact Held.dotdot_of_ne h.valid hnil (h.root_or.imp_right fun hne => ⟨hne, h.dropLast.ne_two⟩)

theorem held_push (dir : List Bytes) {s : Bytes} (hs : s ≠ []) :
    (⟨isRoot dir, dir⟩ : Held).push s = ⟨isRoot (dir ++ [s]), dir ++ [s]⟩ := by
  have hroot : isRoot (dir ++ [s]) = false := by
    rw [← Bool.not_eq_true, isRoot_iff, not_or]
    refine ⟨List.concat_ne_nil s dir, fun hone => hs ?_⟩
    have hsplit : dir = [] ∧ s = [] := by simpa [List.append_eq_singleton_iff] using hone
    exact hsplit.2
  rw [hroot]
  rfl

/-- Along nonempty segments from a plain directory no name is lost. -/
theorem PlainDir.resolve :
    ∀ {segs dir : List Bytes}, segs ≠ [] → PlainDir dir → (∀ s ∈ segs, char '/' ∉ s) →
      (∀ s ∈ segs.dropLast, s ≠ []) →
      (⟨isRoot dir, dir⟩ : Held).resolve segs = referenceResolve dir segs
  | [], _, hne, _, _, _ => absurd rfl hne
  | [s], dir, _, h, _, _ => by
      rw [referenceResolve_single, Held.resolve, h.dot, h.dotdot, Option.map_map]
      rfl
  | s :: t :: segs, dir, _, h, hslash, hnil => by
      have hne : t :: segs ≠ [] := List.cons_ne_nil t segs
      have hslash' : ∀ x ∈ t :: segs, char '/' ∉ x := fun x hx =>
        hslash x (List.mem_cons_of_mem s hx)
      have hnil' : ∀ x ∈ (t :: segs).dropLast, x ≠ [] := fun x hx =>
        hnil x (List.mem_cons_of_mem s hx)
      rw [referenceResolve_cons_cons, Held.resolve]
      split_ifs with hdot hdotdot
      · rw [h.dot]
        exact PlainDir.resolve hne h hslash' hnil'
      · rw [h.dotdot]
        by_cases hroot : dir = []
        · subst hroot
          rfl
        · rw [step_up hroot]
          exact PlainDir.resolve hne h.dropLast hslash' hnil'
      · have hs : s ≠ [] := hnil s List.mem_cons_self
        have hsnoc := h.snoc (hslash s List.mem_cons_self) hs
        rw [held_push dir hs]
        exact PlainDir.resolve hne hsnoc hslash' hnil'

/-! ## The base path -/

/-- The directory as the code holds it. -/
def dirText (dir : List Bytes) : Bytes := writePath dir false

theorem dirText_of_ne {dir : List Bytes} (hne : dir ≠ [[]]) :
    dirText dir = (str "/").intercalate dir := by
  by_cases h : dir = []
  · subst h; rfl
  · simp [dirText, writePath, h, hne]

/-- The base path is the directory of the entry. -/
theorem getBasePath_eq_dirText (zimPath : Bytes) :
    getBasePath zimPath = dirText (dirSegments zimPath) := by
  rcases last_split (str "/") zimPath with hnone | ⟨a, c, b, rfl, hc, hb⟩
  · have hslash : char '/' ∉ zimPath := fun h => hnone _ h (by decide)
    rw [getBasePath, findLastOf_eq_none hnone, dirSegments, List.splitOn_eq_singleton hslash]
    rfl
  · obtain rfl : c = char '/' := by simpa [str] using hc
    have hslash : char '/' ∉ b := fun h => hb _ h (by decide)
    rw [getBasePath, findLastOf_append_cons a hc hb, dirSegments, List.splitOn_append_cons_self,
      List.splitOn_eq_singleton hslash, List.dropLast_concat]
    by_cases ha : a = []
    · subst ha; rfl
    · have hne : a.splitOn (char '/') ≠ [[]] := by
        intro hsplit
        have hjoin : [char '/'].intercalate (a.splitOn (char '/')) = a :=
          List.intercalate_splitOn (char '/')
        rw [hsplit] at hjoin
        exact ha (by simpa using hjoin.symm)
      have hlen : a.length ≠ 0 := by simpa using ha
      rw [dirText_of_ne hne]
      simp only [if_neg hlen, List.take_left]
      exact (List.intercalate_splitOn (char '/')).symm

theorem dirSegments_plain {zimPath : Bytes} (h : ∀ s ∈ (dirSegments zimPath).tail, s ≠ []) :
    PlainDir (dirSegments zimPath) :=
  ⟨fun _ hs => notMem_of_mem_splitOn (List.dropLast_subset _ hs), h⟩

/-! ## Links -/

/-- The state of the loop in a plain directory. -/
def atDir (dir : List Bytes) (pathTerminator : Bytes) : ResolveState :=
  ⟨dirText dir, pathTerminator, getPathSeparatorFor (dirText dir)⟩

theorem dirText_eq_ofText (dir : List Bytes) : dirText dir = (Held.ofText dir).path := by
  by_cases hone : dir = [[]]
  · subst hone
    rfl
  · rw [Held.ofText_path hone, dirText_of_ne hone]
    rcases List.eq_nil_or_concat' dir with rfl | ⟨dir, s, rfl⟩
    · rfl
    · rw [intercalate_concat, Held.path_joined]

/-- The loop starts with what it holds of the directory of the entry. -/
theorem atDir_eq_state {dir : List Bytes} (hdir : ∀ s ∈ dir, char '/' ∉ s) (term : Bytes) :
    atDir dir term = (Held.ofText dir).state term := by
  simp only [atDir, Held.state, dirText_eq_ofText, Held.ofText_separator hdir]

theorem dirSegments_noSlash (z : Bytes) : ∀ s ∈ dirSegments z, char '/' ∉ s :=
  fun _ hs => notMem_of_mem_splitOn (List.dropLast_subset _ hs)

/-- A relative URL is resolved along its decoded segments. -/
theorem resolveLinkTarget_relative {u : Bytes} (hu : u ≠ []) (hquery : char '?' ∉ u)
    (hfragment : char '#' ∉ u) (hrelative : u.head? ≠ some (char '/')) (z : Bytes) :
    resolveLinkTarget u z =
      outcome (percentDecode u)
        ((Held.ofText (dirSegments z)).resolve ((percentDecode u).splitOn (char '/'))) := by
  have hclean : ∀ x ∈ u, isUrlDelimiter x = false := by
    intro x hx
    have hq : x ≠ char '?' := fun h => hquery (h ▸ hx)
    have hf : x ≠ char '#' := fun h => hfragment (h ▸ hx)
    simp [isUrlDelimiter, hq, hf]
  obtain ⟨c, rest, rfl⟩ : ∃ c rest, u = c :: rest := List.exists_cons_of_ne_nil hu
  have hc : c ≠ char '/' := by simpa using hrelative
  have hdir := dirSegments_noSlash z
  have hstart : (⟨getBasePath z, [], getPathSeparatorFor (getBasePath z)⟩ : ResolveState) =
      (Held.ofText (dirSegments z)).state [] := by
    rw [getBasePath_eq_dirText]
    exact atDir_eq_state hdir []
  rw [resolveLinkTarget_of_strip_cons (strip_of_clean hclean) hc, decodeUrl_eq_percentDecode,
    InternalLinkResolver.resolveSegments, InternalLinkResolver.ofPath, hstart]
  exact Held.finish_foldlM _ _ _ _ (List.splitOn_ne_nil _ _) (Held.ofText_valid hdir)
    fun s hs => notMem_of_mem_splitOn hs

/-- A relative URL resolves to its reference. -/
theorem resolveLinkTarget_eq_reference (u z : Bytes)
    (hz : ∀ s ∈ (dirSegments z).tail, s ≠ []) (hu : u ≠ [])
    (hquery : char '?' ∉ u) (hfragment : char '#' ∉ u) (hrelative : u.head? ≠ some (char '/'))
    (hsegs : ∀ s ∈ ((percentDecode u).splitOn (char '/')).dropLast, s ≠ []) :
    resolveLinkTarget u z =
      outcome (percentDecode u)
        (referenceResolve (dirSegments z) ((percentDecode u).splitOn (char '/'))) := by
  have hdir := dirSegments_plain hz
  rw [resolveLinkTarget_relative hu hquery hfragment hrelative, Held.ofText_of_ne hdir.ne_two]
  exact congrArg (outcome _) (hdir.resolve (List.splitOn_ne_nil _ _)
    (fun s hs => notMem_of_mem_splitOn hs) hsegs)

/-- A link with an encoded `..` out of a directory whose name is `..`. -/
theorem resolveLinkTarget_encoded_dotdot :
    resolveLinkTarget (str "%2e%2e/a") (str "home/../chimney/smoke") = .ok (str "home/../a") := by
  rw [resolveLinkTarget_eq_reference (str "%2e%2e/a") (str "home/../chimney/smoke") (by decide)
    (by decide) (by decide) (by decide) (by decide) (by decide)]
  decide

end ZimTools
