import ZimTools.Tools.LinkReference
import ZimTools.Tools.RelativeSegments

/-!
# Resolving a computed relative path

`computeRelativePath` and `resolveLinkTarget` are written apart from each other,
the first on lists of segments and the second on flat text.  Back to back, on
paths that hold nothing a URL could read otherwise, they lead to the target
unless one of the directories of the base has the path of the target
(`resolveLinkTarget_computeRelativePath`).  To such an ancestor the computed path
goes up once too often (`resolveLinkTarget_computeRelativePath_ancestor`).
-/

namespace ZimTools

open Bytes DotSegments

/-! ## Paths -/

/-- A path without the slash it ends in. -/
def stem (path : Bytes) : Bytes :=
  if path.getLast? = some (char '/') then path.dropLast else path

/-- A path of names that a URL may hold as they are. -/
structure LinkPath (path : Bytes) : Prop where
  plain : PlainPath (stem path)
  percent : char '%' ∉ path
  query : char '?' ∉ path
  fragment : char '#' ∉ path

theorem stem_of_slash (path : Bytes) : stem (path ++ str "/") = path := by
  have hlast : (path ++ str "/").getLast? = some (char '/') := List.getLast?_concat
  rw [stem, if_pos hlast]
  exact List.dropLast_concat

/-- A path is its stem or its stem with a slash. -/
theorem stem_cases (path : Bytes) :
    (path.getLast? ≠ some (char '/') ∧ stem path = path) ∨
      (path.getLast? = some (char '/') ∧ path = stem path ++ str "/") := by
  by_cases hlast : path.getLast? = some (char '/')
  · obtain ⟨p, rfl⟩ := List.getLast?_eq_some_iff.mp hlast
    exact Or.inr ⟨hlast, congrArg (· ++ str "/") (stem_of_slash p).symm⟩
  · exact Or.inl ⟨hlast, if_neg hlast⟩

theorem dirSegments_of_slash {path : Bytes} (hpath : path = stem path ++ str "/") :
    dirSegments path = segments (stem path) := by
  have hsegments : segments path = segments (stem path) ++ [[]] :=
    (congrArg segments hpath).trans (segments_append (stem path) [])
  exact (congrArg List.dropLast hsegments).trans List.dropLast_concat

/-- The directories of a path are plain. -/
theorem LinkPath.plainDir {path : Bytes} (h : LinkPath path) : PlainDir (dirSegments path) := by
  have hsub : ∀ s ∈ dirSegments path, s ∈ segments (stem path) := by
    intro s hs
    rcases stem_cases path with ⟨-, hstem⟩ | ⟨-, hpath⟩
    · rw [hstem]
      exact List.dropLast_subset _ hs
    · have hsegments : segments path = segments (stem path) ++ [[]] :=
        (congrArg segments hpath).trans (segments_append (stem path) [])
      have hdir : dirSegments path = segments (stem path) :=
        (congrArg List.dropLast hsegments).trans List.dropLast_concat
      exact hdir ▸ hs
  exact dirSegments_plain fun s hs => (h.plain s (hsub s (List.mem_of_mem_tail hs))).1

/-! ## The reference along names -/

theorem referenceResolve_cons_of_ne (dir : List Bytes) (s : Bytes) {segs : List Bytes}
    (hsegs : segs ≠ []) :
    referenceResolve dir (s :: segs) =
      if s = str "." then referenceResolve dir segs
      else if s = str ".." then (step dir .up).bind (referenceResolve · segs)
      else referenceResolve (dir ++ [s]) segs := by
  obtain ⟨t, segs, rfl⟩ := List.exists_cons_of_ne_nil hsegs
  exact referenceResolve_cons_cons dir s t segs

/-- As many levels up as there are names. -/
theorem referenceResolve_ups (a c : List Bytes) {segs : List Bytes} (hsegs : segs ≠ []) :
    referenceResolve (a ++ c) (List.replicate c.length (str "..") ++ segs) =
      referenceResolve a segs := by
  induction c using List.reverseRecOn with
  | nil => rw [List.append_nil]; rfl
  | append_singleton c s ih =>
      have hne : List.replicate c.length (str "..") ++ segs ≠ [] :=
        List.append_ne_nil_of_right_ne_nil _ hsegs
      rw [List.length_append, List.length_singleton, List.replicate_succ, List.cons_append,
        referenceResolve_cons_of_ne _ _ hne, if_neg dot_ne_dotdot, if_pos rfl, ← List.append_assoc,
        step_up_append]
      exact ih

theorem referenceResolve_names (dir : List Bytes) {names segs : List Bytes}
    (hnames : ∀ s ∈ names, s ≠ str "." ∧ s ≠ str "..") (hsegs : segs ≠ []) :
    referenceResolve dir (names ++ segs) = referenceResolve (dir ++ names) segs := by
  induction names generalizing dir with
  | nil => rw [List.append_nil]; rfl
  | cons s names ih =>
      obtain ⟨hdot, hdotdot⟩ := hnames s List.mem_cons_self
      have hne : names ++ segs ≠ [] := List.append_ne_nil_of_right_ne_nil _ hsegs
      rw [List.cons_append, referenceResolve_cons_of_ne _ _ hne, if_neg hdot, if_neg hdotdot,
        ih (dir ++ [s]) fun t ht => hnames t (List.mem_cons_of_mem s ht), List.append_assoc]
      rfl

/-- A plain name at the end of a link. -/
theorem referenceResolve_name (dir : List Bytes) {s : Bytes} (hs : s ≠ str "." ∧ s ≠ str "..") :
    referenceResolve dir [s] = some (withSlash dir ++ s) := by
  rw [referenceResolve_single, if_neg hs.1, if_neg hs.2]

theorem withSlash_segments (path : Bytes) : withSlash (segments path) = path ++ str "/" := by
  rcases List.eq_nil_or_concat' (segments path) with hnil | ⟨dir, s, hsegments⟩
  · exact absurd hnil (segments_ne_nil path)
  · have hjoin : (str "/").intercalate (segments path) = path := List.intercalate_splitOn (char '/')
    rw [hsegments, intercalate_concat] at hjoin
    rw [hsegments, withSlash_concat, hjoin]

/-! ## Links -/

/-- A segment that is read as it is. -/
def LinkName (s : Bytes) : Prop := s ≠ [] ∧ char '%' ∉ s ∧ char '?' ∉ s ∧ char '#' ∉ s

theorem linkName_dotdot : LinkName (str "..") := by
  refine ⟨?_, ?_, ?_, ?_⟩ <;> decide

theorem LinkPath.linkName {path s : Bytes} (h : LinkPath path) (hs : s ∈ segments (stem path)) :
    LinkName s := by
  have hmem {c : UInt8} (hc : c ≠ char '/') (hcs : c ∈ s) : c ∈ path := by
    have hstem : c ∈ stem path := (mem_segments_iff hc _).mpr ⟨s, hs, hcs⟩
    rcases stem_cases path with ⟨-, hpath⟩ | ⟨-, hpath⟩
    · exact hpath ▸ hstem
    · rw [hpath]
      exact List.mem_append_left _ hstem
  exact ⟨(h.plain s hs).1, fun hc => h.percent (hmem (by decide) hc),
    fun hc => h.query (hmem (by decide) hc), fun hc => h.fragment (hmem (by decide) hc)⟩

/-- A link of such segments, with a slash behind them or not. -/
theorem resolveLinkTarget_names {u z : Bytes} {names last : List Bytes} (hne : names ≠ [])
    (hnames : ∀ s ∈ names, LinkName s) (hlast : last = [] ∨ last = [[]])
    (hu : segments u = names ++ last) (hz : PlainDir (dirSegments z)) :
    resolveLinkTarget u z = outcome u (referenceResolve (dirSegments z) (names ++ last)) := by
  have hclean {c : UInt8} (hc : c ≠ char '/') (hnotMem : ∀ s ∈ names, c ∉ s) : c ∉ u := by
    intro hmem
    obtain ⟨s, hs, hcs⟩ := (mem_segments_iff hc u).mp hmem
    rw [hu] at hs
    rcases List.mem_append.mp hs with hs | hs
    · exact hnotMem s hs hcs
    · rcases hlast with rfl | rfl
      · exact List.not_mem_nil hs
      · rw [List.mem_singleton.mp hs] at hcs
        exact List.not_mem_nil hcs
  have hinner : ∀ s ∈ (names ++ last).dropLast, s ≠ [] := by
    intro s hs
    refine (hnames s ?_).1
    rcases hlast with rfl | rfl
    · exact List.dropLast_subset _ (List.append_nil names ▸ hs)
    · rwa [List.dropLast_concat] at hs
  obtain ⟨s, rest, rfl⟩ := List.exists_cons_of_ne_nil hne
  obtain ⟨c, tail, rfl, hc⟩ := exists_cons_of_segments hu (hnames s List.mem_cons_self).1
  have hsplit : (c :: tail).splitOn (char '/') = s :: rest ++ last := hu
  rw [resolveLinkTarget_relative (List.cons_ne_nil c tail)
      (hclean (by decide) fun s hs => (hnames s hs).2.2.1)
      (hclean (by decide) fun s hs => (hnames s hs).2.2.2)
      (fun h => hc (Option.some.inj h)),
    percentDecode_of_notMem (hclean (by decide) fun s hs => (hnames s hs).2.1),
    Held.ofText_of_ne hz.ne_two, hsplit]
  exact congrArg (outcome _) (hz.resolve (List.cons_ne_nil s _)
    (fun t ht => notMem_of_mem_splitOn (hsplit ▸ ht)) hinner)

/-- The path to a target with a slash is the one to its stem with a slash. -/
theorem segments_computeRelativePath_slash {basePath targetPath : Bytes}
    (htarget : PlainPath (stem targetPath)) (hne : basePath ≠ targetPath)
    (hlast : targetPath.getLast? = some (char '/')) :
    segments (computeRelativePath basePath targetPath) =
      segments (computeRelativePath basePath (stem targetPath)) ++ [[]] := by
  have hstem : stem targetPath = targetPath.dropLast := if_pos hlast
  have hpath : computeRelativePath basePath targetPath =
      computeRelativePath basePath (stem targetPath) ++ str "/" := by
    rw [computeRelativePath, if_pos hlast, if_neg hne, ← hstem, computeRelativePath,
      if_neg htarget.getLast?_ne]
  rw [hpath]
  exact segments_append _ []

/-- Behind the segments of a computed path an empty one stands for the slash of the
target. -/
theorem exists_last (basePath : Bytes) {targetPath : Bytes} (htarget : PlainPath (stem targetPath))
    (hne : basePath ≠ targetPath ∨ targetPath.getLast? ≠ some (char '/')) :
    ∃ last, segments (computeRelativePath basePath targetPath) =
        segments (computeRelativePath basePath (stem targetPath)) ++ last ∧
      (last = [] ∨ last = [[]]) ∧ stem targetPath ++ withSlash last = targetPath := by
  rcases stem_cases targetPath with ⟨hlast, hstem⟩ | ⟨hlast, hpath⟩
  · refine ⟨[], ?_, Or.inl rfl, ?_⟩
    · rw [hstem, List.append_nil]
    · rw [hstem, withSlash_nil, List.append_nil]
  · have hne' := hne.resolve_right (not_not_intro hlast)
    exact ⟨[[]], segments_computeRelativePath_slash htarget hne' hlast, Or.inr rfl, hpath.symm⟩

/-- A path with a slash behind it leads to itself. -/
theorem resolveLinkTarget_self {path : Bytes} (h : LinkPath path)
    (hlast : path.getLast? = some (char '/')) :
    resolveLinkTarget (computeRelativePath path path) path = .ok path := by
  have hpath : path = stem path ++ str "/" :=
    ((stem_cases path).resolve_left fun hstem => hstem.1 hlast).2
  have hself : computeRelativePath path path = str "./" := by
    rw [computeRelativePath, if_pos hlast, if_pos rfl]
  have hdot : LinkName (str ".") := by refine ⟨?_, ?_, ?_, ?_⟩ <;> decide
  have hnames : ∀ s ∈ [str "."], LinkName s := fun s hs => (List.mem_singleton.mp hs) ▸ hdot
  have hreference : referenceResolve (dirSegments path) ([str "."] ++ [[]]) = some path := by
    rw [List.singleton_append, referenceResolve_cons_cons, if_pos rfl,
      referenceResolve_name _ (by decide), dirSegments_of_slash hpath, withSlash_segments,
      List.append_nil, ← hpath]
  rw [hself, resolveLinkTarget_names (List.cons_ne_nil _ _) hnames (Or.inr rfl) (by decide)
    h.plainDir, hreference]
  rfl

/-- A path is not among its own directories. -/
theorem not_ancestor_self {path : Bytes} (hlast : path.getLast? ≠ some (char '/')) :
    ¬ Ancestor (stem path) path := by
  intro h
  have hstem : stem path = path := if_neg hlast
  have hle := h.length_le
  have hpos := List.length_pos_iff.mpr (segments_ne_nil path)
  rw [hstem, List.length_dropLast] at hle
  omega

/-- What a link makes of its target's stem. -/
theorem referenceResolve_stem {a own last : List Bytes} {path : Bytes} (hown : own ≠ [])
    (hplain : PlainPath path) (hsegments : a ++ own = segments path)
    (hlast : last = [] ∨ last = [[]]) :
    referenceResolve a (own ++ last) = some (path ++ withSlash last) := by
  have hname : ∀ s ∈ own, s ≠ str "." ∧ s ≠ str ".." := by
    intro s hs
    exact (hplain s (hsegments ▸ List.mem_append_right a hs)).2
  rcases hlast with rfl | rfl
  · obtain ⟨names, s, rfl⟩ := (List.eq_nil_or_concat' own).resolve_left hown
    have hjoin : withSlash (a ++ names) ++ s = path := by
      have hslash := withSlash_segments path
      rw [← hsegments, ← List.append_assoc, withSlash_concat] at hslash
      exact List.append_cancel_right hslash
    rw [List.append_nil, referenceResolve_names a
        (fun t ht => hname t (List.mem_append_left _ ht)) (List.cons_ne_nil s []),
      referenceResolve_name _ (hname s (List.mem_append_right _ List.mem_cons_self)), hjoin,
      withSlash_nil, List.append_nil]
  · rw [referenceResolve_names a hname (List.cons_ne_nil _ _), hsegments,
      referenceResolve_name _ (by decide), withSlash_segments, List.append_nil]
    rfl

/-- A computed path leads to its target, unless that is an ancestor of the base. -/
theorem resolveLinkTarget_computeRelativePath {basePath targetPath : Bytes}
    (hbase : LinkPath basePath) (htarget : LinkPath targetPath)
    (h : basePath = targetPath ∨ ¬ Ancestor (stem targetPath) basePath) :
    resolveLinkTarget (computeRelativePath basePath targetPath) basePath = .ok targetPath := by
  by_cases hself : basePath = targetPath ∧ targetPath.getLast? = some (char '/')
  · obtain ⟨rfl, hlast⟩ := hself
    exact resolveLinkTarget_self hbase hlast
  have hne : basePath ≠ targetPath ∨ targetPath.getLast? ≠ some (char '/') := not_and_or.mp hself
  have hancestor : ¬ Ancestor (stem targetPath) basePath := by
    rcases h with rfl | h
    · exact not_ancestor_self (hne.resolve_left (not_not_intro rfl))
    · exact h
  obtain ⟨last, hlink, hlast, htext⟩ := exists_last basePath htarget.plain hne
  have hshared : (dirSegments basePath).take (sharedDirs basePath (stem targetPath)) ++
      ownSegments basePath (stem targetPath) = segments (stem targetPath) := by
    have htake : (dirSegments basePath).take (sharedDirs basePath (stem targetPath)) =
        (segments (stem targetPath)).take (sharedDirs basePath (stem targetPath)) :=
      take_commonLength _ _
    rw [htake]
    exact List.take_append_drop ..
  have hown := ownSegments_ne_nil hancestor
  have hups : ((dirSegments basePath).drop (sharedDirs basePath (stem targetPath))).length =
      (segments basePath).length - 1 - sharedDirs basePath (stem targetPath) := by
    rw [List.length_drop]
    exact congrArg (· - _) List.length_dropLast
  have hreference : referenceResolve (dirSegments basePath)
      (segments (computeRelativePath basePath (stem targetPath)) ++ last) = some targetPath := by
    rw [segments_computeRelativePath htarget.plain hancestor, ← hups, List.append_assoc]
    nth_rewrite 1 [← List.take_append_drop (sharedDirs basePath (stem targetPath))
      (dirSegments basePath)]
    rw [referenceResolve_ups _ _ (List.append_ne_nil_of_left_ne_nil hown _),
      referenceResolve_stem hown htarget.plain hshared hlast, htext]
  rw [resolveLinkTarget_names (segments_ne_nil _) ?_ hlast hlink hbase.plainDir, hreference]
  · rfl
  · intro s hs
    rw [segments_computeRelativePath htarget.plain hancestor] at hs
    rcases List.mem_append.mp hs with hs | hs
    · rw [List.eq_of_mem_replicate hs]
      exact linkName_dotdot
    · exact htarget.linkName (List.mem_of_mem_drop hs)

/-- From a file to a directory beside its own. -/
theorem resolveLinkTarget_computeRelativePath_sample :
    resolveLinkTarget (computeRelativePath (str "dir/a/b") (str "dir/c/")) (str "dir/a/b") =
      .ok (str "dir/c/") :=
  resolveLinkTarget_computeRelativePath
    ⟨by decide, by decide, by decide, by decide⟩ ⟨by decide, by decide, by decide, by decide⟩
    (Or.inr (by decide))

/-! ## Ancestors -/

/-- The parent of a path is shorter. -/
theorem length_parent_lt {path : Bytes} (h : PlainPath path) :
    (withSlash (segments path).dropLast).length < path.length := by
  obtain ⟨dir, s, hsegments⟩ :=
    (List.eq_nil_or_concat' (segments path)).resolve_left (segments_ne_nil path)
  have hs : s ≠ [] := (h s (hsegments ▸ List.mem_append_right dir List.mem_cons_self)).1
  have hslash := withSlash_segments path
  rw [hsegments, withSlash_concat] at hslash
  rw [hsegments, List.dropLast_concat, ← List.append_cancel_right hslash, List.length_append]
  have hpos := List.length_pos_iff.mpr hs
  omega

/-- One level up. -/
theorem referenceResolve_parent {dir last : List Bytes} (hdir : dir ≠ [])
    (hlast : last = [] ∨ last = [[]]) :
    referenceResolve dir (str ".." :: last) = some (withSlash dir.dropLast) := by
  rcases hlast with rfl | rfl
  · rw [referenceResolve_single, if_neg dot_ne_dotdot, if_pos rfl, step_up hdir]
    rfl
  · rw [referenceResolve_cons_cons, if_neg dot_ne_dotdot, if_pos rfl, step_up hdir,
      Option.bind_some, referenceResolve_name _ (by decide), List.append_nil]

/-- To an ancestor a computed path leads no further than its parent. -/
theorem resolveLinkTarget_computeRelativePath_ancestor {basePath targetPath : Bytes}
    (hbase : LinkPath basePath) (htarget : LinkPath targetPath) (hne : basePath ≠ targetPath)
    (h : Ancestor (stem targetPath) basePath) :
    resolveLinkTarget (computeRelativePath basePath targetPath) basePath =
        .ok (withSlash (segments (stem targetPath)).dropLast) ∧
      resolveLinkTarget (computeRelativePath basePath targetPath) basePath ≠ .ok targetPath := by
  obtain ⟨last, hlink, hlast, htext⟩ := exists_last basePath htarget.plain (Or.inl hne)
  have hprefix : segments (stem targetPath) <+: dirSegments basePath := h
  obtain ⟨own, hown⟩ := hprefix
  have hups : (segments basePath).length - (segments (stem targetPath)).length =
      own.length + 1 := by
    have hlength := congrArg List.length hown
    have hpos := List.length_pos_iff.mpr (segments_ne_nil basePath)
    have hdir : (dirSegments basePath).length = (segments basePath).length - 1 :=
      List.length_dropLast
    rw [List.length_append, hdir] at hlength
    omega
  have hlinkSegments := segments_computeRelativePath_ancestor htarget.plain h
  have hreference : referenceResolve (dirSegments basePath)
      (segments (computeRelativePath basePath (stem targetPath)) ++ last) =
        some (withSlash (segments (stem targetPath)).dropLast) := by
    rw [hlinkSegments, hups, List.replicate_succ', List.append_assoc, List.singleton_append, ← hown,
      referenceResolve_ups _ _ (List.cons_ne_nil _ _)]
    exact referenceResolve_parent (segments_ne_nil _) hlast
  have hresult : resolveLinkTarget (computeRelativePath basePath targetPath) basePath =
      .ok (withSlash (segments (stem targetPath)).dropLast) := by
    rw [resolveLinkTarget_names (segments_ne_nil _) ?_ hlast hlink hbase.plainDir, hreference]
    · rfl
    · intro s hs
      rw [hlinkSegments] at hs
      rw [List.eq_of_mem_replicate hs]
      exact linkName_dotdot
  refine ⟨hresult, ?_⟩
  rw [hresult]
  intro heq
  have htarget' : withSlash (segments (stem targetPath)).dropLast = targetPath := Except.ok.inj heq
  have hlt := length_parent_lt htarget.plain
  have hlength := congrArg List.length htext
  rw [htarget'] at hlt
  rw [List.length_append] at hlength
  omega

/-- Two directories up from a file, where one would do. -/
theorem resolveLinkTarget_computeRelativePath_ancestor_sample :
    resolveLinkTarget (computeRelativePath (str "A/B/c/d") (str "A/B/")) (str "A/B/c/d") =
        .ok (withSlash (segments (stem (str "A/B/"))).dropLast) ∧
      resolveLinkTarget (computeRelativePath (str "A/B/c/d") (str "A/B/")) (str "A/B/c/d") ≠
        .ok (str "A/B/") :=
  resolveLinkTarget_computeRelativePath_ancestor
    ⟨by decide, by decide, by decide, by decide⟩ ⟨by decide, by decide, by decide, by decide⟩
    (by decide) (by decide)

/-- The entry `A/B` redirected to `A/`: the path is `../`, and that is the root. -/
theorem resolveLinkTarget_dir_misses :
    (LinkPath (str "A/B") ∧ LinkPath (str "A/") ∧ str "A/B" ≠ str "A/" ∧
        Ancestor (stem (str "A/")) (str "A/B")) ∧
      computeRelativePath (str "A/B") (str "A/") = str "../" ∧
      resolveLinkTarget (computeRelativePath (str "A/B") (str "A/")) (str "A/B") = .ok [] ∧
      resolveLinkTarget (computeRelativePath (str "A/B") (str "A/")) (str "A/B") ≠
        .ok (str "A/") := by
  refine ⟨⟨⟨?_, ?_, ?_, ?_⟩, ⟨?_, ?_, ?_, ?_⟩, ?_, ?_⟩, ?_, ?_, ?_⟩ <;> decide

end ZimTools
