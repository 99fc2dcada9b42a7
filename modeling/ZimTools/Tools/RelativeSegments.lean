import Mathlib.Data.List.Induction
import ZimTools.Lib.DotSegments
import ZimTools.Tools.RelativePath

/-!
# The segments of a relative path

The path from an entry to another goes up once for each directory of the first
that it does not share with the second, and then down the segments of the second
behind the shared ones.
-/

namespace ZimTools

open Bytes DotSegments

def segments (path : Bytes) : List Bytes := split path (char '/')

/-- A path without an empty segment and without dot segments. -/
def PlainPath (path : Bytes) : Prop :=
  ∀ s ∈ segments path, s ≠ [] ∧ s ≠ str "." ∧ s ≠ str ".."

instance (path : Bytes) : Decidable (PlainPath path) :=
  inferInstanceAs (Decidable (∀ s ∈ segments path, _))

/-- One entry is in a directory with the path of the other. -/
def Ancestor (path descendant : Bytes) : Prop :=
  segments path <+: (segments descendant).dropLast

instance (path descendant : Bytes) : Decidable (Ancestor path descendant) :=
  inferInstanceAs (Decidable (_ <+: _))

/-- How many directories of an entry are also on the way to another. -/
def sharedDirs (basePath targetPath : Bytes) : Nat :=
  commonLength (segments basePath).dropLast (segments targetPath)

/-- The segments of an entry behind the directories that it shares. -/
def ownSegments (basePath targetPath : Bytes) : List Bytes :=
  (segments targetPath).drop (sharedDirs basePath targetPath)

/-! ## Segments -/

theorem segments_ne_nil (path : Bytes) : segments path ≠ [] := List.splitOn_ne_nil _ _

theorem segments_of_notMem {s : Bytes} (h : char '/' ∉ s) : segments s = [s] :=
  List.splitOn_eq_singleton h

theorem segments_append (a b : Bytes) :
    segments (a ++ char '/' :: b) = segments a ++ segments b :=
  List.splitOn_append_cons_self ..

theorem segments_injective : Function.Injective segments := fun a b h => by
  have hjoined (s : Bytes) : [char '/'].intercalate (s.splitOn (char '/')) = s :=
    List.intercalate_splitOn (char '/')
  rw [← hjoined a, ← hjoined b]
  exact congrArg _ h

/-- The first byte of a path is that of its first segment. -/
theorem segments_cons {c : UInt8} (hc : c ≠ char '/') (path : Bytes) :
    ∃ s segs, segments (c :: path) = (c :: s) :: segs := by
  obtain ⟨s, segs, hpath⟩ := List.exists_cons_of_ne_nil (segments_ne_nil path)
  refine ⟨s, segs, ?_⟩
  rw [segments, split, List.splitOn_cons_eq_if_modifyHead, if_neg (by simpa using hc)]
  exact congrArg (List.modifyHead (List.cons c)) hpath

/-- Text without slashes goes to the last segment. -/
theorem segments_append_of_notMem {s : Bytes} (hs : char '/' ∉ s) (a : Bytes) :
    segments (a ++ s) =
      (segments a).dropLast ++ [(segments a).getLast (segments_ne_nil a) ++ s] := by
  rcases last_split (str "/") a with hnone | ⟨b, c, t, rfl, hc, ht⟩
  · have ha : char '/' ∉ a := fun hmem => hnone _ hmem (by decide)
    have has : char '/' ∉ a ++ s := fun hmem => (List.mem_append.mp hmem).elim ha hs
    simp only [segments_of_notMem ha, segments_of_notMem has, List.dropLast_singleton,
      List.getLast_singleton, List.nil_append]
  · obtain rfl : c = char '/' := by simpa [str] using hc
    have ht : char '/' ∉ t := fun hmem => ht _ hmem (by decide)
    have hts : char '/' ∉ t ++ s := fun hmem => (List.mem_append.mp hmem).elim ht hs
    rw [List.append_assoc, List.cons_append]
    simp only [segments_append, segments_of_notMem ht, segments_of_notMem hts,
      List.dropLast_concat, List.getLast_concat]

/-- The bytes of a path other than its slashes are those of its segments. -/
theorem mem_segments_iff {c : UInt8} (hc : c ≠ char '/') (path : Bytes) :
    c ∈ path ↔ ∃ s ∈ segments path, c ∈ s := by
  rcases mem_split (char '/') path with hslash | ⟨a, b, hpath, ha⟩
  · simp [segments_of_notMem hslash]
  · have hlt : b.length < path.length := by
      rw [hpath, List.length_append, List.length_cons]
      omega
    have ih := mem_segments_iff hc b
    rw [hpath, segments_append, segments_of_notMem ha, List.singleton_append, List.mem_append,
      List.mem_cons, ih, List.exists_mem_cons_iff]
    simp [hc]
termination_by path.length

/-- The segments of a path whose slashes are kept and where no others come in. -/
theorem segments_flatMap {f : UInt8 → Bytes} (hslash : f (char '/') = [char '/'])
    (hother : ∀ c, c ≠ char '/' → char '/' ∉ f c) (path : Bytes) :
    segments (path.flatMap f) = (segments path).map (·.flatMap f) := by
  have hpiece {a : Bytes} (ha : char '/' ∉ a) : char '/' ∉ a.flatMap f := by
    intro hmem
    obtain ⟨c, hc, hcf⟩ := List.mem_flatMap.mp hmem
    exact hother c (fun heq => ha (heq ▸ hc)) hcf
  rcases mem_split (char '/') path with hnone | ⟨a, b, hpath, ha⟩
  · rw [segments_of_notMem hnone, segments_of_notMem (hpiece hnone)]
    rfl
  · have hlt : b.length < path.length := by
      rw [hpath, List.length_append, List.length_cons]
      omega
    have ih := segments_flatMap hslash hother b
    rw [hpath, List.flatMap_append, List.flatMap_cons, hslash, List.singleton_append, segments_append,
      segments_append, segments_of_notMem ha, segments_of_notMem (hpiece ha), ih, List.map_append]
    rfl
termination_by path.length

/-! ## Common segments -/

theorem commonLength_le_left : ∀ xs ys : List Bytes, commonLength xs ys ≤ xs.length
  | [], ys => by simp [commonLength]
  | x :: xs, [] => by simp [commonLength]
  | x :: xs, y :: ys => by
      rw [commonLength]
      split
      · exact Nat.succ_le_succ (commonLength_le_left xs ys)
      · exact Nat.zero_le _

theorem take_commonLength : ∀ xs ys : List Bytes,
    xs.take (commonLength xs ys) = ys.take (commonLength xs ys)
  | [], ys => by simp [commonLength]
  | x :: xs, [] => by simp [commonLength]
  | x :: xs, y :: ys => by
      rw [commonLength]
      split
      · next h => rw [List.take_succ_cons, List.take_succ_cons, h, take_commonLength xs ys]
      · rfl

theorem commonLength_append : ∀ xs ys : List Bytes, commonLength xs (xs ++ ys) = xs.length
  | [], ys => by simp [commonLength]
  | x :: xs, ys => by
      rw [List.cons_append, commonLength, if_pos rfl, commonLength_append xs ys]
      rfl

/-- Segments behind as many as the other path has are not looked at. -/
theorem commonLength_take : ∀ xs ys : List Bytes,
    commonLength (xs.take ys.length) ys = commonLength xs ys
  | [], ys => by simp [commonLength]
  | x :: xs, [] => by simp [commonLength]
  | x :: xs, y :: ys => by
      rw [List.length_cons, List.take_succ_cons, commonLength, commonLength, commonLength_take]

theorem commonLength_of_prefix : ∀ {xs ys : List Bytes}, ys <+: xs → commonLength xs ys = ys.length
  | [], ys, h => by
      rw [List.prefix_nil.mp h]
      rfl
  | x :: xs, [], _ => rfl
  | x :: xs, y :: ys, h => by
      obtain ⟨heq, htail⟩ := List.cons_prefix_cons.mp h
      rw [commonLength, if_pos heq.symm, commonLength_of_prefix htail]
      rfl

theorem ownSegments_ne_nil {basePath targetPath : Bytes}
    (h : ¬ Ancestor targetPath basePath) : ownSegments basePath targetPath ≠ [] := by
  intro hnil
  refine h ?_
  have hle := List.drop_eq_nil_iff.mp hnil
  have htake : (segments basePath).dropLast.take (sharedDirs basePath targetPath) =
      (segments targetPath).take (sharedDirs basePath targetPath) := take_commonLength _ _
  rw [List.take_of_length_le hle] at htake
  rw [Ancestor, ← htake]
  exact List.take_prefix ..

/-! ## Joining segments -/

/-- The segments of a path that `appendSegment` has put together. -/
theorem segments_foldl_appendSegment {segs : List Bytes} (hne : segs ≠ [])
    (hsegs : ∀ s ∈ segs, s ≠ [] ∧ char '/' ∉ s) :
    segments (segs.foldl appendSegment []) = segs ∧ segs.foldl appendSegment [] ≠ [] ∧
      (segs.foldl appendSegment []).getLast? ≠ some (char '/') := by
  induction segs using List.reverseRecOn with
  | nil => exact absurd rfl hne
  | append_singleton segs s ih =>
      obtain ⟨hs, hslash⟩ := hsegs s (List.mem_append_right _ (List.mem_singleton_self s))
      have hlast (r : Bytes) : (r ++ s).getLast? ≠ some (char '/') := by
        rw [List.getLast?_append_of_ne_nil _ hs]
        intro h
        exact hslash (List.mem_of_getLast? h)
      have hsingle := segments_of_notMem hslash
      rw [List.foldl_concat]
      by_cases hnil : segs = []
      · subst hnil
        exact ⟨hsingle, hs, hlast []⟩
      · obtain ⟨ihsegs, ihne, ihlast⟩ := ih hnil fun t ht => hsegs t (List.mem_append_left _ ht)
        have hjoin : appendSegment (segs.foldl appendSegment []) s =
            segs.foldl appendSegment [] ++ char '/' :: s := by
          rw [appendSegment, if_pos ⟨ihne, ihlast⟩, List.append_assoc]
          rfl
        rw [hjoin]
        refine ⟨?_, List.append_ne_nil_of_right_ne_nil _ (List.cons_ne_nil _ _), ?_⟩
        · rw [segments_append, ihsegs, hsingle]
        · rw [List.append_cons]
          exact hlast _

theorem PlainPath.getLast?_ne {path : Bytes} (h : PlainPath path) :
    path.getLast? ≠ some (char '/') := by
  intro hlast
  obtain ⟨a, rfl⟩ := List.getLast?_eq_some_iff.mp hlast
  refine (h [] ?_).1 rfl
  rw [segments_append]
  exact List.mem_append_right _ (List.mem_singleton_self _)

theorem PlainPath.mem_ownSegments {basePath targetPath s : Bytes} (h : PlainPath targetPath)
    (hs : s ∈ ownSegments basePath targetPath) :
    (s ≠ [] ∧ s ≠ str "." ∧ s ≠ str "..") ∧ char '/' ∉ s :=
  ⟨h s (List.mem_of_mem_drop hs), notMem_of_mem_splitOn (List.mem_of_mem_drop hs)⟩

theorem sharedDirs_eq (basePath targetPath : Bytes) :
    commonLength ((segments basePath).take
      (min ((segments basePath).length - 1) (segments targetPath).length)) (segments targetPath) =
      sharedDirs basePath targetPath := by
  rw [Nat.min_comm, ← List.take_take, commonLength_take, ← List.dropLast_eq_take]
  rfl

/-- The segments that are put together. -/
theorem computeRelativePath_eq {basePath targetPath : Bytes}
    (hlast : targetPath.getLast? ≠ some (char '/')) :
    computeRelativePath basePath targetPath =
      (List.replicate ((segments basePath).length - sharedDirs basePath targetPath +
        (if sharedDirs basePath targetPath = (segments targetPath).length then 1 else 0) - 1)
        (str "..") ++ ownSegments basePath targetPath).foldl appendSegment [] := by
  rw [computeRelativePath, if_neg hlast, getRelativePath]
  rw [← segments, ← segments, sharedDirs_eq]
  rfl

/-- The path to an entry that is no ancestor. -/
theorem segments_computeRelativePath {basePath targetPath : Bytes} (htarget : PlainPath targetPath)
    (hancestor : ¬ Ancestor targetPath basePath) :
    segments (computeRelativePath basePath targetPath) =
      List.replicate ((segments basePath).length - 1 - sharedDirs basePath targetPath) (str "..") ++
        ownSegments basePath targetPath := by
  have hne := ownSegments_ne_nil hancestor
  have hshared : sharedDirs basePath targetPath ≠ (segments targetPath).length := by
    intro h
    exact hne (List.drop_eq_nil_iff.mpr (Nat.le_of_eq h.symm))
  have hups : ((segments basePath).length - sharedDirs basePath targetPath) - 1 =
      (segments basePath).length - 1 - sharedDirs basePath targetPath := Nat.sub_right_comm ..
  rw [computeRelativePath_eq htarget.getLast?_ne, if_neg hshared, Nat.add_zero, hups]
  refine (segments_foldl_appendSegment (List.append_ne_nil_of_right_ne_nil _ hne)
    fun s hs => ?_).1
  rcases List.mem_append.mp hs with hs | hs
  · rw [List.eq_of_mem_replicate hs]
    exact ⟨by decide, by decide⟩
  · obtain ⟨⟨hnil, -⟩, hslash⟩ := htarget.mem_ownSegments hs
    exact ⟨hnil, hslash⟩

/-- The path to an ancestor goes up once more than to an entry beside it. -/
theorem segments_computeRelativePath_ancestor {basePath targetPath : Bytes}
    (htarget : PlainPath targetPath) (hancestor : Ancestor targetPath basePath) :
    segments (computeRelativePath basePath targetPath) =
      List.replicate ((segments basePath).length - (segments targetPath).length) (str "..") := by
  have hshared : sharedDirs basePath targetPath = (segments targetPath).length :=
    commonLength_of_prefix hancestor
  have hle := hancestor.length_le
  have hpos := List.length_pos_iff.mpr (segments_ne_nil targetPath)
  rw [List.length_dropLast] at hle
  have hups : (segments basePath).length - (segments targetPath).length ≠ 0 := by omega
  rw [computeRelativePath_eq htarget.getLast?_ne, ownSegments, hshared, if_pos rfl,
    Nat.add_sub_cancel, List.drop_length, List.append_nil]
  refine (segments_foldl_appendSegment ?_ fun s hs => ?_).1
  · intro h
    exact hups ((List.length_replicate ..).symm.trans (congrArg List.length h))
  · rw [List.eq_of_mem_replicate hs]
    exact ⟨by decide, by decide⟩

/-- A path with a first segment does not begin with a slash. -/
theorem exists_cons_of_segments {path s : Bytes} {segs : List Bytes}
    (hpath : segments path = s :: segs) (hs : s ≠ []) :
    ∃ c rest, path = c :: rest ∧ c ≠ char '/' := by
  cases path with
  | nil =>
      have hnil : [] = s := (List.cons.inj hpath).1
      exact absurd hnil.symm hs
  | cons c rest =>
      refine ⟨c, rest, rfl, ?_⟩
      rintro rfl
      have hnil : [[]] ++ segments rest = s :: segs := (segments_append [] rest).symm.trans hpath
      exact absurd (List.cons.inj hnil).1.symm hs

end ZimTools
