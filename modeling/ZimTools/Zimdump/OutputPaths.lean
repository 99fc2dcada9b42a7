import ZimTools.Zimdump.RedirectLinks

/-!
# The output paths of a dump

`dumpFiles` computes a path for each entry, and writes the entry there
(`placed_output`).  A file name beyond 255 bytes is cut, and a number is
appended that counts these names.  So a path is computed twice exactly when an
entry has the path that another one is shortened to, or the counter has come to
a number again (`outputs_distinct_iff`).
-/

namespace ZimTools.Zimdump

open Bytes Dump

/-! ## The paths -/

/-- The directory part and the file name for each path, from the counter on. -/
def outputsFrom (truncatedFiles : Nat) : List Bytes → List (Bytes × Bytes)
  | [] => []
  | path :: paths =>
      let (dir, filename) := splitPath path
      let (filename, count) := truncated filename truncatedFiles
      (dir, filename) :: outputsFrom count paths

def outputs (paths : List Bytes) : List (Bytes × Bytes) := outputsFrom 0 paths

def joined (output : Bytes × Bytes) : Bytes := output.1 ++ output.2

/-- The counter behind some paths. -/
def countAfter (truncatedFiles : Nat) (paths : List Bytes) : Nat :=
  paths.foldl (fun n path => (truncated (splitPath path).2 n).2) truncatedFiles

theorem outputsFrom_cons (n : Nat) (path : Bytes) (paths : List Bytes) :
    outputsFrom n (path :: paths) =
      ((splitPath path).1, (truncated (splitPath path).2 n).1) ::
        outputsFrom (truncated (splitPath path).2 n).2 paths := rfl

theorem outputsFrom_append (n : Nat) (a b : List Bytes) :
    outputsFrom n (a ++ b) = outputsFrom n a ++ outputsFrom (countAfter n a) b := by
  induction a generalizing n with
  | nil => rfl
  | cons path a ih =>
      rw [List.cons_append, outputsFrom_cons, outputsFrom_cons, ih]
      rfl

theorem length_outputsFrom (n : Nat) (paths : List Bytes) :
    (outputsFrom n paths).length = paths.length := by
  induction paths generalizing n with
  | nil => rfl
  | cons path paths ih => rw [outputsFrom_cons, List.length_cons, ih, List.length_cons]

/-! ## The run -/

section

variable {fs : FileSystem} {directory : Bytes} {symlinkdump : Bool} {nsfilter : UInt8 → Bool}

theorem truncatedFiles_writeToErrorDirectory (base relpath content : Bytes) (d : Dump) :
    (writeToErrorDirectory fs base relpath content d).truncatedFiles = d.truncatedFiles := by
  obtain ⟨events, hcreate⟩ := createdir_keeps fs (str "_exceptions/") base d
  rw [writeToErrorDirectory, hcreate]
  split
  · rfl
  · rfl

theorem truncatedFiles_writeToFile (base path data : Bytes) (d : Dump) :
    (writeToFile fs base path data d).truncatedFiles = d.truncatedFiles := by
  rw [writeToFile]
  split
  · rfl
  · exact truncatedFiles_writeToErrorDirectory ..

theorem truncatedFiles_writeEntry (entry : Entry) (relativePath : Bytes) (d : Dump) :
    (writeEntry fs directory symlinkdump entry relativePath d).truncatedFiles =
      d.truncatedFiles := by
  rw [writeEntry]
  cases entry.kind with
  | item data => exact truncatedFiles_writeToFile ..
  | redirect target mimetype =>
      dsimp only
      split
      · exact truncatedFiles_writeToFile ..
      · split <;> rfl

theorem truncatedFiles_dumpEntry {d : Dump} (h : d.error = none) (entry : Entry) :
    (dumpEntry fs directory symlinkdump d entry).truncatedFiles =
      (truncated (splitPath entry.path).2 d.truncatedFiles).2 := by
  have hnone : ¬ (none : Option Bytes).isSome = true := Bool.false_ne_true
  rw [dumpEntry, h, if_neg hnone, truncatedFiles_writeEntry, (createDirsOnce_keeps ..).1]

/-- An error stays. -/
theorem error_foldl {d : Dump} {message : Bytes} (h : d.error = some message)
    (entries : List Entry) :
    (entries.foldl (dumpEntry fs directory symlinkdump) d).error = some message := by
  induction entries generalizing d with
  | nil => exact h
  | cons entry entries ih =>
      rw [List.foldl_cons]
      refine ih ?_
      rw [dumpEntry, h]
      exact h

/-- As long as no entry has failed, the counter counts their long names. -/
theorem truncatedFiles_foldl {entries : List Entry} {d : Dump}
    (h : (entries.foldl (dumpEntry fs directory symlinkdump) d).error = none) :
    (entries.foldl (dumpEntry fs directory symlinkdump) d).truncatedFiles =
      countAfter d.truncatedFiles (entries.map Entry.path) := by
  induction entries generalizing d with
  | nil => rfl
  | cons entry entries ih =>
      cases herror : d.error with
      | some message =>
          rw [error_foldl herror] at h
          cases h
      | none =>
          rw [List.foldl_cons] at h ⊢
          rw [ih h, truncatedFiles_dumpEntry herror]
          rfl

/-- What is computed for an entry is the output of its path. -/
theorem placed_output {entries : List Entry} {entry : Entry} {relativePath : Bytes}
    (h : Placed fs directory symlinkdump nsfilter entries entry relativePath) :
    ∃ before after, entries = before ++ entry :: after ∧
      ((outputs (entries.map Entry.path)).map joined)[before.length]? = some relativePath := by
  obtain ⟨before, after, rfl, herror, rfl⟩ := h
  refine ⟨before, after, rfl, ?_⟩
  have hcount : (dumpFiles fs directory symlinkdump nsfilter before).truncatedFiles =
      countAfter 0 (before.map Entry.path) := truncatedFiles_foldl herror
  have hlength : before.length = (outputsFrom 0 (before.map Entry.path)).length := by
    rw [length_outputsFrom, List.length_map]
  rw [outputs, List.map_append, List.map_cons, outputsFrom_append, outputsFrom, hlength,
    List.getElem?_map, List.getElem?_append_right (Nat.le_refl _), Nat.sub_self,
    List.getElem?_cons_zero, Option.map_some, relativePath, hcount]
  rfl

end

/-! ## Shortened names -/

def isLong (path : Bytes) : Bool := (splitPath path).2.length > 255

/-- The paths whose file names are cut. -/
def longPaths (paths : List Bytes) : List Bytes := paths.filter isLong

/-- The number for a long path behind `k` others. -/
def number (k : Nat) : Nat := (k + 1) % UInt32.size

/-- What is kept of a file name in front of a number. -/
def keptPart (path : Bytes) (n : Nat) : Bytes :=
  (splitPath path).2.take (254 - (decimal n).length)

/-- What a long path with a number is shortened to. -/
def shortened (path : Bytes) (n : Nat) : Bytes × Bytes :=
  ((splitPath path).1, keptPart path n ++ str "~" ++ decimal n)

theorem length_decimal_number (k : Nat) : (decimal (number k)).length ≤ 10 :=
  length_counter_le (k + 1)

theorem outputsFrom_long {path : Bytes} (h : isLong path = true) (n : Nat) (paths : List Bytes) :
    outputsFrom (n % UInt32.size) (path :: paths) =
      shortened path (number n) :: outputsFrom (number n) paths := by
  have htruncated : truncated (splitPath path).2 (n % UInt32.size) =
      (keptPart path ((n % UInt32.size + 1) % UInt32.size) ++ str "~" ++
        decimal ((n % UInt32.size + 1) % UInt32.size), (n % UInt32.size + 1) % UInt32.size) :=
    if_pos (of_decide_eq_true h)
  rw [outputsFrom_cons, htruncated, Nat.mod_add_mod]
  rfl

theorem outputsFrom_short {path : Bytes} (h : isLong path = false) (n : Nat) (paths : List Bytes) :
    outputsFrom n (path :: paths) = splitPath path :: outputsFrom n paths := by
  have htruncated : truncated (splitPath path).2 n = ((splitPath path).2, n) :=
    if_neg (of_decide_eq_false h)
  rw [outputsFrom_cons, htruncated]

/-- The outputs are those of the short paths, as they are, and those of the long
ones. -/
theorem outputsFrom_perm (n : Nat) (paths : List Bytes) :
    (outputsFrom (n % UInt32.size) paths).Perm
      ((paths.filter fun path => !isLong path).map splitPath ++
        ((longPaths paths).zipIdx n).map fun p => shortened p.1 (number p.2)) := by
  induction paths generalizing n with
  | nil => exact List.Perm.refl _
  | cons path paths ih =>
      cases h : isLong path with
      | true =>
          have hlong : longPaths (path :: paths) = path :: longPaths paths :=
            List.filter_cons_of_pos h
          have hshort : (path :: paths).filter (fun path => !isLong path) =
              paths.filter fun path => !isLong path := List.filter_cons_of_neg (by simp [h])
          rw [outputsFrom_long h, hlong, hshort, List.zipIdx_cons, List.map_cons]
          exact ((ih (n + 1)).cons _).trans List.perm_middle.symm
      | false =>
          have hlong : longPaths (path :: paths) = longPaths paths :=
            List.filter_cons_of_neg (by simp [h])
          have hshort : (path :: paths).filter (fun path => !isLong path) =
              path :: paths.filter fun path => !isLong path :=
            List.filter_cons_of_pos (by simp [h])
          rw [outputsFrom_short h, hlong, hshort, List.map_cons, List.cons_append]
          exact (ih n).cons _

theorem joined_splitPath (path : Bytes) : joined (splitPath path) = path :=
  (splitPath_spec path).1.symm

/-- A path is told by its directory part and its file name. -/
theorem splitPath_joined {path name : Bytes} (h : char '/' ∉ name) :
    splitPath ((splitPath path).1 ++ name) = ((splitPath path).1, name) := by
  have hclean : ∀ x ∈ name, x ∉ str "/" := by
    intro x hx hmem
    rw [List.mem_singleton.mp hmem] at hx
    exact h hx
  rcases (splitPath_spec path).2.2 with hdir | ⟨pre, hdir⟩
  · rw [hdir, List.nil_append, splitPath, findLastOf_eq_none hclean]
  · rw [hdir, List.append_assoc, List.singleton_append, splitPath,
      findLastOf_append_cons pre (by decide) hclean]
    simp [substr, List.take_append, List.drop_append, List.take_of_length_le]

theorem slash_notMem_shortened (path : Bytes) (n : Nat) : char '/' ∉ (shortened path n).2 := by
  intro hmem
  rcases List.mem_append.mp hmem with hmem | hmem
  · rcases List.mem_append.mp hmem with hmem | hmem
    · exact (splitPath_spec path).2.1 (List.mem_of_mem_take hmem)
    · exact absurd hmem (by decide)
  · exact absurd (mem_decimal hmem).1 (by decide)

theorem splitPath_shortened (path : Bytes) (n : Nat) :
    splitPath (joined (shortened path n)) = shortened path n :=
  splitPath_joined (slash_notMem_shortened path n)

theorem not_isLong_shortened (path : Bytes) (k : Nat) :
    isLong (joined (shortened path (number k))) = false := by
  have hdigits := length_decimal_number k
  have htilde : (str "~").length = 1 := rfl
  rw [isLong, splitPath_shortened]
  simp only [shortened, keptPart, List.length_append, List.length_take, htilde]
  exact decide_eq_false (by omega)

theorem tilde_notMem_decimal (n : Nat) : char '~' ∉ decimal n := fun hmem =>
  absurd (mem_decimal hmem).2 (by decide)

/-- Two shortened names with a tilde at one place have one number. -/
theorem shortened_inj {p q : Bytes} {j k : Nat} :
    joined (shortened p (number j)) = joined (shortened q (number k)) ↔
      number j = number k ∧ (splitPath p).1 = (splitPath q).1 ∧
        keptPart p (number j) = keptPart q (number j) := by
  constructor
  · intro h
    have hsplit := congrArg splitPath h
    rw [splitPath_shortened, splitPath_shortened] at hsplit
    obtain ⟨hdir, hname⟩ := Prod.mk.inj hsplit
    have hlast (path : Bytes) (n : Nat) : findLastOf (keptPart path n ++ str "~" ++ decimal n)
        (str "~") = some (keptPart path n).length := by
      rw [List.append_assoc]
      refine findLastOf_append_cons _ (List.mem_singleton_self _) fun x hx hmem => ?_
      rw [List.mem_singleton.mp hmem] at hx
      exact tilde_notMem_decimal n hx
    have hplace := congrArg (findLastOf · (str "~")) hname
    simp only [hlast, Option.some.injEq] at hplace
    obtain ⟨hkept, hdigits⟩ := List.append_inj hname (by
      rw [List.length_append, List.length_append, hplace])
    have hnumber := decimal_injective hdigits
    rw [← hnumber] at hkept
    exact ⟨hnumber, hdir, List.append_cancel_right hkept⟩
  · rintro ⟨hnumber, hdir, hkept⟩
    rw [← hnumber, joined, joined, shortened, shortened, hdir, hkept]

/-- No entry has a path that another one is shortened to, and no two long paths
with one number agree in the directory and in what is kept of the file name.  The
first number to come again is that of the long path with the index 2^32. -/
structure Unambiguous (paths : List Bytes) : Prop where
  free : ∀ p ∈ (longPaths paths).zipIdx, joined (shortened p.1 (number p.2)) ∉ paths
  wrapped : (longPaths paths).zipIdx.Pairwise fun p q => number p.2 = number q.2 →
    (splitPath p.1).1 = (splitPath q.1).1 → keptPart p.1 (number p.2) ≠ keptPart q.1 (number p.2)

theorem nodup_outputs_iff {paths : List Bytes} (h : paths.Nodup) :
    ((outputs paths).map joined).Nodup ↔ Unambiguous paths := by
  have hperm := (outputsFrom_perm 0 paths).map joined
  rw [Nat.zero_mod] at hperm
  rw [outputs, hperm.nodup_iff, List.map_append, List.map_map, List.map_map, List.nodup_append]
  have hshort : (paths.filter fun path => !isLong path).map (joined ∘ splitPath) =
      paths.filter fun path => !isLong path :=
    (List.map_congr_left fun path _ => joined_splitPath path).trans (List.map_id _)
  rw [hshort]
  constructor
  · rintro ⟨-, hlong, hdisjoint⟩
    refine ⟨fun p hp hmem => ?_, ?_⟩
    · have hp' := List.mem_map_of_mem (f := joined ∘ fun p => shortened p.1 (number p.2)) hp
      exact hdisjoint _ (List.mem_filter.mpr ⟨hmem, by simp [not_isLong_shortened]⟩) _ hp' rfl
    · refine (List.pairwise_map.mp hlong).imp fun hne hnumber hdir hkept => ?_
      exact hne (shortened_inj.mpr ⟨hnumber, hdir, hkept⟩)
  · rintro ⟨hfree, hwrapped⟩
    refine ⟨h.filter _, List.pairwise_map.mpr ?_, fun path hpath path' hpath' heq => ?_⟩
    · refine hwrapped.imp fun hne heq => ?_
      obtain ⟨hnumber, hdir, hkept⟩ := shortened_inj.mp heq
      exact hne hnumber hdir hkept
    · obtain ⟨p, hp, rfl⟩ := List.mem_map.mp hpath'
      obtain rfl : path = joined (shortened p.1 (number p.2)) := heq
      exact hfree p hp (List.mem_of_mem_filter hpath)

theorem length_outputs_le (n : Nat) (paths : List Bytes) :
    ∀ o ∈ outputsFrom n paths, o.2.length ≤ 255 := by
  induction paths generalizing n with
  | nil => exact fun o ho => absurd ho List.not_mem_nil
  | cons path paths ih =>
      intro o ho
      rcases List.mem_cons.mp ho with rfl | ho
      · exact length_truncated_le (splitPath path).2 n
      · exact ih _ o ho

/-- For distinct paths the output paths are distinct, with file names of at most
255 bytes, exactly when no path is one that another is shortened to and no number
that came again is in the way. -/
theorem outputs_distinct_iff {paths : List Bytes} (h : paths.Nodup) :
    (((outputs paths).map joined).Nodup ∧ ∀ o ∈ outputs paths, o.2.length ≤ 255) ↔
      Unambiguous paths :=
  (and_iff_left (length_outputs_le 0 paths)).trans (nodup_outputs_iff h)

/-- A long path and a short one. -/
theorem outputs_distinct_sample :
    ((outputs [longName, str "b"]).map joined).Nodup ∧
      ∀ o ∈ outputs [longName, str "b"], o.2.length ≤ 255 :=
  (outputs_distinct_iff (show [longName, str "b"].Nodup by decide)).mpr
    ⟨by decide +kernel, by decide +kernel⟩

/-- A path that the long one is shortened to. -/
def takenPath : Bytes := List.replicate 253 (char 'a') ++ str "~1"

/-- Both entries are written to one file. -/
theorem outputs_collide :
    [longName, takenPath].Nodup ∧ ¬ ((outputs [longName, takenPath]).map joined).Nodup := by
  have houtputs : (outputs [longName, takenPath]).map joined = [takenPath, takenPath] := by
    decide +kernel
  refine ⟨by decide +kernel, ?_⟩
  rw [houtputs]
  exact fun h => (List.nodup_cons.mp h).1 (List.mem_singleton_self _)

/-- The numbers of fewer than 2^32 long paths are different. -/
theorem unambiguous_iff_of_lt {paths : List Bytes}
    (h : (longPaths paths).length < UInt32.size) :
    Unambiguous paths ↔
      ∀ p ∈ (longPaths paths).zipIdx, joined (shortened p.1 (number p.2)) ∉ paths := by
  refine ⟨Unambiguous.free, fun hfree => ⟨hfree, ?_⟩⟩
  rw [List.pairwise_iff_getElem]
  intro i j hi hj hij hnumber
  rw [List.length_zipIdx] at hi hj
  rw [List.getElem_zipIdx, List.getElem_zipIdx, number, number, Nat.mod_eq_of_lt (by omega),
    Nat.mod_eq_of_lt (by omega)] at hnumber
  omega

end ZimTools.Zimdump
