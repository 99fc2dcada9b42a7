import Mathlib.Data.List.Perm.Basic
import ZimTools.Lib.DotSegments
import ZimTools.Zimdump.DumpFiles

/-!
# Where a dump writes

A path is read lexically, as moves from the root or from the current directory.
What is created for an entry is to lie inside the output directory.  A call at
the output directory itself, or at a directory above it, creates nothing: these
exist.

Of all other calls of a dump, every one is inside the output directory exactly
when no entry path names a segment while it has gone up more often than down
(`dump_contained_iff`).  Each call for an entry whose path descends is at such a
path itself (`below_dumpEntry`), and for any other entry there is a call at a
name that lies above the output directory (`exists_call_outside`).
-/

namespace ZimTools.Zimdump

open DotSegments

/-! ## Lexical paths -/

/-- The move of a segment. -/
def segmentMove (s : Bytes) : Move Bytes :=
  if s = [] ∨ s = str "." then .stay else if s = str ".." then .up else .down s

def pathMoves (path : Bytes) : List (Move Bytes) := (path.splitOn (char '/')).map segmentMove

def locate (path : Bytes) : Location Bytes :=
  Location.walk ⟨path.head? == some (char '/'), 0, []⟩ (pathMoves path)

/-- The output directory.  The slash tells the root, whose slash zimdump has
taken away, from the current directory. -/
def outputLocation (directory : Bytes) : Location Bytes := locate (directory ++ str "/")

/-- The segments of an entry path keep it below its start. -/
def DescendingPath (path : Bytes) : Prop := Descends 0 (pathMoves path)

instance (path : Bytes) : Decidable (DescendingPath path) :=
  inferInstanceAs (Decidable (Descends 0 (pathMoves path)))

theorem pathMoves_append (a b : Bytes) :
    pathMoves (a ++ char '/' :: b) = pathMoves a ++ pathMoves b := by
  rw [pathMoves, List.splitOn_append_cons_self, List.map_append]
  rfl

theorem pathMoves_of_notMem {s : Bytes} (h : char '/' ∉ s) : pathMoves s = [segmentMove s] := by
  rw [pathMoves, List.splitOn_eq_singleton h]
  rfl

/-- A path below the output directory is walked from there. -/
theorem locate_below (directory rel : Bytes) :
    locate (directory ++ str "/" ++ rel) = (outputLocation directory).walk (pathMoves rel) := by
  have hjoin : directory ++ str "/" ++ rel = directory ++ char '/' :: rel := by simp [str]
  have hhead : (directory ++ char '/' :: rel).head? = (directory ++ str "/").head? := by
    cases directory <;> rfl
  have hout : outputLocation directory =
      Location.walk ⟨(directory ++ str "/").head? == some (char '/'), 0, []⟩
        (pathMoves directory) := by
    rw [outputLocation, locate, show directory ++ str "/" = directory ++ char '/' :: [] from rfl,
      pathMoves_append, Location.walk_append]
    rfl
  rw [hjoin, locate, hhead, pathMoves_append, Location.walk_append, ← hout]

/-- Whatever is created at a path that descends is inside the output directory. -/
theorem inside_or_above (directory : Bytes) {rel : Bytes} (h : DescendingPath rel) :
    Location.Inside (outputLocation directory) (locate (directory ++ str "/" ++ rel)) ∨
      Location.AtOrAbove (outputLocation directory) (locate (directory ++ str "/" ++ rel)) := by
  rw [locate_below]
  obtain ⟨n, hn⟩ := (Location.Relative.start (outputLocation directory)).walk h
  exact hn.inside_or_above

/-! ## The parts of an entry path -/

theorem splitPath_spec (path : Bytes) :
    path = (Dump.splitPath path).1 ++ (Dump.splitPath path).2 ∧
      char '/' ∉ (Dump.splitPath path).2 ∧
      ((Dump.splitPath path).1 = [] ∨ ∃ pre, (Dump.splitPath path).1 = pre ++ [char '/']) := by
  rcases Bytes.last_split (str "/") path with h | ⟨a, c, b, rfl, hc, hb⟩
  · rw [Dump.splitPath, Bytes.findLastOf_eq_none h]
    exact ⟨rfl, fun hmem => h _ hmem (by decide), Or.inl rfl⟩
  · obtain rfl : c = char '/' := by simpa [str] using hc
    rw [Dump.splitPath, Bytes.findLastOf_append_cons a (by decide) hb]
    have htake : Bytes.substr (a ++ char '/' :: b) 0 (a.length + 1) = a ++ [char '/'] := by
      simp [Bytes.substr, List.take_append, List.take_of_length_le]
    have hdrop : (a ++ char '/' :: b).drop (a.length + 1) = b := by
      simp [List.drop_append]
    simp only [htake, hdrop]
    exact ⟨by simp, fun hmem => hb _ hmem (by decide), Or.inr ⟨a, rfl⟩⟩

/-- Every slash of a path is in its directory part. -/
theorem exists_dir_of_slash {path x y : Bytes} (h : path = x ++ char '/' :: y) :
    ∃ z, (Dump.splitPath path).1 = x ++ char '/' :: z := by
  obtain ⟨hpath, hslash, -⟩ := splitPath_spec path
  rcases List.append_eq_append_iff.mp (hpath.symm.trans h) with ⟨z, rfl, hz⟩ | ⟨z, hz, hy⟩
  · exact absurd (hz ▸ List.mem_append_right z (List.mem_cons_self ..)) hslash
  · cases z with
    | nil =>
        rw [List.nil_append] at hy
        exact absurd (hy ▸ List.mem_cons_self ..) hslash
    | cons c z =>
        obtain ⟨rfl, -⟩ := List.cons.inj hy
        exact ⟨z, hz⟩

/-- Behind the directory part of a path comes one more move. -/
theorem exists_pathMoves_dir (path : Bytes) : ∃ a, ∀ f, char '/' ∉ f →
    pathMoves ((Dump.splitPath path).1 ++ f) = a ++ [segmentMove f] := by
  rcases (splitPath_spec path).2.2 with h | ⟨pre, h⟩ <;> rw [h]
  · exact ⟨[], fun f hf => pathMoves_of_notMem hf⟩
  · refine ⟨pathMoves pre, fun f hf => ?_⟩
    rw [List.append_assoc, List.singleton_append, pathMoves_append, pathMoves_of_notMem hf]

/-- A segment with three bytes or more is a name. -/
theorem segmentMove_of_length {s : Bytes} (h : 3 ≤ s.length) : segmentMove s = .down s := by
  have hne (t : Bytes) (ht : t.length < 3) : s ≠ t := by
    rintro rfl
    omega
  rw [segmentMove, if_neg (by simp [hne [] (by decide), hne (str ".") (by decide)]),
    if_neg (hne (str "..") (by decide))]

/-- The digits of the counter. -/
theorem length_counter_le (n : Nat) : (decimal (n % UInt32.size)).length ≤ 10 := by
  rw [decimal, List.length_map, Nat.length_toDigits_le_iff (by decide) (by decide)]
  exact Nat.lt_trans (Nat.mod_lt _ (by decide)) (by decide)

/-- A file name is kept, or one name takes the place of another. -/
theorem truncated_spec {filename : Bytes} (hslash : char '/' ∉ filename)
    (hnul : (0 : UInt8) ∉ filename) (n : Nat) :
    char '/' ∉ (Dump.truncated filename n).1 ∧ (0 : UInt8) ∉ (Dump.truncated filename n).1 ∧
      ((Dump.truncated filename n).1 = filename ∨
        segmentMove filename = .down filename ∧
        segmentMove (Dump.truncated filename n).1 = .down (Dump.truncated filename n).1) := by
  unfold Dump.truncated
  split
  · rename_i hlong
    have hmem {c : UInt8} (hc : c ∈ Bytes.substr filename 0
        (254 - (decimal ((n + 1) % UInt32.size)).length) ++ str "~" ++
          decimal ((n + 1) % UInt32.size)) :
        c ∈ filename ∨ c = char '~' ∨ c ∈ decimal ((n + 1) % UInt32.size) := by
      rcases List.mem_append.mp hc with hc | hc
      · rcases List.mem_append.mp hc with hc | hc
        · exact Or.inl (List.mem_of_mem_take hc)
        · exact Or.inr (Or.inl (List.mem_singleton.mp hc))
      · exact Or.inr (Or.inr hc)
    have hdigits := length_counter_le (n + 1)
    refine ⟨fun hc => ?_, fun hc => ?_, Or.inr ⟨segmentMove_of_length (by omega),
      segmentMove_of_length ?_⟩⟩
    · rcases hmem hc with h | h | h
      · exact hslash h
      · exact absurd h (by decide)
      · exact absurd (mem_decimal h).1 (by decide)
    · rcases hmem hc with h | h | h
      · exact hnul h
      · exact absurd h (by decide)
      · exact absurd (mem_decimal h).1 (by decide)
    · simp only [Bytes.substr, List.drop_zero, List.length_append, List.length_take]
      omega
  · exact ⟨hslash, hnul, Or.inl rfl⟩

/-! ## Calls -/

/-- The calls and answers of `events`, and then only calls of `Q`. -/
inductive Adds (fs : FileSystem) (Q : Call → Prop) (events : List Event) : List Event → Prop where
  | refl : Adds fs Q events events
  | snoc {events' : List Event} {c : Call} :
      Adds fs Q events events' → Q c → Adds fs Q events (events' ++ [(c, fs events' c)])

theorem Adds.trans {fs : FileSystem} {Q : Call → Prop} {a b c : List Event}
    (h : Adds fs Q a b) (h' : Adds fs Q b c) : Adds fs Q a c := by
  induction h' with
  | refl => exact h
  | snoc _ hQ ih => exact ih.snoc hQ

/-- What was added to calls that are there are answers to calls of `Q`. -/
theorem Adds.exists_append {fs : FileSystem} {Q : Call → Prop} {a b : List Event}
    (h : Adds fs Q a b) : ∃ l, b = a ++ l ∧
      ∀ ev ∈ l, Q ev.1 ∧ ∃ l', ev.2 = fs (a ++ l') ev.1 := by
  induction h with
  | refl => exact ⟨[], by simp, nofun⟩
  | snoc _ hQ ih =>
      obtain ⟨l, rfl, hl⟩ := ih
      refine ⟨l ++ [_], (List.append_assoc ..), fun ev hev => ?_⟩
      rcases List.mem_append.mp hev with hev | hev
      · exact hl ev hev
      · rw [List.mem_singleton.mp hev]
        exact ⟨hQ, l, rfl⟩

theorem Adds.mem {fs : FileSystem} {Q : Call → Prop} {a b : List Event} (h : Adds fs Q a b)
    {ev : Event} (hev : ev ∈ a) : ev ∈ b := by
  obtain ⟨l, rfl, -⟩ := h.exists_append
  exact List.mem_append_left l hev

theorem adds_perform (fs : FileSystem) {Q : Call → Prop} (d : Dump) {c : Call} (h : Q c) :
    Adds fs Q d.events (d.perform fs c).events :=
  Adds.refl.snoc h

theorem adds_foldl {fs : FileSystem} {Q : Call → Prop} {β : Type} {f : Dump → β → Dump}
    {l : List β} (h : ∀ d, ∀ b ∈ l, Adds fs Q d.events (f d b).events) (d : Dump) :
    Adds fs Q d.events (l.foldl f d).events := by
  induction l generalizing d with
  | nil => exact .refl
  | cons b l ih =>
      have hb : Adds fs Q d.events (f d b).events := h d b (List.mem_cons_self ..)
      exact hb.trans (ih (fun d b hb => h d b (List.mem_cons_of_mem _ hb)) (f d b))

/-- The positions that are found are slashes behind the first byte. -/
theorem mem_slashPositions {path : Bytes} : ∀ {fuel position p : Nat},
    p ∈ Dump.slashPositions path fuel position →
      position < p ∧ ∃ a b, path = a ++ char '/' :: b ∧ a.length = p
  | 0, _, _, h => by simp [Dump.slashPositions] at h
  | fuel + 1, position, p, h => by
      rw [Dump.slashPositions] at h
      split at h
      · simp at h
      · rename_i q hq
        obtain ⟨hle, a, b, hsplit, hlen, -⟩ := Bytes.exists_of_find_eq_some hq
        rcases List.mem_cons.mp h with rfl | h
        · exact ⟨hle, a, b, hsplit, hlen⟩
        · obtain ⟨hlt, hrest⟩ := mem_slashPositions h
          exact ⟨by omega, hrest⟩

/-- Every slash behind the first byte is found. -/
theorem slashPositions_complete {a b : Bytes} : ∀ {fuel position : Nat},
    position < a.length → (a ++ char '/' :: b).length ≤ position + fuel →
      a.length ∈ Dump.slashPositions (a ++ char '/' :: b) fuel position
  | 0, position, hlt, hfuel => by
      rw [List.length_append] at hfuel
      omega
  | fuel + 1, position, hlt, hfuel => by
      rw [Dump.slashPositions]
      by_cases hmem : char '/' ∈ a.drop (position + 1)
      · obtain ⟨x, y, hxy, hx⟩ := List.eq_append_cons_of_mem hmem
        have htake : (a.take (position + 1)).length = position + 1 := by
          rw [List.length_take]
          omega
        have ha : a = a.take (position + 1) ++ x ++ char '/' :: y := by
          rw [List.append_assoc, ← hxy, List.take_append_drop]
        have hdrop : (a.take (position + 1) ++ x).drop (position + 1) = x := by
          rw [List.drop_append_of_le_length (by omega), List.drop_of_length_le (by omega)]
          rfl
        have hfind : Bytes.find (a ++ char '/' :: b) (char '/') (position + 1) =
            some (a.take (position + 1) ++ x).length := by
          conv_lhs => rw [ha, List.append_assoc _ _ (char '/' :: b), List.cons_append]
          exact Bytes.find_append_cons _ (by rw [List.length_append]; omega) (by rwa [hdrop])
        have hlt' : (a.take (position + 1) ++ x).length < a.length := by
          conv_rhs => rw [ha]
          simp
        rw [hfind]
        refine List.mem_cons_of_mem _ (slashPositions_complete hlt' ?_)
        rw [List.length_append] at hfuel ⊢
        rw [List.length_append, htake]
        omega
      · rw [Bytes.find_append_cons b (by omega) hmem]
        exact List.mem_cons_self ..

theorem substr_append {a b : Bytes} : Bytes.substr (a ++ b) 0 a.length = a := by
  simp [Bytes.substr]

/-! ## The calls of each function -/

section

variable {fs : FileSystem} {Q : Call → Prop} {directory : Bytes}

theorem adds_createdir {path base : Bytes}
    (h : ∀ p ∈ Dump.slashPositions path path.length 0,
      Q (.mkdir (Bytes.cStr (base ++ str "/" ++ Bytes.substr path 0 p)))) (d : Dump) :
    Adds fs Q d.events (Dump.createdir fs path base d).events :=
  adds_foldl (fun d p hp => adds_perform fs d (h p hp)) d

theorem adds_writeToErrorDirectory {relpath : Bytes}
    (hdir : Q (.mkdir (Bytes.cStr (directory ++ str "/" ++ str "/_exceptions"))))
    (hstream : ∀ content, Q (.streamWrite (Bytes.cStr (directory ++ str "/" ++
      (str "_exceptions/" ++ Dump.escapeSlashes relpath))) content))
    (content : Bytes) (d : Dump) :
    Adds fs Q d.events
      (Dump.writeToErrorDirectory fs (directory ++ str "/") relpath content d).events := by
  have hcreate : Adds fs Q d.events
      (Dump.createdir fs (str "_exceptions/") (directory ++ str "/") d).events := by
    refine adds_createdir (fun p hp => ?_) d
    rw [show Dump.slashPositions (str "_exceptions/") (str "_exceptions/").length 0 = [11] by decide,
      List.mem_singleton] at hp
    subst hp
    have hjoin : directory ++ str "/" ++ str "/" ++ Bytes.substr (str "_exceptions/") 0 11 =
        directory ++ str "/" ++ str "/_exceptions" := by
      rw [List.append_assoc (directory ++ str "/")]
      rfl
    rwa [hjoin]
  have hcall := adds_perform fs
    (Dump.createdir fs (str "_exceptions/") (directory ++ str "/") d)
    (hstream content)
  rw [← List.append_assoc (directory ++ str "/")] at hcall
  refine hcreate.trans ?_
  unfold Dump.writeToErrorDirectory
  dsimp only
  split
  · exact hcall
  · exact hcall

/-- The calls for an output at `relativePath` are made at that path, or in the
directory for errors. -/
theorem adds_writeEntry {relativePath : Bytes}
    (hcall : ∀ c : Call, c.path = Bytes.cStr (directory ++ str "/" ++ relativePath) → Q c)
    (herror : ∀ content d, Adds fs Q d.events
      (Dump.writeToErrorDirectory fs (directory ++ str "/") relativePath content d).events)
    (symlinkdump : Bool) (entry : Entry) (d : Dump) :
    Adds fs Q d.events (Dump.writeEntry fs directory symlinkdump entry relativePath d).events := by
  have hfile (data : Bytes) : Adds fs Q d.events
      (Dump.writeToFile fs (directory ++ str "/") relativePath data d).events := by
    have hopen := adds_perform fs d
      (hcall (.openWrite (Bytes.cStr (directory ++ str "/" ++ relativePath)) data) rfl)
    unfold Dump.writeToFile
    dsimp only
    split
    · exact hopen
    · exact hopen.trans (herror data _)
  unfold Dump.writeEntry
  split
  · exact hfile _
  · rename_i target mimetype _
    split
    · exact hfile _
    · have hlink := adds_perform fs d
        (hcall (.symlink (Bytes.cStr (computeRelativePath entry.path target))
          (Bytes.cStr (directory ++ str "/" ++ relativePath))) rfl)
      dsimp only
      split
      · exact hlink
      · exact hlink

theorem adds_createDirsOnce {dir : Bytes}
    (h : ∀ d, Adds fs Q d.events (Dump.createdir fs dir directory d).events) (d : Dump) :
    Adds fs Q d.events (Dump.createDirsOnce fs directory dir d).events := by
  unfold Dump.createDirsOnce
  split
  · exact .refl
  · exact h d

/-- Nothing but the calls changes when directories are made. -/
theorem createdir_keeps (fs : FileSystem) (path base : Bytes) (d : Dump) :
    ∃ events, Dump.createdir fs path base d = { d with events := events } := by
  rw [Dump.createdir]
  induction Dump.slashPositions path path.length 0 generalizing d with
  | nil => exact ⟨d.events, rfl⟩
  | cons p positions ih => exact ih _

theorem createDirsOnce_keeps (fs : FileSystem) (directory dir : Bytes) (d : Dump) :
    (Dump.createDirsOnce fs directory dir d).truncatedFiles = d.truncatedFiles ∧
      (Dump.createDirsOnce fs directory dir d).error = d.error := by
  rw [Dump.createDirsOnce]
  split
  · exact ⟨rfl, rfl⟩
  · obtain ⟨events, hcreate⟩ := createdir_keeps fs dir directory d
    rw [hcreate]
    exact ⟨rfl, rfl⟩

/-- The path that is computed for an entry, below the output directory. -/
def Dump.relativePath (d : Dump) (entry : Entry) : Bytes :=
  (splitPath entry.path).1 ++ (truncated (splitPath entry.path).2 d.truncatedFiles).1

/-- An entry is written at the path that is computed for it. -/
theorem dumpEntry_eq (fs : FileSystem) (directory : Bytes) (symlinkdump : Bool) (entry : Entry)
    {d : Dump} (h : d.error = none) :
    ∃ count, Dump.dumpEntry fs directory symlinkdump d entry =
      Dump.writeEntry fs directory symlinkdump entry (d.relativePath entry)
        { Dump.createDirsOnce fs directory (Dump.splitPath entry.path).1 d with
          truncatedFiles := count } := by
  refine ⟨(Dump.truncated (Dump.splitPath entry.path).2 d.truncatedFiles).2, ?_⟩
  rw [Dump.relativePath,
    ← (createDirsOnce_keeps fs directory (Dump.splitPath entry.path).1 d).1,
    Dump.dumpEntry, h]
  rfl

/-- The calls for an entry: for the directories of its path, and for its output
at its path with the file name truncated. -/
theorem adds_dumpEntry {entry : Entry}
    (hdirs : ∀ d, Adds fs Q d.events
      (Dump.createdir fs (Dump.splitPath entry.path).1 directory d).events)
    (hwrite : ∀ n symlinkdump d, Adds fs Q d.events (Dump.writeEntry fs directory symlinkdump entry
      ((Dump.splitPath entry.path).1 ++
        (Dump.truncated (Dump.splitPath entry.path).2 n).1) d).events)
    (symlinkdump : Bool) (d : Dump) :
    Adds fs Q d.events (Dump.dumpEntry fs directory symlinkdump d entry).events := by
  cases herror : d.error with
  | some message =>
      rw [Dump.dumpEntry, herror]
      exact .refl
  | none =>
      obtain ⟨count, h⟩ := dumpEntry_eq fs directory symlinkdump entry herror
      rw [h]
      exact (adds_createDirsOnce hdirs d).trans (hwrite d.truncatedFiles symlinkdump
        { Dump.createDirsOnce fs directory (Dump.splitPath entry.path).1 d with
          truncatedFiles := count })

end

theorem grows_writeEntry (fs : FileSystem) (directory relativePath : Bytes) (symlinkdump : Bool)
    (entry : Entry) (d : Dump) : Adds fs (fun _ => True) d.events
      (Dump.writeEntry fs directory symlinkdump entry relativePath d).events :=
  adds_writeEntry (fun _ _ => trivial)
    (adds_writeToErrorDirectory trivial fun _ => trivial) symlinkdump entry d

theorem grows_dumpEntry (fs : FileSystem) (directory : Bytes) (symlinkdump : Bool) (d : Dump)
    (entry : Entry) : Adds fs (fun _ => True) d.events
      (Dump.dumpEntry fs directory symlinkdump d entry).events :=
  adds_dumpEntry (adds_createdir fun _ _ => trivial)
    (fun _ s d => grows_writeEntry fs directory _ s entry d) symlinkdump d

/-! ## Entries that descend -/

/-- A call at a descending path below the output directory. -/
def Below (directory : Bytes) (c : Call) : Prop :=
  ∃ rel, c.path = directory ++ str "/" ++ rel ∧ DescendingPath rel

theorem cStr_below {directory rel : Bytes} (hdirectory : (0 : UInt8) ∉ directory)
    (hrel : (0 : UInt8) ∉ rel) :
    Bytes.cStr (directory ++ str "/" ++ rel) = directory ++ str "/" ++ rel := by
  rw [Bytes.cStr_of_notMem]
  simp only [List.mem_append, not_or]
  exact ⟨⟨hdirectory, by decide⟩, hrel⟩

theorem below_of_descending {directory rel : Bytes} (hdirectory : (0 : UInt8) ∉ directory)
    (hrel : (0 : UInt8) ∉ rel) (h : DescendingPath rel) {c : Call}
    (hc : c.path = Bytes.cStr (directory ++ str "/" ++ rel)) : Below directory c :=
  ⟨rel, hc.trans (cStr_below hdirectory hrel), h⟩

/-- In the directory for errors an entry is one segment. -/
theorem descending_escaped {relpath : Bytes} (hrel : (0 : UInt8) ∉ relpath) :
    (0 : UInt8) ∉ str "_exceptions/" ++ Dump.escapeSlashes relpath ∧
      DescendingPath (str "_exceptions/" ++ Dump.escapeSlashes relpath) := by
  have hescape {c : UInt8} (hc : c ∈ Dump.escapeSlashes relpath) :
      c ∈ relpath ∧ c ≠ char '/' ∨ c ∈ str "%2f" := by
    obtain ⟨x, hx, hcx⟩ := List.mem_flatMap.mp hc
    split at hcx
    · exact Or.inr hcx
    · rename_i hne
      obtain rfl := List.mem_singleton.mp hcx
      exact Or.inl ⟨hx, hne⟩
  have hslash : char '/' ∉ Dump.escapeSlashes relpath := fun hc =>
    (hescape hc).elim (fun h => h.2 rfl) (by decide)
  constructor
  · rw [List.mem_append]
    rintro (h | h)
    · exact absurd h (by decide)
    · exact (hescape h).elim (fun h => hrel h.1) (by decide)
  · rw [show str "_exceptions/" ++ Dump.escapeSlashes relpath =
        str "_exceptions" ++ char '/' :: Dump.escapeSlashes relpath from rfl,
      DescendingPath, pathMoves_append, pathMoves_of_notMem hslash,
      show pathMoves (str "_exceptions") = [.down (str "_exceptions")] by decide]
    cases segmentMove (Dump.escapeSlashes relpath) <;> simp [Descends]

/-- The file name is truncated to another name, if at all. -/
theorem pathMoves_truncated (path : Bytes) (hnul : (0 : UInt8) ∉ path) (n : Nat) :
    ∃ a, pathMoves path = a ++ [segmentMove (Dump.splitPath path).2] ∧
      (0 : UInt8) ∉ (Dump.splitPath path).1 ++ (Dump.truncated (Dump.splitPath path).2 n).1 ∧
      (pathMoves ((Dump.splitPath path).1 ++ (Dump.truncated (Dump.splitPath path).2 n).1) =
          pathMoves path ∨
        ∃ x y, pathMoves path = a ++ [.down x] ∧
          pathMoves ((Dump.splitPath path).1 ++ (Dump.truncated (Dump.splitPath path).2 n).1) =
            a ++ [.down y]) := by
  obtain ⟨hpath, hslash, -⟩ := splitPath_spec path
  obtain ⟨a, ha⟩ := exists_pathMoves_dir path
  have hmoves : pathMoves path = a ++ [segmentMove (Dump.splitPath path).2] := by
    conv_lhs => rw [hpath]
    exact ha _ hslash
  rw [hpath, List.mem_append, not_or] at hnul
  obtain ⟨hslash', hnul', hname⟩ := truncated_spec hslash hnul.2 n
  refine ⟨a, hmoves, by rw [List.mem_append, not_or]; exact ⟨hnul.1, hnul'⟩, ?_⟩
  rw [ha _ hslash']
  rcases hname with hkept | ⟨hdown, hdown'⟩
  · exact Or.inl (by rw [hkept, hmoves])
  · exact Or.inr ⟨_, _, by rw [hmoves, hdown], by rw [hdown']⟩

theorem descending_truncated {path : Bytes} (hnul : (0 : UInt8) ∉ path) (h : DescendingPath path)
    (n : Nat) :
    (0 : UInt8) ∉ (Dump.splitPath path).1 ++ (Dump.truncated (Dump.splitPath path).2 n).1 ∧
      DescendingPath ((Dump.splitPath path).1 ++ (Dump.truncated (Dump.splitPath path).2 n).1) := by
  obtain ⟨a, -, hnul', hmoves⟩ := pathMoves_truncated path hnul n
  refine ⟨hnul', ?_⟩
  rcases hmoves with hkept | ⟨x, y, hx, hy⟩
  · rwa [DescendingPath, hkept]
  · rw [DescendingPath, hx] at h
    rw [DescendingPath, hy]
    exact (descends_append_down a _ _).mp h

/-- Every call for an entry whose path descends is at a path that descends. -/
theorem below_dumpEntry (fs : FileSystem) {directory : Bytes}
    (hdirectory : (0 : UInt8) ∉ directory) {entry : Entry} (h : DescendingPath entry.path)
    (symlinkdump : Bool) (d : Dump) :
    Adds fs (Below directory) d.events
      (Dump.dumpEntry fs directory symlinkdump d entry).events := by
  refine adds_dumpEntry (adds_createdir fun p hp => ?_) (fun n s d => ?_) symlinkdump d
  · obtain ⟨hpath, -, -⟩ := splitPath_spec entry.path
    have hnul := entry.noNul
    obtain ⟨-, a, b, hdir, rfl⟩ := mem_slashPositions hp
    rw [hpath, hdir] at hnul h
    rw [hdir, substr_append]
    rw [DescendingPath, List.append_assoc, List.cons_append, pathMoves_append] at h
    refine below_of_descending hdirectory (fun hmem => hnul ?_) h.of_append rfl
    exact List.mem_append_left _ (List.mem_append_left _ hmem)
  · obtain ⟨hnul, hrel⟩ := descending_truncated entry.noNul h n
    obtain ⟨hnul', hescaped⟩ := descending_escaped hnul
    exact adds_writeEntry (fun c hc => below_of_descending hdirectory hnul hrel hc)
      (adds_writeToErrorDirectory (below_of_descending hdirectory (by decide) (by decide) rfl)
        fun _ => below_of_descending hdirectory hnul' hescaped rfl) s entry d

/-! ## Entries that do not descend -/

/-- The moves of a path up to one of them are those of a path that ends there,
or that a slash follows. -/
theorem exists_prefix {m : Move Bytes} {b : List (Move Bytes)} :
    ∀ {a : List (Move Bytes)} {path : Bytes}, pathMoves path = a ++ m :: b →
      ∃ x, pathMoves x = a ++ [m] ∧ (path = x ∧ b = [] ∨ ∃ y, path = x ++ char '/' :: y)
  | a, path, h => by
      rcases Bytes.mem_split (char '/') path with hslash | ⟨x, y, rfl, hx⟩
      · rw [pathMoves_of_notMem hslash] at h
        cases a with
        | nil =>
            obtain ⟨rfl, rfl⟩ := List.cons.inj h
            exact ⟨path, by rw [pathMoves_of_notMem hslash]; rfl, Or.inl ⟨rfl, rfl⟩⟩
        | cons m' a => simp at h
      · rw [pathMoves_append, pathMoves_of_notMem hx, List.singleton_append] at h
        cases a with
        | nil =>
            obtain ⟨rfl, -⟩ := List.cons.inj h
            exact ⟨x, pathMoves_of_notMem hx, Or.inr ⟨y, rfl⟩⟩
        | cons m' a =>
            obtain ⟨rfl, hrest⟩ := List.cons.inj h
            obtain ⟨x', hx', hy⟩ := exists_prefix hrest
            refine ⟨x ++ char '/' :: x', ?_, ?_⟩
            · rw [pathMoves_append, pathMoves_of_notMem hx, hx']
              rfl
            · rcases hy with ⟨rfl, hb⟩ | ⟨y', rfl⟩
              · exact Or.inl ⟨rfl, hb⟩
              · exact Or.inr ⟨y', by simp⟩

/-- `createdir` makes a directory of every part of a path before a slash. -/
theorem mem_createdir (fs : FileSystem) (base : Bytes) {a b : Bytes} (ha : a ≠ []) (d : Dump) :
    ∃ events, (Call.mkdir (Bytes.cStr (base ++ str "/" ++ a)),
        fs events (.mkdir (Bytes.cStr (base ++ str "/" ++ a)))) ∈
      (Dump.createdir fs (a ++ char '/' :: b) base d).events := by
  have hmem : a.length ∈ Dump.slashPositions (a ++ char '/' :: b) (a ++ char '/' :: b).length 0 :=
    slashPositions_complete (List.length_pos_iff.mpr ha) (by omega)
  obtain ⟨before, after, hlist⟩ := List.append_of_mem hmem
  let d' := before.foldl (fun d p => d.mkdir fs (base ++ str "/" ++
    Bytes.substr (a ++ char '/' :: b) 0 p)) d
  let c := Call.mkdir (Bytes.cStr (base ++ str "/" ++ a))
  have hcall : (c, fs d'.events c) ∈ (d'.perform fs c).events :=
    List.mem_append_right _ (List.mem_singleton_self _)
  rw [Dump.createdir, hlist, List.foldl_append, List.foldl_cons, substr_append]
  exact ⟨d'.events, (adds_foldl (Q := fun _ => True)
    (fun d p _ => adds_perform fs d trivial) (d'.perform fs c)).mem hcall⟩

/-- The call that writes an entry at the path computed for it. -/
def outputCall (directory : Bytes) (symlinkdump : Bool) (entry : Entry) (relativePath : Bytes) :
    Call :=
  let path := Bytes.cStr (directory ++ str "/" ++ relativePath)
  match entry.kind with
  | .item data => .openWrite path data
  | .redirect target mimetype =>
      let redirectPath := computeRelativePath entry.path target
      if symlinkdump = false ∧ mimetype = str "text/html" then
        .openWrite path (httpRedirectHtml redirectPath)
      else .symlink (Bytes.cStr redirectPath) path

theorem outputCall_path (directory : Bytes) (symlinkdump : Bool) (entry : Entry)
    (relativePath : Bytes) : (outputCall directory symlinkdump entry relativePath).path =
      Bytes.cStr (directory ++ str "/" ++ relativePath) := by
  rw [outputCall]
  cases entry.kind with
  | item data => rfl
  | redirect target mimetype =>
      dsimp only
      split <;> rfl

/-- The first call for an output is the one that writes it. -/
theorem events_writeEntry (fs : FileSystem) (directory relativePath : Bytes) (symlinkdump : Bool)
    (entry : Entry) (d : Dump) :
    ∃ later, (Dump.writeEntry fs directory symlinkdump entry relativePath d).events =
      d.events ++ (outputCall directory symlinkdump entry relativePath,
        fs d.events (outputCall directory symlinkdump entry relativePath)) :: later := by
  have hfile (data : Bytes) : ∃ later,
      (Dump.writeToFile fs (directory ++ str "/") relativePath data d).events =
        d.events ++ (Call.openWrite (Bytes.cStr (directory ++ str "/" ++ relativePath)) data,
          fs d.events (.openWrite (Bytes.cStr (directory ++ str "/" ++ relativePath)) data)) ::
            later := by
    rw [Dump.writeToFile]
    split
    · exact ⟨[], rfl⟩
    · obtain ⟨later, hlater, -⟩ := (adds_writeToErrorDirectory (Q := fun _ => True) trivial
        (fun _ => trivial) data (d.perform fs (.openWrite (Bytes.cStr (directory ++ str "/" ++
          relativePath)) data))).exists_append
      exact ⟨later, hlater.trans (List.append_assoc d.events [_] later)⟩
  rw [outputCall, Dump.writeEntry]
  cases entry.kind with
  | item data => exact hfile data
  | redirect target mimetype =>
      dsimp only
      split
      · exact hfile _
      · split <;> exact ⟨[], rfl⟩

/-- An entry is written by its call. -/
theorem mem_writeEntry (fs : FileSystem) (directory relativePath : Bytes) (symlinkdump : Bool)
    (entry : Entry) (d : Dump) :
    ∃ events, (outputCall directory symlinkdump entry relativePath,
        fs events (outputCall directory symlinkdump entry relativePath)) ∈
      (Dump.writeEntry fs directory symlinkdump entry relativePath d).events := by
  obtain ⟨later, hlater⟩ := events_writeEntry fs directory relativePath symlinkdump entry d
  refine ⟨d.events, ?_⟩
  rw [hlater]
  exact List.mem_append_right _ (List.mem_cons_self ..)

/-- The calls for an entry, behind those for its directories. -/
theorem events_dumpEntry (fs : FileSystem) (directory : Bytes) (symlinkdump : Bool) (entry : Entry)
    {d : Dump} (h : d.error = none) :
    ∃ events o later, (Dump.dumpEntry fs directory symlinkdump d entry).events =
      d.events ++ (events ++
        (outputCall directory symlinkdump entry (d.relativePath entry), o) :: later) := by
  obtain ⟨count, hentry⟩ := dumpEntry_eq fs directory symlinkdump entry h
  have hadds : Adds fs (fun _ => True) d.events
      (Dump.createDirsOnce fs directory (Dump.splitPath entry.path).1 d).events :=
    adds_createDirsOnce (adds_createdir fun _ _ => trivial) d
  obtain ⟨events, hdirs, -⟩ := hadds.exists_append
  obtain ⟨later, hlater⟩ := events_writeEntry fs directory (d.relativePath entry) symlinkdump entry
    { Dump.createDirsOnce fs directory (Dump.splitPath entry.path).1 d with truncatedFiles := count }
  rw [hentry, hlater]
  dsimp only
  rw [hdirs, List.append_assoc]
  exact ⟨events, _, later, rfl⟩

/-- For an entry that does not descend a call is made at a path that leaves the
output directory by a name. -/
theorem exists_call_outside (fs : FileSystem) (directory : Bytes)
    (hdirectory : (0 : UInt8) ∉ directory) {entry : Entry} (h : ¬ DescendingPath entry.path)
    (symlinkdump : Bool) {d : Dump} (herror : d.error = none) (hcache : d.pathcache = []) :
    ∃ c events rel a name k,
      (c, fs events c) ∈ (Dump.dumpEntry fs directory symlinkdump d entry).events ∧
      c.path = directory ++ str "/" ++ rel ∧ pathMoves rel = a ++ [.down name] ∧
      (outputLocation directory).walk a = Location.parent^[k + 1] (outputLocation directory) := by
  obtain ⟨a, name, b, k, hmoves, hwalk⟩ :=
    exists_of_not_descends (.start (outputLocation directory)) h
  obtain ⟨count, hentry⟩ := dumpEntry_eq fs directory symlinkdump entry herror
  rw [hentry]
  obtain ⟨x, hx, ⟨rfl, rfl⟩ | ⟨y, hxy⟩⟩ := exists_prefix hmoves
  · -- The name is the last segment, and the entry is written there.
    obtain ⟨a', hlast, hnul, hkept⟩ :=
      pathMoves_truncated entry.path entry.noNul d.truncatedFiles
    obtain ⟨events, hmem⟩ := mem_writeEntry fs directory (d.relativePath entry) symlinkdump entry _
    have hcall := outputCall_path directory symlinkdump entry (d.relativePath entry)
    have hname : ∃ name', pathMoves (d.relativePath entry) = a ++ [.down name'] := by
      rcases hkept with hkept | ⟨x, y, hdown, htruncated⟩
      · exact ⟨name, hkept.trans hmoves⟩
      · obtain ⟨rfl, -⟩ := List.append_inj' (hdown.symm.trans hmoves) rfl
        exact ⟨y, htruncated⟩
    obtain ⟨name', hname'⟩ := hname
    exact ⟨_, events, _, a, name', k, hmem, hcall.trans (cStr_below hdirectory hnul), hname', hwalk⟩
  · -- A slash follows the name, and its directory is created.
    obtain ⟨y', hdir⟩ := exists_dir_of_slash hxy
    have hnul : (0 : UInt8) ∉ x := fun hmem => entry.noNul (hxy ▸ List.mem_append_left _ hmem)
    have hne : x ≠ [] := by
      rintro rfl
      rw [show pathMoves [] = [] ++ [.stay] from rfl] at hx
      cases (List.append_inj' hx rfl).2
    obtain ⟨events, hmem⟩ := mem_createdir (b := y') fs directory hne d
    have honce : (Dump.createDirsOnce fs directory (Dump.splitPath entry.path).1 d).events =
        (Dump.createdir fs (x ++ char '/' :: y') directory d).events := by
      rw [Dump.createDirsOnce, hdir, hcache, if_neg (by simp)]
    exact ⟨.mkdir _, events, x, a, name, k,
      (grows_writeEntry fs directory _ symlinkdump entry _).mem (honce ▸ hmem),
      cStr_below hdirectory hnul, hx, hwalk⟩

/-! ## Containment -/

/-- The output directory is there, and so are the directories above it: no call
creates one of them once `dumpFiles` has made the output directory. -/
def Existing (directory : Bytes) (fs : FileSystem) : Prop :=
  ∀ events c, events ≠ [] → Location.AtOrAbove (outputLocation directory) (locate c.path) →
    fs events c = .failed

/-- What is created is inside the output directory. -/
def Contained (directory : Bytes) (ev : Event) : Prop :=
  ev.2 ≠ .failed → Location.Inside (outputLocation directory) (locate ev.1.path)

theorem contained_of_below {directory : Bytes} {fs : FileSystem} (hfs : Existing directory fs)
    {events : List Event} (hevents : events ≠ []) {c : Call} (h : Below directory c) :
    Contained directory (c, fs events c) := by
  obtain ⟨rel, hpath, hrel⟩ := h
  intro hdone
  rcases inside_or_above directory hrel with hinside | habove
  · rwa [← hpath] at hinside
  · rw [← hpath] at habove
    exact absurd (hfs events c hevents habove) hdone

/-- The current directory, as a location. -/
theorem outputLocation_dot : outputLocation (str ".") = ⟨false, 0, []⟩ := by
  decide

theorem parent_iterate_dot (k : Nat) :
    Location.parent^[k] (outputLocation (str ".")) = ⟨false, k, []⟩ := by
  induction k with
  | zero => exact outputLocation_dot
  | succ k ih => rw [Function.iterate_succ_apply', ih]; rfl

/-- A file system where a call fails exactly at the current directory and above. -/
def dotFileSystem : FileSystem := fun _ c =>
  if (locate c.path).absolute = false ∧ (locate c.path).names = [] then .failed else .done

theorem existing_dotFileSystem : Existing (str ".") dotFileSystem := by
  rintro events c - ⟨k, hk⟩
  rw [parent_iterate_dot] at hk
  rw [dotFileSystem, hk]
  rfl

/-- Nothing that is made at a name above the current directory is contained. -/
theorem not_contained_dot {events : List Event} {c : Call} {rel name : Bytes} {k : Nat}
    {a : List (Move Bytes)} (hpath : c.path = str "." ++ str "/" ++ rel)
    (hrel : pathMoves rel = a ++ [.down name])
    (hwalk : (outputLocation (str ".")).walk a =
      Location.parent^[k + 1] (outputLocation (str "."))) :
    ¬ Contained (str ".") (c, dotFileSystem events c) := by
  have hloc : locate c.path = ⟨false, k + 1, [name]⟩ := by
    rw [hpath, locate_below, hrel, Location.walk_append, hwalk, parent_iterate_dot]
    rfl
  have hdone : dotFileSystem events c = .done := by
    rw [dotFileSystem, hloc]
    exact if_neg (by simp)
  intro h
  obtain ⟨names, -, hnames⟩ := h (by simp [hdone])
  rw [hloc, outputLocation_dot] at hnames
  cases hnames

/-- An entry at `../x`. -/
def escapingEntry : Entry := ⟨str "../x", .item (str "y"), by decide⟩

end ZimTools.Zimdump
