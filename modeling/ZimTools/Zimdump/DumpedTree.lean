import Mathlib.Data.List.Nodup
import Mathlib.Data.List.Pairwise
import ZimTools.Tools.RelativeResolution
import ZimTools.Zimdump.RedirectLinks

/-!
# What a dump leaves on the disk

A call that is done leaves a node at a place, and what the disk holds follows
from the calls and their answers (`Disk.after`).  Of the system it is asked that
it has room for a tree: a call that makes something of the tree is done when
nothing is at its place yet and the place is in a directory.

A dump into an empty directory then leaves each entry at its path, the
directories of these paths, and nothing else, if no path is below another one
(`dump_leaves`).
-/

namespace ZimTools.Zimdump

open Bytes DotSegments Dump

/-! ## The disk -/

/-- What is at a place.  `damaged` is a file that was not written to its end. -/
inductive Node where
  | directory
  | file (data : Bytes)
  | link (target : Bytes)
  | damaged
deriving DecidableEq

abbrev Disk := Location Bytes → Option Node

/-- What a call leaves where it is done. -/
def Call.node : Call → Node
  | .mkdir _ => .directory
  | .openWrite _ data => .file data
  | .streamWrite _ data => .file data
  | .symlink target _ => .link target

def Call.isLink : Call → Bool
  | .symlink .. => true
  | _ => false

/-- Whether a call may open a file that is there. -/
def Call.writes : Call → Bool
  | .openWrite .. => true
  | .streamWrite .. => true
  | _ => false

def Disk.apply (disk : Disk) (ev : Event) : Disk :=
  match ev.2 with
  | .done => Function.update disk (locate ev.1.path) (some ev.1.node)
  | .short => Function.update disk (locate ev.1.path) (some .damaged)
  | .failed => disk

def Disk.after (disk : Disk) (events : List Event) : Disk := events.foldl Disk.apply disk

/-- The place below the output directory at a path of names. -/
def place (directory : Bytes) (names : List Bytes) : Location Bytes :=
  (outputLocation directory).walk (names.map .down)

/-- A name that a file can have. -/
def FileName (s : Bytes) : Prop :=
  (s ≠ [] ∧ s ≠ str "." ∧ s ≠ str "..") ∧ char '/' ∉ s ∧ 0 ∉ s ∧ s.length ≤ 255

instance (s : Bytes) : Decidable (FileName s) := inferInstanceAs (Decidable (_ ∧ _))

/-- Something can be made at a place. -/
def Free (directory : Bytes) (disk : Disk) (names : List Bytes) : Prop :=
  ∃ dirs name, names = dirs ++ [name] ∧ name.length ≤ 255 ∧
    disk (place directory dirs) = some .directory ∧ disk (place directory names) = none

/-- A call may change what is at a place. -/
inductive Allowed (directory : Bytes) (disk : Disk) (c : Call) (names : List Bytes) : Prop where
  | free : Free directory disk names → Allowed directory disk c names
  | overwrite : c.writes = true → disk (place directory names) ≠ none →
      disk (place directory names) ≠ some .directory → Allowed directory disk c names

/-- What is at a path of names in a tree. -/
def IsIn (tree : List Bytes → Option Node) (names : List Bytes) (node : Node) : Prop :=
  tree names = some node

/-- Calls below an output directory that was empty, each of which has failed, or
was allowed and made what is wanted. -/
inductive Straight (directory : Bytes) (start : Disk) (wanted : List Bytes → Node → Prop) :
    List Event → Prop where
  | first {o : Outcome} :
      start.after [(.mkdir (cStr directory), o)] (outputLocation directory) = some .directory →
      (∀ names, names ≠ [] →
        start.after [(.mkdir (cStr directory), o)] (place directory names) = none) →
      Straight directory start wanted [(.mkdir (cStr directory), o)]
  | failed {events : List Event} {c : Call} :
      Straight directory start wanted events →
      Straight directory start wanted (events ++ [(c, .failed)])
  | made {events : List Event} {c : Call} {o : Outcome} {names : List Bytes} :
      Straight directory start wanted events → locate c.path = place directory names →
      Allowed directory (start.after events) c names → wanted names c.node →
      Straight directory start wanted (events ++ [(c, o)])

/-- A system with an empty output directory, which the first call leaves or
finds, and with room for a tree.  As long as no call was made through a link, and
only calls for the tree were, a call for the tree is done where something can be
made, and no directory is made where something is.  As long as there are no links,
nothing is done but what is allowed. -/
structure Serves (fs : FileSystem) (directory : Bytes) (start : Disk)
    (tree : List Bytes → Option Node) : Prop where
  first : start.after [(.mkdir (cStr directory), fs [] (.mkdir (cStr directory)))]
    (outputLocation directory) = some .directory
  empty : ∀ names, names ≠ [] →
    start.after [(.mkdir (cStr directory), fs [] (.mkdir (cStr directory)))]
      (place directory names) = none
  free : ∀ events c names, Straight directory start (IsIn tree) events →
    locate c.path = place directory names → tree names = some c.node →
    Free directory (start.after events) names → fs events c = .done
  taken : ∀ events path names, Straight directory start (IsIn tree) events →
    locate path = place directory names → start.after events (place directory names) ≠ none →
    fs events (.mkdir path) = .failed
  allowed : ∀ events c names, Straight directory start (fun _ _ => True) events →
    (∀ ev ∈ events, ev.1.isLink = false) → locate c.path = place directory names →
    fs events c = .failed ∨ Allowed directory (start.after events) c names

theorem Disk.after_concat (disk : Disk) (events : List Event) (ev : Event) :
    disk.after (events ++ [ev]) = (disk.after events).apply ev :=
  List.foldl_concat ..

theorem place_inj {directory : Bytes} {names names' : List Bytes} :
    place directory names = place directory names' ↔ names = names' :=
  Location.walk_downs_inj

theorem parent_place (directory : Bytes) (dirs : List Bytes) (name : Bytes) :
    (place directory (dirs ++ [name])).parent = place directory dirs := by
  rw [place, List.map_append, Location.walk_append]
  exact Location.parent_child _ name

theorem update_place (disk : Disk) (directory : Bytes) (names names' : List Bytes)
    (node : Option Node) :
    Function.update disk (place directory names) node (place directory names') =
      if names' = names then node else disk (place directory names') := by
  rw [Function.update_apply]
  exact if_congr place_inj rfl rfl

/-! ## Directories -/

/-- The paths of the directories on a path of names, outermost first. -/
def directoryPaths (behind : Bytes) : List Bytes → List Bytes
  | [] => []
  | name :: names => (behind ++ name) :: directoryPaths (behind ++ name ++ str "/") names

/-- `createdir` finds the slash behind each name. -/
theorem map_slashPositions {names : List Bytes} (hnames : ∀ s ∈ names, s ≠ [] ∧ char '/' ∉ s) :
    ∀ {behind : Bytes} {fuel position : Nat}, names.length ≤ fuel →
      behind.length ≤ position + 1 → position ≤ behind.length →
      (slashPositions (behind ++ withSlash names) fuel position).map
          (substr (behind ++ withSlash names) 0) = directoryPaths behind names := by
  induction names with
  | nil =>
      intro behind fuel position _ hlength _
      rw [withSlash_nil, List.append_nil]
      cases fuel with
      | zero => rfl
      | succ fuel =>
          rw [slashPositions, find_eq_none]
          · rfl
          · rw [List.drop_of_length_le hlength]
            exact List.not_mem_nil
  | cons name names ih =>
      intro behind fuel position hfuel hlength hposition
      obtain ⟨⟨hne, hslash⟩, hnames⟩ := List.forall_mem_cons.mp hnames
      have hpos : 0 < name.length := List.length_pos_iff.mpr hne
      obtain ⟨k, rfl⟩ : ∃ k, fuel = k + 1 := by
        rw [List.length_cons] at hfuel
        exact ⟨fuel - 1, by omega⟩
      have hpath : behind ++ withSlash (name :: names) =
          (behind ++ name) ++ char '/' :: withSlash names := by
        simp [withSlash, str]
      have hfind : find (behind ++ withSlash (name :: names)) (char '/') (position + 1) =
          some (behind ++ name).length := by
        rw [hpath]
        refine find_append_cons _ (by rw [List.length_append]; omega) fun hmem => hslash ?_
        rw [List.drop_append, List.drop_of_length_le hlength, List.nil_append] at hmem
        exact List.mem_of_mem_drop hmem
      have hrest : behind ++ withSlash (name :: names) =
          (behind ++ name ++ str "/") ++ withSlash names := by
        rw [hpath]
        simp [str]
      rw [slashPositions, hfind, List.map_cons, directoryPaths]
      refine congrArg₂ List.cons (by rw [hpath]; exact substr_append) ?_
      rw [hrest]
      have hslashLength : (str "/").length = 1 := rfl
      refine ih hnames (by rw [List.length_cons] at hfuel; omega) ?_ ?_
      · rw [List.length_append, hslashLength]
      · exact (List.prefix_append ..).length_le

theorem length_le_withSlash (dirs : List Bytes) : dirs.length ≤ (withSlash dirs).length := by
  induction dirs with
  | nil => exact Nat.le_refl _
  | cons s dirs ih =>
      have hcons : withSlash (s :: dirs) = s ++ str "/" ++ withSlash dirs := rfl
      have hslash : (str "/").length = 1 := rfl
      rw [hcons, List.length_append, List.length_append, hslash, List.length_cons]
      omega

theorem map_slashPositions_withSlash {dirs : List Bytes} (hdirs : ∀ s ∈ dirs, FileName s) :
    (slashPositions (withSlash dirs) (withSlash dirs).length 0).map (substr (withSlash dirs) 0) =
      directoryPaths [] dirs :=
  map_slashPositions (fun s hs => ⟨(hdirs s hs).1.1, (hdirs s hs).2.1⟩)
    (length_le_withSlash dirs) (Nat.zero_le _) (Nat.le_refl ([] : Bytes).length)

theorem pathMoves_withSlash {dirs : List Bytes} {name : Bytes}
    (hdirs : ∀ s ∈ dirs, FileName s) (hname : FileName name) :
    pathMoves (withSlash dirs ++ name) = (dirs ++ [name]).map .down := by
  induction dirs with
  | nil =>
      rw [withSlash_nil, List.nil_append, pathMoves_of_notMem hname.2.1,
        segmentMove_of_plain hname.1]
      rfl
  | cons s dirs ih =>
      obtain ⟨hs, hdirs⟩ := List.forall_mem_cons.mp hdirs
      have hjoin : withSlash (s :: dirs) ++ name = s ++ char '/' :: (withSlash dirs ++ name) := by
        simp [withSlash, str]
      rw [hjoin, pathMoves_append, ih hdirs, pathMoves_of_notMem hs.2.1, segmentMove_of_plain hs.1]
      rfl

theorem nul_notMem_withSlash {dirs : List Bytes} (hdirs : ∀ s ∈ dirs, FileName s) :
    (0 : UInt8) ∉ withSlash dirs := by
  intro hmem
  obtain ⟨s, hs, hmem⟩ := List.mem_flatMap.mp hmem
  rcases List.mem_append.mp hmem with hmem | hmem
  · exact (hdirs s hs).2.2.1 hmem
  · revert hmem
    decide

/-- The place of a call at a path of names. -/
theorem locate_names {directory : Bytes} (hdirectory : (0 : UInt8) ∉ directory) {dirs : List Bytes}
    {name : Bytes} (hdirs : ∀ s ∈ dirs, FileName s) (hname : FileName name) :
    locate (cStr (directory ++ str "/" ++ (withSlash dirs ++ name))) =
      place directory (dirs ++ [name]) := by
  rw [cStr_below hdirectory, locate_below, pathMoves_withSlash hdirs hname, place]
  rw [List.mem_append, not_or]
  exact ⟨nul_notMem_withSlash hdirs, hname.2.2.1⟩

section Run

variable {fs : FileSystem} {directory : Bytes} {start : Disk} {tree : List Bytes → Option Node}
  {d : Dump}

/-- A directory is made, or was there. -/
theorem mkdir_made (hserves : Serves fs directory start tree)
    (hdirectory : (0 : UInt8) ∉ directory)
    (hstraight : Straight directory start (IsIn tree) d.events) {dirs : List Bytes} {name : Bytes}
    (hdirs : ∀ s ∈ dirs, FileName s) (hname : FileName name)
    (htree : tree (dirs ++ [name]) = some .directory)
    (hdir : start.after d.events (place directory dirs) = some .directory)
    (hplace : start.after d.events (place directory (dirs ++ [name])) = none ∨
      start.after d.events (place directory (dirs ++ [name])) = some .directory) :
    Straight directory start (IsIn tree)
        (d.mkdir fs (directory ++ str "/" ++ (withSlash dirs ++ name))).events ∧
      start.after (d.mkdir fs (directory ++ str "/" ++ (withSlash dirs ++ name))).events =
        Function.update (start.after d.events) (place directory (dirs ++ [name]))
          (some .directory) := by
  have hlocate := locate_names hdirectory hdirs hname
  rw [Dump.mkdir, Dump.perform, Dump.outcome]
  generalize cStr (directory ++ str "/" ++ (withSlash dirs ++ name)) = path at hlocate
  dsimp only
  rw [Disk.after_concat]
  rcases hplace with hnone | hthere
  · have hfree : Free directory (start.after d.events) (dirs ++ [name]) :=
      ⟨dirs, name, rfl, hname.2.2.2, hdir, hnone⟩
    rw [hserves.free _ (.mkdir path) _ hstraight hlocate htree hfree]
    exact ⟨.made hstraight hlocate (.free hfree) htree, by rw [Disk.apply, ← hlocate]; rfl⟩
  · have hsome : start.after d.events (place directory (dirs ++ [name])) ≠ none := by
      rw [hthere]
      exact Option.some_ne_none _
    rw [hserves.taken _ path _ hstraight hlocate hsome]
    refine ⟨.failed hstraight, ?_⟩
    rw [← hthere, Function.update_eq_self]
    rfl

theorem createdir_eq (dir base : Bytes) :
    createdir fs dir base d =
      ((slashPositions dir dir.length 0).map (substr dir 0)).foldl
        (fun d dir => d.mkdir fs (base ++ str "/" ++ dir)) d := by
  rw [createdir, List.foldl_map]

/-- The directories behind those that are there. -/
theorem makes_directories (hserves : Serves fs directory start tree)
    (hdirectory : (0 : UInt8) ∉ directory) {names : List Bytes} :
    ∀ {dirs : List Bytes} {d : Dump}, (∀ s ∈ dirs ++ names, FileName s) →
      (∀ pre, pre <+: dirs ++ names → tree pre = some .directory) →
      Straight directory start (IsIn tree) d.events →
      (∀ pre, pre <+: dirs → start.after d.events (place directory pre) = some .directory) →
      (∀ pre, pre <+: dirs ++ names → start.after d.events (place directory pre) = none ∨
        start.after d.events (place directory pre) = some .directory) →
      Straight directory start (IsIn tree) ((directoryPaths (withSlash dirs) names).foldl
          (fun d dir => d.mkdir fs (directory ++ str "/" ++ dir)) d).events ∧
        ∀ names', start.after ((directoryPaths (withSlash dirs) names).foldl
            (fun d dir => d.mkdir fs (directory ++ str "/" ++ dir)) d).events
              (place directory names') =
          if names' <+: dirs ++ names then some .directory
          else start.after d.events (place directory names') := by
  induction names with
  | nil =>
      intro dirs d _ _ hstraight hthere _
      refine ⟨hstraight, fun names' => ?_⟩
      rw [List.append_nil]
      split_ifs with hpre
      · exact hthere names' hpre
      · rfl
  | cons name names ih =>
      intro dirs d hnames htree hstraight hthere hplaces
      have hjoin : dirs ++ name :: names = (dirs ++ [name]) ++ names := by simp
      rw [hjoin] at hnames htree hplaces ⊢
      have hdirsNames : ∀ s ∈ dirs ++ [name], FileName s := fun s hs =>
        hnames s (List.mem_append_left _ hs)
      obtain ⟨hmade, hdisk⟩ := mkdir_made hserves hdirectory hstraight
        (fun s hs => hdirsNames s (List.mem_append_left _ hs))
        (hdirsNames name (List.mem_append_right _ (List.mem_singleton_self _)))
        (htree _ (List.prefix_append ..)) (hthere dirs (List.prefix_refl _))
        (hplaces _ (List.prefix_append ..))
      rw [directoryPaths, List.foldl_cons, ← withSlash_concat]
      have hupdate : ∀ names', start.after
          (d.mkdir fs (directory ++ str "/" ++ (withSlash dirs ++ name))).events
            (place directory names') =
          if names' = dirs ++ [name] then some .directory
          else start.after d.events (place directory names') := by
        intro names'
        rw [hdisk, update_place]
      have hrest := ih hnames htree hmade ?_ ?_
      · refine ⟨hrest.1, fun names' => ?_⟩
        rw [hrest.2 names', hupdate names']
        split_ifs with hpre hsame
        · rfl
        · exact absurd (hsame ▸ List.prefix_append ..) hpre
        · rfl
      · intro pre hpre
        rw [hupdate]
        split_ifs with hsame
        · rfl
        · exact hthere pre ((List.prefix_concat_iff.mp hpre).resolve_left hsame)
      · intro pre hpre
        rw [hupdate]
        split_ifs with hsame
        · exact .inr rfl
        · exact hplaces pre hpre

/-- `createdir` makes the directories of a path. -/
theorem createdir_makes (hserves : Serves fs directory start tree)
    (hdirectory : (0 : UInt8) ∉ directory)
    (hstraight : Straight directory start (IsIn tree) d.events) {dirs : List Bytes}
    (hdirs : ∀ s ∈ dirs, FileName s) (htree : ∀ pre, pre <+: dirs → tree pre = some .directory)
    (hroot : start.after d.events (outputLocation directory) = some .directory)
    (hplaces : ∀ pre, pre <+: dirs → start.after d.events (place directory pre) = none ∨
      start.after d.events (place directory pre) = some .directory) :
    Straight directory start (IsIn tree) (createdir fs (withSlash dirs) directory d).events ∧
      ∀ names, start.after (createdir fs (withSlash dirs) directory d).events
          (place directory names) =
        if names <+: dirs then some .directory else start.after d.events (place directory names) := by
  have hthere : ∀ pre, pre <+: [] → start.after d.events (place directory pre) = some .directory := by
    intro pre hpre
    rw [List.prefix_nil.mp hpre]
    exact hroot
  have hbelow : ∀ pre, pre <+: [] ++ dirs → tree pre = some .directory := htree
  rw [createdir_eq, map_slashPositions_withSlash hdirs]
  exact makes_directories hserves hdirectory hdirs hbelow hstraight hthere hplaces

end Run

/-! ## Entries -/

/-- What is to be at the path of an entry. -/
def Entry.node (symlinkdump : Bool) (entry : Entry) : Node :=
  match entry.kind with
  | .item data => .file data
  | .redirect target mimetype =>
      if symlinkdump = false ∧ mimetype = str "text/html" then
        .file (httpRedirectHtml (computeRelativePath entry.path target))
      else .link (cStr (computeRelativePath entry.path target))

/-- What is to be below the output directory: the entries at their paths, and the
directories on these. -/
def shown (symlinkdump : Bool) (entries : List Entry) (names : List Bytes) : Option Node :=
  match entries.find? fun entry => segments entry.path = names with
  | some entry => some (entry.node symlinkdump)
  | none =>
      if names = [] ∨ ∃ entry ∈ entries, names <+: dirsOf entry.path then some .directory else none

/-- Neither path is that of the other entry, or below it. -/
def Apart (a b : Entry) : Prop :=
  ¬ segments a.path <+: segments b.path ∧ ¬ segments b.path <+: segments a.path

instance (a b : Entry) : Decidable (Apart a b) := inferInstanceAs (Decidable (_ ∧ _))

def Separate (entries : List Entry) : Prop := entries.Pairwise Apart

instance (entries : List Entry) : Decidable (Separate entries) :=
  inferInstanceAs (Decidable (List.Pairwise _ entries))

theorem Separate.apart {entries : List Entry} (h : Separate entries) {a b : Entry}
    (ha : a ∈ entries) (hb : b ∈ entries) (hne : a ≠ b) : Apart a b := by
  have : Std.Symm Apart := ⟨fun _ _ hab => ⟨hab.2, hab.1⟩⟩
  exact h.forall ha hb hne

/-- A path of names that files can have. -/
def Storable (entry : Entry) : Prop := ∀ s ∈ segments entry.path, FileName s

instance (entry : Entry) : Decidable (Storable entry) :=
  inferInstanceAs (Decidable (∀ s ∈ segments entry.path, FileName s))

theorem outputCall_node (directory relativePath : Bytes) (symlinkdump : Bool) (entry : Entry) :
    (outputCall directory symlinkdump entry relativePath).node = entry.node symlinkdump := by
  rw [outputCall, Entry.node]
  cases entry.kind with
  | item data => rfl
  | redirect target mimetype =>
      dsimp only
      split <;> rfl

theorem splitPath_dir (path : Bytes) : (splitPath path).1 = withSlash (dirsOf path) := by
  obtain ⟨hsegments, -⟩ := splitPath_segments path
  obtain ⟨hpath, -, -⟩ := splitPath_spec path
  have hjoin := withSlash_segments path
  rw [hsegments, withSlash_concat] at hjoin
  have htext : withSlash (dirsOf path) ++ (splitPath path).2 =
      (splitPath path).1 ++ (splitPath path).2 :=
    (List.append_cancel_right hjoin).trans hpath
  exact (List.append_cancel_right htext).symm

theorem segments_withSlash {dirs : List Bytes} (hdirs : ∀ s ∈ dirs, char '/' ∉ s) :
    segments (withSlash dirs) = dirs ++ [[]] := by
  induction dirs with
  | nil => rfl
  | cons s dirs ih =>
      obtain ⟨hs, hdirs⟩ := List.forall_mem_cons.mp hdirs
      have hcons : withSlash (s :: dirs) = s ++ char '/' :: withSlash dirs := by
        simp [withSlash, str]
      rw [hcons, segments_append, ih hdirs, segments_of_notMem hs]
      rfl

/-- Paths with the same directory part have the same directories. -/
theorem dirsOf_congr {path path' : Bytes} (h : (splitPath path).1 = (splitPath path').1) :
    dirsOf path = dirsOf path' := by
  have hslash : ∀ path, ∀ s ∈ dirsOf path, char '/' ∉ s := fun path s hs =>
    notMem_of_mem_splitOn (List.dropLast_subset _ hs)
  have hsegments := congrArg segments h
  rw [splitPath_dir, splitPath_dir, segments_withSlash (hslash path),
    segments_withSlash (hslash path')] at hsegments
  exact List.append_cancel_right hsegments

theorem writeEntry_done {fs : FileSystem} {directory relativePath : Bytes} {symlinkdump : Bool}
    {entry : Entry} {d : Dump}
    (h : fs d.events (outputCall directory symlinkdump entry relativePath) = .done) :
    writeEntry fs directory symlinkdump entry relativePath d =
      { d with events := d.events ++ [(outputCall directory symlinkdump entry relativePath, .done)] } := by
  rw [outputCall] at h ⊢
  rw [writeEntry]
  cases hkind : entry.kind with
  | item data =>
      rw [hkind] at h
      simp only [writeToFile, Dump.outcome, Dump.perform, h, if_true]
  | redirect target mimetype =>
      rw [hkind] at h
      dsimp only at h ⊢
      by_cases hpage : symlinkdump = false ∧ mimetype = str "text/html"
      · rw [if_pos hpage] at h ⊢
        simp only [writeHttpRedirect, writeToFile, Dump.outcome, Dump.perform, h, if_true, if_pos hpage]
      · rw [if_neg hpage] at h ⊢
        simp only [Dump.outcome, Dump.perform, h, if_true, if_neg hpage]

/-! ## The run -/

section Shown

variable {symlinkdump : Bool} {entries : List Entry} {entry : Entry} {names : List Bytes}

theorem segments_eq_dirsOf (path : Bytes) : segments path = dirsOf path ++ [(splitPath path).2] :=
  (splitPath_segments path).1

theorem find?_eq_none_of_below (hapart : ∀ a ∈ entries, Apart a entry)
    (hbelow : names <+: segments entry.path) :
    (entries.find? fun entry => segments entry.path = names) = none := by
  rw [List.find?_eq_none]
  intro a ha hsame
  exact (hapart a ha).1 (of_decide_eq_true hsame ▸ hbelow)

theorem shown_nil : shown symlinkdump entries [] = some .directory := by
  have hnone : (entries.find? fun entry => segments entry.path = []) = none :=
    List.find?_eq_none.mpr fun a _ hsame => segments_ne_nil a.path (of_decide_eq_true hsame)
  rw [shown, hnone]
  exact if_pos (.inl rfl)

theorem segments_inj {path path' : Bytes} (h : segments path = segments path') : path = path' := by
  have htext := congrArg withSlash h
  rw [withSlash_segments, withSlash_segments] at htext
  exact List.append_cancel_right htext

theorem shown_of_mem (hnodup : (entries.map Entry.path).Nodup) (hentry : entry ∈ entries) :
    shown symlinkdump entries (segments entry.path) = some (entry.node symlinkdump) := by
  rw [shown]
  cases hfind : entries.find? fun a => segments a.path = segments entry.path with
  | none => exact absurd (decide_eq_true rfl) (List.find?_eq_none.mp hfind entry hentry)
  | some a =>
      have hpath : a.path = entry.path :=
        segments_inj (of_decide_eq_true (List.find?_some hfind :))
      rw [List.inj_on_of_nodup_map hnodup (List.mem_of_find?_eq_some hfind) hentry hpath]

/-- The directories of an entry are not taken by another one. -/
theorem shown_dir (hapart : ∀ a ∈ entries, Apart a entry) (hdir : names <+: dirsOf entry.path) :
    shown symlinkdump entries names = none ∨
      shown symlinkdump entries names = some .directory := by
  have hbelow : names <+: segments entry.path :=
    hdir.trans (segments_eq_dirsOf entry.path ▸ List.prefix_append ..)
  rw [shown, find?_eq_none_of_below hapart hbelow]
  dsimp only
  split_ifs
  · exact .inr rfl
  · exact .inl rfl

/-- Nothing is at the path of an entry before it is dumped. -/
theorem shown_path (hapart : ∀ a ∈ entries, Apart a entry) :
    shown symlinkdump entries (segments entry.path) = none := by
  rw [shown, find?_eq_none_of_below hapart (List.prefix_refl _)]
  refine if_neg ?_
  rintro (hnil | ⟨a, ha, hdir⟩)
  · exact segments_ne_nil _ hnil
  · exact (hapart a ha).2 (hdir.trans (segments_eq_dirsOf a.path ▸ List.prefix_append ..))

/-- What is to be there with one more entry. -/
theorem shown_concat (hapart : ∀ a ∈ entries, Apart a entry) :
    shown symlinkdump (entries ++ [entry]) names =
      if names = segments entry.path then some (entry.node symlinkdump)
      else if names <+: dirsOf entry.path then some .directory
      else shown symlinkdump entries names := by
  rw [shown, List.find?_append, List.find?_singleton]
  by_cases hsame : names = segments entry.path
  · subst hsame
    rw [find?_eq_none_of_below hapart (List.prefix_refl _), if_pos rfl, Option.none_or,
      if_pos (decide_eq_true rfl)]
  · have hother : ¬ decide (segments entry.path = names) = true := fun h =>
      hsame (of_decide_eq_true h).symm
    rw [if_neg hsame, if_neg hother, Option.or_none, shown]
    by_cases hdir : names <+: dirsOf entry.path
    · have hbelow : names <+: segments entry.path :=
        hdir.trans (segments_eq_dirsOf entry.path ▸ List.prefix_append ..)
      rw [if_pos hdir, find?_eq_none_of_below hapart hbelow]
      exact if_pos (.inr ⟨entry, List.mem_append_right _ (List.mem_singleton_self _), hdir⟩)
    · rw [if_neg hdir]
      simp only [List.mem_append, List.mem_singleton, or_and_right, exists_or, exists_eq_left, hdir,
        or_false]

theorem Separate.nodup (h : Separate entries) : (entries.map Entry.path).Nodup := by
  refine List.pairwise_map.mpr (List.Pairwise.imp ?_ h)
  intro a b hapart hpath
  exact hapart.1 (hpath ▸ List.prefix_refl _)

/-- Where the entries are apart, there are directories on the path of each. -/
theorem shown_dirsOf (hseparate : Separate entries) (hentry : entry ∈ entries)
    (hdir : names <+: dirsOf entry.path) :
    shown symlinkdump entries names = some .directory := by
  have hnone : (entries.find? fun a => segments a.path = names) = none := by
    refine List.find?_eq_none.mpr fun a ha hsame => ?_
    have hbelow : segments a.path <+: dirsOf entry.path := of_decide_eq_true hsame ▸ hdir
    by_cases heq : a = entry
    · have hlength := hbelow.length_le
      rw [heq, segments_eq_dirsOf, List.length_append, List.length_singleton] at hlength
      omega
    · exact (hseparate.apart ha hentry heq).1
        (hbelow.trans (segments_eq_dirsOf entry.path ▸ List.prefix_append ..))
  rw [shown, hnone]
  exact if_pos (.inr ⟨entry, hentry, hdir⟩)

end Shown

/-- An entry is in a tree, with the directories on its path. -/
structure Entry.InTree (tree : List Bytes → Option Node) (symlinkdump : Bool) (entry : Entry) :
    Prop where
  dirs : ∀ names, names <+: dirsOf entry.path → tree names = some .directory
  path : tree (segments entry.path) = some (entry.node symlinkdump)

/-- Where a dump is when it has dumped some entries. -/
structure Dumped (directory : Bytes) (start : Disk) (tree : List Bytes → Option Node)
    (symlinkdump : Bool) (entries : List Entry) (d : Dump) : Prop where
  error : d.error = none
  straight : Straight directory start (IsIn tree) d.events
  disk : ∀ names, start.after d.events (place directory names) = shown symlinkdump entries names
  pathcache : ∀ dir ∈ d.pathcache, ∃ entry ∈ entries, (splitPath entry.path).1 = dir

section Run

variable {fs : FileSystem} {directory : Bytes} {start : Disk} {tree : List Bytes → Option Node}
  {symlinkdump : Bool} {entries : List Entry} {d : Dump}

theorem FileName.of_dir {entry : Entry} (hstorable : Storable entry) :
    (∀ s ∈ dirsOf entry.path, FileName s) ∧ FileName (splitPath entry.path).2 := by
  rw [Storable, segments_eq_dirsOf, List.forall_mem_append, List.forall_mem_singleton] at hstorable
  exact hstorable

/-- The file name is kept. -/
theorem relativePath_of_storable {entry : Entry} (hstorable : Storable entry) :
    d.relativePath entry = entry.path := by
  rw [Dump.relativePath, truncated_of_le (FileName.of_dir hstorable).2.2.2.2]
  exact (splitPath_spec entry.path).1.symm

theorem locate_path (hdirectory : (0 : UInt8) ∉ directory) {entry : Entry}
    (hstorable : Storable entry) :
    locate (cStr (directory ++ str "/" ++ entry.path)) = place directory (segments entry.path) := by
  obtain ⟨hdirs, hname⟩ := FileName.of_dir hstorable
  have hpath : entry.path = withSlash (dirsOf entry.path) ++ (splitPath entry.path).2 := by
    rw [← splitPath_dir]
    exact (splitPath_spec entry.path).1
  rw [segments_eq_dirsOf]
  conv_lhs => rw [hpath]
  exact locate_names hdirectory hdirs hname

/-- The directories of an entry are there when it is written. -/
theorem Dumped.createDirsOnce (h : Dumped directory start tree symlinkdump entries d)
    (hserves : Serves fs directory start tree) (hdirectory : (0 : UInt8) ∉ directory)
    {entry : Entry} (htree : entry.InTree tree symlinkdump) (hstorable : Storable entry)
    (hapart : ∀ a ∈ entries, Apart a entry) :
    Straight directory start (IsIn tree)
        (createDirsOnce fs directory (splitPath entry.path).1 d).events ∧
      (∀ names, start.after (createDirsOnce fs directory (splitPath entry.path).1 d).events
          (place directory names) =
        if names <+: dirsOf entry.path then some .directory
        else shown symlinkdump entries names) ∧
      ∀ dir ∈ (createDirsOnce fs directory (splitPath entry.path).1 d).pathcache,
        ∃ a ∈ entries ++ [entry], (splitPath a.path).1 = dir := by
  have hcache : ∀ dir ∈ d.pathcache, ∃ a ∈ entries ++ [entry], (splitPath a.path).1 = dir := by
    intro dir hdir
    obtain ⟨a, ha, hsame⟩ := h.pathcache dir hdir
    exact ⟨a, List.mem_append_left _ ha, hsame⟩
  rw [Dump.createDirsOnce]
  split
  · next hskip =>
      refine ⟨h.straight, fun names => ?_, hcache⟩
      rw [h.disk]
      split_ifs with hdir
      · have hbelow : names <+: segments entry.path :=
          hdir.trans (segments_eq_dirsOf entry.path ▸ List.prefix_append ..)
        rw [shown, find?_eq_none_of_below hapart hbelow]
        refine if_pos ?_
        rcases Bool.or_eq_true_iff.mp hskip with hempty | hcached
        · rw [splitPath_dir, List.isEmpty_iff, withSlash_eq_nil_iff] at hempty
          rw [hempty] at hdir
          exact .inl (List.prefix_nil.mp hdir)
        · obtain ⟨a, ha, hsame⟩ := h.pathcache _ (List.contains_iff_mem.mp hcached)
          exact .inr ⟨a, ha, dirsOf_congr hsame ▸ hdir⟩
      · rfl
  · obtain ⟨hstraight, hdisk⟩ := createdir_makes hserves hdirectory h.straight
      (FileName.of_dir hstorable).1 htree.dirs ((h.disk []).trans shown_nil) fun pre hpre => by
        rw [h.disk]
        exact shown_dir hapart hpre
    obtain ⟨events, hkeeps⟩ := createdir_keeps fs (splitPath entry.path).1 directory d
    rw [← splitPath_dir] at hstraight hdisk
    refine ⟨hstraight, fun names => (hdisk names).trans (by rw [h.disk]), fun dir hdir => ?_⟩
    dsimp only at hdir
    rw [hkeeps] at hdir
    rcases List.mem_append.mp hdir with hdir | hdir
    · exact hcache dir hdir
    · exact ⟨entry, List.mem_append_right _ (List.mem_singleton_self _),
        (List.mem_singleton.mp hdir).symm⟩

/-- An entry is dumped at its path. -/
theorem Dumped.dumpEntry (h : Dumped directory start tree symlinkdump entries d)
    (hserves : Serves fs directory start tree) (hdirectory : (0 : UInt8) ∉ directory)
    {entry : Entry} (htree : entry.InTree tree symlinkdump) (hstorable : Storable entry)
    (hapart : ∀ a ∈ entries, Apart a entry) :
    Dumped directory start tree symlinkdump (entries ++ [entry])
      (dumpEntry fs directory symlinkdump d entry) := by
  obtain ⟨-, hname⟩ := FileName.of_dir hstorable
  obtain ⟨hstraight, hdisk, hcache⟩ := h.createDirsOnce hserves hdirectory htree hstorable hapart
  have hnode : tree (segments entry.path) =
      some (outputCall directory symlinkdump entry entry.path).node := by
    rw [outputCall_node]
    exact htree.path
  have hlocate : locate (outputCall directory symlinkdump entry entry.path).path =
      place directory (segments entry.path) :=
    (congrArg locate (outputCall_path ..)).trans (locate_path hdirectory hstorable)
  have hfree : Free directory (start.after (Dump.createDirsOnce fs directory
      (splitPath entry.path).1 d).events) (segments entry.path) := by
    refine ⟨dirsOf entry.path, (splitPath entry.path).2, segments_eq_dirsOf _, hname.2.2.2, ?_, ?_⟩
    · rw [hdisk, if_pos (List.prefix_refl _)]
    · rw [hdisk, if_neg, shown_path hapart]
      intro hdir
      have hlength := hdir.length_le
      rw [segments_eq_dirsOf, List.length_append, List.length_singleton] at hlength
      omega
  have hdone := hserves.free _ _ _ hstraight hlocate hnode hfree
  obtain ⟨count, hentry⟩ := dumpEntry_eq fs directory symlinkdump entry h.error
  rw [hentry, relativePath_of_storable hstorable, writeEntry_done (d := { Dump.createDirsOnce fs directory _ d with
    truncatedFiles := count }) hdone]
  refine ⟨?_, hstraight.made hlocate (.free hfree) hnode, fun names => ?_, hcache⟩
  · exact (createDirsOnce_keeps fs directory _ d).2.trans h.error
  · rw [Disk.after_concat, Disk.apply, hlocate]
    dsimp only
    rw [update_place, outputCall_node, hdisk, shown_concat hapart]

/-- All entries are dumped. -/
theorem Dumped.foldl (hserves : Serves fs directory start tree)
    (hdirectory : (0 : UInt8) ∉ directory) {later : List Entry} :
    ∀ {entries : List Entry} {d : Dump}, Dumped directory start tree symlinkdump entries d →
      (∀ entry ∈ later, entry.InTree tree symlinkdump) → (∀ entry ∈ later, Storable entry) →
      Separate (entries ++ later) →
      Dumped directory start tree symlinkdump (entries ++ later)
        (later.foldl (Dump.dumpEntry fs directory symlinkdump) d) := by
  induction later with
  | nil =>
      intro entries d h _ _ _
      rwa [List.append_nil]
  | cons entry later ih =>
      intro entries d h htree hstorable hseparate
      obtain ⟨htreeEntry, htree⟩ := List.forall_mem_cons.mp htree
      obtain ⟨hentry, hlater⟩ := List.forall_mem_cons.mp hstorable
      have hapart : ∀ a ∈ entries, Apart a entry := fun a ha =>
        (List.pairwise_append.mp hseparate).2.2 a ha entry (List.mem_cons_self ..)
      have hjoin : entries ++ entry :: later = (entries ++ [entry]) ++ later := by simp
      rw [hjoin] at hseparate ⊢
      exact ih (h.dumpEntry hserves hdirectory htreeEntry hentry hapart) htree hlater hseparate

/-- A dump into an empty directory leaves each entry at its path, the directories
on these paths, and nothing else, when no path is that of another entry or below
it. -/
theorem dump_leaves (hserves : Serves fs directory start (shown symlinkdump entries))
    (hdirectory : (0 : UInt8) ∉ directory) (hstorable : ∀ entry ∈ entries, Storable entry) (hseparate : Separate entries)
    (nsfilter : UInt8 → Bool) :
    (dumpFiles fs directory symlinkdump nsfilter entries).error = none ∧
      ∀ names, start.after (dumpFiles fs directory symlinkdump nsfilter entries).events
        (place directory names) = shown symlinkdump entries names := by
  have htree : ∀ entry ∈ entries, entry.InTree (shown symlinkdump entries) symlinkdump :=
    fun entry hentry => ⟨fun _ hdir => shown_dirsOf hseparate hentry hdir,
      shown_of_mem hseparate.nodup hentry⟩
  have hopened : Dumped directory start (shown symlinkdump entries) symlinkdump []
      (Dump.mkdir fs ⟨[], [], 0, none⟩ directory) := by
    refine ⟨rfl, .first hserves.first hserves.empty, fun names => ?_, nofun⟩
    by_cases hroot : names = []
    · subst hroot
      exact hserves.first.trans shown_nil.symm
    · rw [shown, if_neg]
      · exact hserves.empty names hroot
      · rintro (hnil | ⟨_, ⟨⟩, -⟩)
        exact hroot hnil
  have hdumped := hopened.foldl hserves hdirectory htree hstorable hseparate
  exact ⟨hdumped.error, hdumped.disk⟩

end Run

/-! ## Entries below one another -/

section Straight

variable {fs : FileSystem} {directory : Bytes} {start : Disk} {events : List Event}
  {wanted : List Bytes → Node → Prop} {tree : List Bytes → Option Node}

theorem Allowed.ne_directory {disk : Disk} {c : Call} {names : List Bytes}
    (h : Allowed directory disk c names) : disk (place directory names) ≠ some .directory := by
  cases h with
  | free hfree =>
      obtain ⟨_, _, _, _, _, hnone⟩ := hfree
      rw [hnone]
      exact Option.some_ne_none _ ∘ Eq.symm
  | overwrite _ _ hne => exact hne

/-- A call that was allowed leaves the other places as they are. -/
theorem after_made {c : Call} {o : Outcome} {names names' : List Bytes}
    (hlocate : locate c.path = place directory names) (hne : names' ≠ names) :
    start.after (events ++ [(c, o)]) (place directory names') =
      start.after events (place directory names') := by
  rw [Disk.after_concat, Disk.apply, hlocate]
  cases o with
  | done => exact (update_place ..).trans (if_neg hne)
  | short => exact (update_place ..).trans (if_neg hne)
  | failed => rfl

theorem Straight.root (h : Straight directory start wanted events) :
    start.after events (place directory []) = some .directory := by
  induction h with
  | first hroot _ => exact hroot
  | failed _ ih =>
      rw [Disk.after_concat]
      exact ih
  | @made events c o names _ hlocate hallowed _ ih =>
      have hne : [] ≠ names := by
        rintro rfl
        exact hallowed.ne_directory ih
      rw [after_made hlocate hne]
      exact ih

/-- Whatever is on the disk is in a directory. -/
theorem Straight.parent (h : Straight directory start wanted events) :
    ∀ dirs name, start.after events (place directory (dirs ++ [name])) ≠ none →
      start.after events (place directory dirs) = some .directory := by
  induction h with
  | first _ hempty =>
      intro dirs name hsome
      exact absurd (hempty _ (List.append_ne_nil_of_right_ne_nil dirs (List.cons_ne_nil _ _))) hsome
  | failed _ ih =>
      intro dirs name hsome
      rw [Disk.after_concat] at hsome ⊢
      exact ih dirs name hsome
  | @made events c o names _ hlocate hallowed _ ih =>
      intro dirs name hsome
      have hdirs : start.after events (place directory dirs) = some .directory := by
        by_cases hsame : dirs ++ [name] = names
        · subst hsame
          cases hallowed with
          | free hfree =>
              obtain ⟨dirs', name', hnames, -, hdir, -⟩ := hfree
              rw [List.append_inj_left' hnames rfl]
              exact hdir
          | overwrite _ hthere _ => exact ih dirs name hthere
        · rw [after_made hlocate hsame] at hsome
          exact ih dirs name hsome
      have hne : dirs ≠ names := by
        rintro rfl
        exact hallowed.ne_directory hdirs
      rw [after_made hlocate hne]
      exact hdirs

/-- Above whatever is on the disk there are directories. -/
theorem Straight.above (h : Straight directory start wanted events) {dirs below : List Bytes}
    (hbelow : below ≠ []) (hsome : start.after events (place directory (dirs ++ below)) ≠ none) :
    start.after events (place directory dirs) = some .directory := by
  induction below using List.reverseRecOn with
  | nil => exact absurd rfl hbelow
  | append_singleton below name ih =>
      rw [← List.append_assoc] at hsome
      have hparent := h.parent _ _ hsome
      cases below with
      | nil => rwa [List.append_nil] at hparent
      | cons s below =>
          refine ih (List.cons_ne_nil _ _) ?_
          rw [hparent]
          exact Option.some_ne_none _

/-- A call below the output directory that makes no link. -/
def Within (directory : Bytes) (c : Call) : Prop :=
  c.isLink = false ∧ ∃ names, locate c.path = place directory names

/-- Calls without links are made in directories. -/
theorem straight_of_adds (hserves : Serves fs directory start tree) {events' : List Event}
    (h : Adds fs (Within directory) events events')
    (hstraight : Straight directory start (fun _ _ => True) events)
    (hlinks : ∀ ev ∈ events, ev.1.isLink = false) :
    Straight directory start (fun _ _ => True) events' ∧ ∀ ev ∈ events', ev.1.isLink = false := by
  induction h with
  | refl => exact ⟨hstraight, hlinks⟩
  | @snoc events' c _ hc ih =>
      obtain ⟨hstraight', hlinks'⟩ := ih
      obtain ⟨hlink, names, hlocate⟩ := hc
      refine ⟨?_, fun ev hev => ?_⟩
      · rcases hserves.allowed _ c names hstraight' hlinks' hlocate with hfailed | hallowed
        · rw [hfailed]
          exact .failed hstraight'
        · exact .made hstraight' hlocate hallowed trivial
      · rcases List.mem_append.mp hev with hev | hev
        · exact hlinks' ev hev
        · rw [List.mem_singleton.mp hev]
          exact hlink

end Straight

section Below

variable {fs : FileSystem} {directory : Bytes} {start : Disk} {tree : List Bytes → Option Node}
  {symlinkdump : Bool}

theorem mem_directoryPaths {path : Bytes} : ∀ {dirs names : List Bytes},
    path ∈ directoryPaths (withSlash dirs) names →
      ∃ pre name, path = withSlash pre ++ name ∧ pre ++ [name] <+: dirs ++ names
  | dirs, [], h => nomatch h
  | dirs, name :: names, h => by
      rw [directoryPaths, ← withSlash_concat] at h
      rcases List.mem_cons.mp h with rfl | h
      · exact ⟨dirs, name, rfl, List.prefix_append_right_inj _ |>.mpr (List.prefix_append [name] _)⟩
      · obtain ⟨pre, name', hpath, hpre⟩ := mem_directoryPaths h
        rw [List.append_assoc] at hpre
        exact ⟨pre, name', hpath, hpre⟩

/-- An entry that is no link is written as a file. -/
theorem writeEntry_eq_writeToFile {entry : Entry}
    (hfile : ∀ target, entry.node symlinkdump ≠ .link target) :
    ∃ data, ∀ relativePath d, writeEntry fs directory symlinkdump entry relativePath d =
      writeToFile fs (directory ++ str "/") relativePath data d := by
  obtain ⟨path, kind, noNul⟩ := entry
  cases kind with
  | item data => exact ⟨data, fun _ _ => rfl⟩
  | redirect target mimetype =>
      by_cases hpage : symlinkdump = false ∧ mimetype = str "text/html"
      · exact ⟨httpRedirectHtml (computeRelativePath path target), fun _ _ => if_pos hpage⟩
      · exact absurd (if_neg hpage) (hfile _)

theorem within_directories (hdirectory : (0 : UInt8) ∉ directory) {dirs : List Bytes}
    (hdirs : ∀ s ∈ dirs, FileName s) (d : Dump) :
    Adds fs (Within directory) d.events (createdir fs (withSlash dirs) directory d).events := by
  refine adds_createdir (fun p hp => ?_) d
  have hmem : substr (withSlash dirs) 0 p ∈ directoryPaths (withSlash []) dirs := by
    rw [withSlash_nil, ← map_slashPositions_withSlash hdirs]
    exact List.mem_map_of_mem hp
  obtain ⟨pre, name, hpath, hpre⟩ := mem_directoryPaths hmem
  have hnames : ∀ s ∈ pre ++ [name], FileName s := fun s hs => hdirs s (hpre.subset hs)
  rw [hpath]
  exact ⟨rfl, _, locate_names hdirectory (fun s hs => hnames s (List.mem_append_left _ hs))
    (hnames name (List.mem_append_right _ (List.mem_singleton_self _)))⟩

theorem within_errors (hdirectory : (0 : UInt8) ∉ directory) {relpath : Bytes}
    (hrelpath : (0 : UInt8) ∉ relpath) (content : Bytes) (d : Dump) :
    Adds fs (Within directory) d.events
      (writeToErrorDirectory fs (directory ++ str "/") relpath content d).events := by
  have hexceptions : pathMoves (str "_exceptions") = [.down (str "_exceptions")] := by decide
  refine adds_writeToErrorDirectory ⟨rfl, [str "_exceptions"], ?_⟩
    (fun _ => ⟨rfl, ?_⟩) content d
  · have hmoves : pathMoves (str "/_exceptions") = [.stay, .down (str "_exceptions")] := by decide
    show locate (cStr _) = _
    rw [cStr_below hdirectory (by decide), locate_below, hmoves]
    rfl
  · -- The whole path is one segment there.
    obtain ⟨hnul, -⟩ := descending_escaped hrelpath
    have hslash : char '/' ∉ escapeSlashes relpath := by
      intro hmem
      obtain ⟨c, -, hc⟩ := List.mem_flatMap.mp hmem
      split at hc
      · revert hc
        decide
      · next hne => exact hne (List.mem_singleton.mp hc).symm
    have hjoin : str "_exceptions/" ++ escapeSlashes relpath =
        str "_exceptions" ++ char '/' :: escapeSlashes relpath := rfl
    have hwalk : locate (cStr (directory ++ str "/" ++ (str "_exceptions/" ++ escapeSlashes relpath))) =
        (place directory [str "_exceptions"]).move (segmentMove (escapeSlashes relpath)) := by
      rw [cStr_below hdirectory hnul, locate_below, hjoin, pathMoves_append, hexceptions,
        pathMoves_of_notMem hslash]
      rfl
    show ∃ names, locate (cStr _) = _
    rw [hwalk]
    cases segmentMove (escapeSlashes relpath) with
    | stay => exact ⟨_, rfl⟩
    | up => exact ⟨[], parent_place directory [] _⟩
    | down name => exact ⟨[str "_exceptions", name], rfl⟩

/-- No call for an entry that is no link makes one, or leaves the output directory. -/
theorem within_dumpEntry (hdirectory : (0 : UInt8) ∉ directory) {entry : Entry}
    (hstorable : Storable entry) (hfile : ∀ target, entry.node symlinkdump ≠ .link target)
    (d : Dump) :
    Adds fs (Within directory) d.events (dumpEntry fs directory symlinkdump d entry).events := by
  cases herror : d.error with
  | some message =>
      rw [Dump.dumpEntry, herror]
      exact .refl
  | none =>
      obtain ⟨hdirs, hname⟩ := FileName.of_dir hstorable
      obtain ⟨count, hentry⟩ := dumpEntry_eq fs directory symlinkdump entry herror
      obtain ⟨data, hwrite⟩ := @writeEntry_eq_writeToFile fs directory symlinkdump entry hfile
      rw [hentry, hwrite, relativePath_of_storable hstorable, splitPath_dir]
      refine (adds_createDirsOnce (within_directories hdirectory hdirs) d).trans ?_
      have hcall : Within directory (.openWrite (cStr (directory ++ str "/" ++ entry.path)) data) :=
        ⟨rfl, segments entry.path, locate_path hdirectory hstorable⟩
      have hopen := adds_perform fs { Dump.createDirsOnce fs directory (withSlash (dirsOf entry.path)) d
        with truncatedFiles := count } hcall
      rw [writeToFile]
      split
      · exact hopen
      · exact hopen.trans (within_errors hdirectory entry.noNul data _)

/-- A dump without links makes everything in directories. -/
theorem straight_dumpFiles (hserves : Serves fs directory start tree)
    (hdirectory : (0 : UInt8) ∉ directory) {entries : List Entry} (hstorable : ∀ entry ∈ entries, Storable entry)
    (hfile : ∀ entry ∈ entries, ∀ target, entry.node symlinkdump ≠ .link target)
    (nsfilter : UInt8 → Bool) :
    Straight directory start (fun _ _ => True)
      (dumpFiles fs directory symlinkdump nsfilter entries).events := by
  have hadds : Adds fs (Within directory) (Dump.mkdir fs ⟨[], [], 0, none⟩ directory).events
      (dumpFiles fs directory symlinkdump nsfilter entries).events :=
    adds_foldl (fun d entry hentry =>
      within_dumpEntry hdirectory (hstorable entry hentry) (hfile entry hentry) d) _
  refine (straight_of_adds hserves hadds (.first hserves.first hserves.empty) fun ev hev => ?_).1
  rw [List.mem_singleton.mp hev]
  rfl

theorem node_ne_directory (symlinkdump : Bool) (entry : Entry) :
    entry.node symlinkdump ≠ .directory := by
  rw [Entry.node]
  cases entry.kind with
  | item data => exact nofun
  | redirect target mimetype =>
      dsimp only
      split <;> exact nofun

end Below

/-! ## A file system -/

/-- A file system without links on the way to a place, from the disk before the
first call. -/
def treeFileSystem (start : Disk) : FileSystem := fun events c =>
  match start.after events (locate c.path), c with
  | none, c =>
      if start.after events (locate c.path).parent = some .directory ∧
          ∀ name ∈ (locate c.path).names.getLast?, name.length ≤ 255 then .done
      else .failed
  | some (.file _), .openWrite .. => .done
  | some (.file _), .streamWrite .. => .done
  | some _, _ => .failed

theorem getLast?_place (directory : Bytes) (dirs : List Bytes) (name : Bytes) :
    (place directory (dirs ++ [name])).names.getLast? = some name := by
  rw [place, Location.walk_downs, ← List.append_assoc, List.getLast?_concat]

theorem treeFileSystem_taken {start : Disk} {events : List Event} {path : Bytes} {node : Node}
    (h : start.after events (locate path) = some node) :
    treeFileSystem start events (.mkdir path) = .failed := by
  have hlocate : start.after events (locate (Call.mkdir path).path) = some node := h
  unfold treeFileSystem
  rw [hlocate]
  cases node <;> rfl

theorem treeFileSystem_serves {directory : Bytes} {start : Disk} {tree : List Bytes → Option Node}
    (hlocate : locate (cStr directory) = outputLocation directory)
    (hroot : start (outputLocation directory) = some .directory)
    (hempty : ∀ names, names ≠ [] → start (place directory names) = none) :
    Serves (treeFileSystem start) directory start tree := by
  have hfirst : treeFileSystem start [] (.mkdir (cStr directory)) = .failed :=
    treeFileSystem_taken ((congrArg start hlocate).trans hroot)
  refine ⟨by rw [hfirst]; exact hroot, by rw [hfirst]; exact hempty, ?_, ?_, ?_⟩
  · rintro events c names - hc - ⟨dirs, name, rfl, hname, hdir, hnone⟩
    have hroom : start.after events (place directory (dirs ++ [name])).parent = some .directory ∧
        ∀ name' ∈ (place directory (dirs ++ [name])).names.getLast?, name'.length ≤ 255 := by
      rw [parent_place, getLast?_place]
      refine ⟨hdir, fun name' hname' => ?_⟩
      cases hname'
      exact hname
    unfold treeFileSystem
    rw [hc, hnone]
    dsimp only
    rw [hc]
    exact if_pos hroom
  · intro events path names _ hpath hsome
    obtain ⟨node, hnode⟩ := Option.ne_none_iff_exists'.mp hsome
    exact treeFileSystem_taken ((congrArg _ hpath).trans hnode)
  · intro events c names hstraight _ hc
    unfold treeFileSystem
    rw [hc]
    cases hnode : start.after events (place directory names) with
    | none =>
        dsimp only
        split
        · next hroom =>
            obtain ⟨dirs, name, rfl⟩ : ∃ dirs name, names = dirs ++ [name] := by
              rcases List.eq_nil_or_concat' names with rfl | hnames
              · rw [hstraight.root] at hnode
                cases hnode
              · exact hnames
            rw [hc, parent_place, getLast?_place] at hroom
            exact .inr (.free ⟨dirs, name, rfl, hroom.2 name rfl, hroom.1, hnode⟩)
        · exact .inl rfl
    | some node =>
        cases node with
        | file data =>
            cases c with
            | openWrite path _ =>
                exact .inr (.overwrite rfl (by rw [hnode]; exact nofun) (by rw [hnode]; exact nofun))
            | streamWrite path _ =>
                exact .inr (.overwrite rfl (by rw [hnode]; exact nofun) (by rw [hnode]; exact nofun))
            | _ => exact .inl rfl
        | _ => exact .inl rfl

/-- The disk with an empty directory. -/
def emptyDirectory (directory : Bytes) : Disk := fun loc =>
  if loc = outputLocation directory then some .directory else none

/-- A page in a directory, and a redirect to it. -/
def sampleEntries : List Entry :=
  [⟨str "a/b.html", .item (str "x"), by decide⟩,
    ⟨str "c", .redirect (str "a/b.html") (str "text/html"), by decide⟩]

end ZimTools.Zimdump
