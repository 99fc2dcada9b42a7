import Mathlib.Data.List.DropRight
import ZimTools.Tools.RelativeSegments
import ZimTools.Zimwriterfs.Redirects

/-!
# Inside of the HTML directory

`zimwriterfs` reads the files of a directory and must not write its archive into
the same.  It follows a symbolic link only to a file inside of it.  Both tests
compare the texts of two canonical paths, and only the second one asks for the
slash behind the directory.

So the first test takes a directory whose name goes on behind that of the HTML
directory for one inside of it.  For all other paths the tests agree with each
other and with the names of the paths (`agrees_iff`).
-/

namespace ZimTools.Zimwriterfs

open Bytes

/-! ## Canonical paths -/

/-- A name in a directory. -/
def IsName (s : Bytes) : Prop :=
  s ≠ [] ∧ s ≠ str "." ∧ s ≠ str ".." ∧ char '/' ∉ s ∧ 0 ∉ s

instance (s : Bytes) : Decidable (IsName s) := inferInstanceAs (Decidable (_ ∧ _))

/-- An absolute path as `realpath` gives it. -/
@[ext] structure CanonicalPath where
  names : List Bytes
  isName : ∀ s ∈ names, IsName s

namespace CanonicalPath

def text (p : CanonicalPath) : Bytes :=
  if p.names = [] then str "/" else p.names.flatMap (char '/' :: ·)

end CanonicalPath

/-- What the program asks of the operating system.  An error is its text. -/
structure FileSystem where
  realpath : Bytes → Except Bytes CanonicalPath
  isDirectory : Bytes → Bool

/-- `dirname` of the C library. -/
def dirname (path : Bytes) : Bytes :=
  let stripped := path.rdropWhile (· == char '/')
  if stripped = [] then if path = [] then str "." else str "/"
  else
    let dir := stripped.rdropWhile (· != char '/')
    if dir = [] then str "."
    else
      let dir := dir.rdropWhile (· == char '/')
      if dir = [] then str "/" else dir

/-- `MAXPATHLEN`. -/
def maxPathLen : Nat := 4096

/-! ## The two tests -/

structure ZimCreatorFS where
  directoryPath : Bytes
  canonicalBasedir : Bytes

def ZimCreatorFS.new (fs : FileSystem) (directoryPath : Bytes) : Except Bytes ZimCreatorFS :=
  match fs.realpath directoryPath with
  | .error e =>
      .error (str "Unable to canonicalize HTML directory path " ++ directoryPath ++ str ": " ++ e)
  | .ok buf => .ok ⟨directoryPath, buf.text⟩

def insideMessage : Bytes :=
  str ".zim file to create cannot be located inside of source HTML directory"

/-- `create_zim` up to the creation of the file. -/
def createZim (fs : FileSystem) (directoryPath zimPath : Bytes) : Except Bytes ZimCreatorFS := do
  let zimCreator ← ZimCreatorFS.new fs directoryPath
  if zimPath.length ≥ maxPathLen - 1 then throw (str "Target .zim file path is too long")
  let zimdir := dirname zimPath
  match fs.realpath zimdir with
  | .error e =>
      throw (str "Unable to canonicalize target directory of .zim " ++ zimdir ++ str ": " ++ e)
  | .ok buf =>
      if findString buf.text zimCreator.canonicalBasedir 0 = some 0 then throw insideMessage
      pure zimCreator

/-- What becomes of a symbolic link. -/
inductive SymlinkOutcome where
  | skipped (message : Bytes)
  | added (redirect : Redirect)
  /-- `substr` has thrown. -/
  | outOfRange
deriving DecidableEq

def processSymlink (fs : FileSystem) (creator : ZimCreatorFS) (symlinkPath : Bytes) :
    SymlinkOutcome :=
  match fs.realpath symlinkPath with
  | .error e => .skipped (str "Unable to resolve symlink " ++ symlinkPath ++ str ": " ++ e)
  | .ok resolved =>
      let resolved := resolved.text
      let size := creator.canonicalBasedir.length
      if fs.isDirectory resolved then
        .skipped (str "Skip symlink " ++ symlinkPath ++ str ": points to a directory")
      else if resolved.take size ≠ creator.canonicalBasedir ∨ resolved[size]? ≠ some (char '/') then
        .skipped (str "Skip symlink " ++ symlinkPath ++ str ": points outside of HTML directory")
      else if symlinkPath.length < creator.directoryPath.length + 1 then .outOfRange
      else
        .added
          { path := symlinkPath.drop (creator.directoryPath.length + 1)
            title := []
            target := resolved.drop (size + 1) }

/-! ## Paths and their texts -/

namespace CanonicalPath

variable {h q : CanonicalPath}

theorem splitOn_flatMap {names : List Bytes} (hnames : ∀ s ∈ names, IsName s) {s : Bytes}
    (hs : char '/' ∉ s) :
    (s ++ names.flatMap (char '/' :: ·)).splitOn (char '/') = s :: names := by
  induction names generalizing s with
  | nil => exact (congrArg _ (List.append_nil s)).trans (List.splitOn_eq_singleton hs)
  | cons t names ih =>
      obtain ⟨ht, hnames⟩ := List.forall_mem_cons.mp hnames
      rw [List.flatMap_cons, List.cons_append, List.splitOn_append_cons_self,
        List.splitOn_eq_singleton hs, ih hnames ht.2.2.2.1]
      rfl

theorem segments_text (hne : q.names ≠ []) : segments q.text = [] :: q.names := by
  rw [text, if_neg hne]
  exact splitOn_flatMap q.isName List.not_mem_nil

/-- The root is the only path that is written as a slash. -/
theorem text_eq_slash_iff : q.text = str "/" ↔ q.names = [] := by
  constructor
  · intro htext
    by_contra hne
    have hsegments := segments_text hne
    rw [htext] at hsegments
    have hnames : q.names = [[]] := (List.cons.inj hsegments).2.symm
    exact (q.isName [] (hnames ▸ List.mem_singleton_self [])).1 rfl
  · exact fun hnil => if_pos hnil

/-- The names of a directory come first in those of the paths inside of it. -/
theorem names_prefix_iff (hroot : h.names ≠ []) :
    h.names <+: q.names ↔ q.text = h.text ∨ ∃ rest, q.text = h.text ++ char '/' :: rest := by
  constructor
  · rintro ⟨below, hbelow⟩
    have hne : q.names ≠ [] := hbelow ▸ List.append_ne_nil_of_left_ne_nil hroot below
    have htext : q.text = h.text ++ below.flatMap (char '/' :: ·) := by
      rw [text, text, if_neg hroot, if_neg hne, ← hbelow, List.flatMap_append]
    cases below with
    | nil => exact .inl (htext.trans (List.append_nil _))
    | cons s below => exact .inr ⟨_, htext⟩
  · intro htext
    have hslash : h.text ≠ str "/" := fun heq => hroot (text_eq_slash_iff.mp heq)
    have hne : q.names ≠ [] := by
      intro hnil
      rw [text_eq_slash_iff.mpr hnil] at htext
      obtain heq | ⟨rest, heq⟩ := htext
      · exact hslash heq.symm
      · -- Only an empty text could be in front of the slash.
        have hlength := congrArg List.length heq
        rw [List.length_append, List.length_cons] at hlength
        have hsegments := segments_text hroot
        have hnil : h.text = [] := List.length_eq_zero_iff.mp (by simp [str] at hlength; omega)
        rw [hnil] at hsegments
        exact hroot (List.cons.inj hsegments).2.symm
    obtain heq | ⟨rest, heq⟩ := htext
    · have hsegments := congrArg segments heq
      rw [segments_text hne, segments_text hroot] at hsegments
      exact (List.cons.inj hsegments).2 ▸ List.prefix_refl _
    · have hsegments := congrArg segments heq
      rw [segments_append, segments_text hne, segments_text hroot] at hsegments
      exact ⟨segments rest, (List.cons.inj hsegments).2.symm⟩

theorem text_inj (htext : q.text = h.text) : q = h := by
  by_cases hroot : h.names = []
  · have hnil : q.names = [] := text_eq_slash_iff.mp (htext.trans (text_eq_slash_iff.mpr hroot))
    exact CanonicalPath.ext (hnil.trans hroot.symm)
  · have hne : q.names ≠ [] := fun hnil =>
      hroot (text_eq_slash_iff.mp (htext.symm.trans (text_eq_slash_iff.mpr hnil)))
    have hsegments := congrArg segments htext
    rw [segments_text hne, segments_text hroot] at hsegments
    exact CanonicalPath.ext (List.cons.inj hsegments).2

end CanonicalPath

/-! ## The agreement of the tests -/

/-- An HTML directory, a path, and calls of the two functions that test it. -/
structure Scene where
  html : CanonicalPath
  path : CanonicalPath
  html_ne_root : html.names ≠ []
  directoryPath : Bytes
  /-- An archive is to be written into the directory at the path. -/
  zimPath : Bytes
  writing : FileSystem
  writing_html : writing.realpath directoryPath = .ok html
  writing_path : writing.realpath (dirname zimPath) = .ok path
  zimPath_lt : zimPath.length < maxPathLen - 1
  /-- A symbolic link in the HTML directory leads to a file at the path. -/
  name : Bytes
  linking : FileSystem
  linking_html : linking.realpath directoryPath = .ok html
  linking_path : linking.realpath (directoryPath ++ char '/' :: name) = .ok path
  linking_file : linking.isDirectory path.text = false

namespace Scene

variable (scene : Scene)

/-- `create_zim` refuses to write into the directory. -/
def Refused : Prop :=
  createZim scene.writing scene.directoryPath scene.zimPath = .error insideMessage

/-- `processSymlink` accepts the file. -/
def Accepted : Prop :=
  ∃ creator redirect, ZimCreatorFS.new scene.linking scene.directoryPath = .ok creator ∧
    processSymlink scene.linking creator (scene.directoryPath ++ char '/' :: scene.name) =
      .added redirect

/-- Both functions mean by inside what the names of the paths say. -/
def Agrees : Prop :=
  (scene.Refused ↔ scene.path = scene.html ∨ scene.Accepted) ∧
    (scene.path = scene.html ∨ scene.Accepted ↔ scene.html.names <+: scene.path.names)

theorem refused_iff : scene.Refused ↔ scene.html.text <+: scene.path.text := by
  have hlength : ¬ scene.zimPath.length ≥ maxPathLen - 1 := Nat.not_le.mpr scene.zimPath_lt
  rw [Refused, createZim, ZimCreatorFS.new, scene.writing_html]
  simp only [scene.writing_path, if_neg hlength, ← findString_eq_zero_iff]
  change (if findString scene.path.text scene.html.text 0 = some 0 then _ else _) = _ ↔ _
  split_ifs with hfind
  · exact iff_of_true rfl hfind
  · refine iff_of_false ?_ hfind
    rintro ⟨⟩

theorem accepted_iff :
    scene.Accepted ↔ ∃ rest, scene.path.text = scene.html.text ++ char '/' :: rest := by
  have hstart : ¬ (scene.directoryPath ++ char '/' :: scene.name).length <
      scene.directoryPath.length + 1 := by
    rw [List.length_append, List.length_cons]
    omega
  have hnew : ∀ creator, ZimCreatorFS.new scene.linking scene.directoryPath = .ok creator ↔
      creator = ⟨scene.directoryPath, scene.html.text⟩ := fun creator => by
    rw [ZimCreatorFS.new, scene.linking_html]
    exact ⟨fun h => (Except.ok.inj h).symm, congrArg Except.ok ∘ Eq.symm⟩
  simp only [Accepted, hnew, exists_and_left, exists_eq_left, processSymlink, scene.linking_path,
    scene.linking_file, Bool.false_eq_true, if_false, if_neg hstart]
  split_ifs with houtside
  · refine iff_of_false (by rintro ⟨redirect, ⟨⟩⟩) ?_
    rintro ⟨rest, hrest⟩
    rw [hrest, List.take_left, List.getElem?_append_right (Nat.le_refl _), Nat.sub_self] at houtside
    exact houtside.elim (· rfl) (· rfl)
  · rw [not_or, not_not, not_not] at houtside
    obtain ⟨htake, hslash⟩ := houtside
    refine iff_of_true ⟨_, rfl⟩ ⟨scene.path.text.drop (scene.html.text.length + 1), ?_⟩
    obtain ⟨hlt, hget⟩ := List.getElem?_eq_some_iff.mp hslash
    calc scene.path.text
        = scene.path.text.take scene.html.text.length ++
            scene.path.text.drop scene.html.text.length := (List.take_append_drop ..).symm
      _ = scene.html.text ++ char '/' :: scene.path.text.drop (scene.html.text.length + 1) := by
          rw [htake, List.drop_eq_getElem_cons hlt, hget]

/-- The functions agree unless the text of the path goes on behind that of the
HTML directory with another byte than a slash. -/
theorem agrees_iff : scene.Agrees ↔
    ¬ ∃ c rest, c ≠ char '/' ∧ scene.path.text = scene.html.text ++ c :: rest := by
  have hinside : scene.path = scene.html ∨ scene.Accepted ↔
      scene.html.names <+: scene.path.names := by
    rw [CanonicalPath.names_prefix_iff scene.html_ne_root, accepted_iff]
    exact or_congr_left ⟨congrArg CanonicalPath.text, CanonicalPath.text_inj⟩
  rw [Agrees, and_iff_left hinside, hinside,
    CanonicalPath.names_prefix_iff scene.html_ne_root, refused_iff]
  constructor
  · rintro h ⟨c, rest, hc, htext⟩
    obtain heq | ⟨rest', heq⟩ := h.mp ⟨c :: rest, htext.symm⟩
    · rw [heq] at htext
      exact List.cons_ne_nil c rest (List.self_eq_append_right.mp htext)
    · have hcons := List.append_cancel_left (htext.symm.trans heq)
      exact hc (List.cons.inj hcons).1
  · intro h
    constructor
    · rintro ⟨t, ht⟩
      cases t with
      | nil => exact .inl (ht.symm.trans (List.append_nil _))
      | cons c t =>
          by_cases hc : c = char '/'
          · exact .inr ⟨t, hc ▸ ht.symm⟩
          · exact absurd ⟨c, t, hc, ht.symm⟩ h
    · rintro (heq | ⟨rest, heq⟩)
      · exact heq ▸ List.prefix_refl _
      · exact heq ▸ List.prefix_append ..

end Scene

/-- The archive is to be written into `/a/bc`, beside the HTML directory `/a/b`. -/
theorem refused_beside :
    let html : CanonicalPath := ⟨[str "a", str "b"], by decide⟩
    let path : CanonicalPath := ⟨[str "a", str "bc"], by decide⟩
    let fs : FileSystem :=
      ⟨fun s => if s = str "b" then .ok html else .ok path, fun _ => false⟩
    let scene : Scene := ⟨html, path, by decide, str "b", str "bc/out.zim", fs, rfl, rfl, by decide,
      str "link", fs, rfl, rfl, rfl⟩
    html.text = str "/a/b" ∧ path.text = str "/a/bc" ∧ scene.Refused ∧ ¬ scene.Agrees := by
  intro html path fs scene
  have hrefused : scene.Refused := scene.refused_iff.mpr (by decide)
  refine ⟨by decide, by decide, hrefused, ?_⟩
  rintro ⟨hagree, hinside⟩
  have hprefix : html.names <+: path.names := hinside.mp (hagree.mp hrefused)
  exact absurd hprefix (by decide)

end ZimTools.Zimwriterfs
