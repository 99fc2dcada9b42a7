import Mathlib.Data.List.TakeWhile
import ZimTools.Std.Decimal
import ZimTools.Tools.RelativePath

/-!
# Dumping the entries of an archive

`ZimDumper::dumpFiles` writes each entry of an archive to a file under the
output directory, at the path of the entry.  It creates the directories of the
path, shortens a file name that is too long, and writes an item as a file and a
redirect as a page or as a symbolic link.

The file system is a function that answers each call, and may look at all calls
before it.  A dump is the list of its calls with their answers.
-/

namespace ZimTools.Zimdump

/-- What an entry is dumped from.  Of a redirect it is the path and the MIME
type of the item it leads to. -/
inductive EntryKind where
  | item (data : Bytes)
  | redirect (target mimetype : Bytes)
deriving DecidableEq, Repr

/-- An entry.  A path in a ZIM file ends at a NUL. -/
structure Entry where
  path : Bytes
  kind : EntryKind
  noNul : (0 : UInt8) ∉ path

/-! ## The file system -/

/-- The calls, each with the path it may create something at.  `openWrite` is
an `open`, a `write` and a `close`, and `streamWrite` is what a `std::ofstream`
does. -/
inductive Call where
  | mkdir (path : Bytes)
  | openWrite (path data : Bytes)
  | streamWrite (path data : Bytes)
  | symlink (target path : Bytes)
deriving DecidableEq, Repr

def Call.path : Call → Bytes
  | .mkdir path => path
  | .openWrite path _ => path
  | .streamWrite path _ => path
  | .symlink _ path => path

/-- `failed` when nothing was created, `short` when the data were not all written. -/
inductive Outcome where
  | done
  | short
  | failed
deriving DecidableEq, Repr

abbrev Event := Call × Outcome

/-- The answer to a call, after the calls before it. -/
abbrev FileSystem := List Event → Call → Outcome

/-! ## Dumping -/

/-- The calls so far, what `dumpFiles` keeps from entry to entry, and the error
it has ended with. -/
structure Dump where
  events : List Event
  pathcache : List Bytes
  truncatedFiles : Nat
  error : Option Bytes

namespace Dump

variable (fs : FileSystem)

def outcome (d : Dump) (c : Call) : Outcome := fs d.events c

/-- A call, whose path ends at its first NUL. -/
def perform (d : Dump) (c : Call) : Dump :=
  { d with events := d.events ++ [(c, d.outcome fs c)] }

def mkdir (d : Dump) (path : Bytes) : Dump := d.perform fs (.mkdir (Bytes.cStr path))

def throw (d : Dump) (message : Bytes) : Dump := { d with error := some message }

/-- The positions `createdir` finds, from the one behind `position` on. -/
def slashPositions (path : Bytes) : Nat → Nat → List Nat
  | 0, _ => []
  | fuel + 1, position =>
      match Bytes.find path (char '/') (position + 1) with
      | none => []
      | some p => p :: slashPositions path fuel p

def createdir (path base : Bytes) (d : Dump) : Dump :=
  (slashPositions path path.length 0).foldl
    (fun d p => d.mkdir fs (base ++ str "/" ++ Bytes.substr path 0 p)) d

/-- Every slash is replaced by its escape. -/
def escapeSlashes (url : Bytes) : Bytes :=
  url.flatMap fun c => if c = char '/' then str "%2f" else [c]

def writeToErrorDirectory (base relpath content : Bytes) (d : Dump) : Dump :=
  let d := createdir fs (str "_exceptions/") base d
  let fullpath := base ++ str "_exceptions/" ++ escapeSlashes relpath
  let c := Call.streamWrite (Bytes.cStr fullpath) content
  let o := d.outcome fs c
  let d := d.perform fs c
  if o = .done then d else d.throw (str "Error writing file to errors dir. " ++ fullpath)

def writeToFile (base path data : Bytes) (d : Dump) : Dump :=
  let c := Call.openWrite (Bytes.cStr (base ++ path)) data
  let o := d.outcome fs c
  let d := d.perform fs c
  if o = .done then d else writeToErrorDirectory fs base path data d

def writeHttpRedirect (directory outputPath redirectPath : Bytes) (d : Dump) : Dump :=
  writeToFile fs (directory ++ str "/") outputPath (httpRedirectHtml redirectPath) d

/-- A file name of at most 255 bytes.  The counter is an `unsigned int`. -/
def truncated (filename : Bytes) (truncatedFiles : Nat) : Bytes × Nat :=
  if filename.length > 255 then
    let count := (truncatedFiles + 1) % UInt32.size
    (Bytes.substr filename 0 (254 - (decimal count).length) ++ str "~" ++ decimal count, count)
  else (filename, truncatedFiles)

/-- The directory part of a path, with its slash, and the file name. -/
def splitPath (path : Bytes) : Bytes × Bytes :=
  match Bytes.findLastOf path (str "/") with
  | none => ([], path)
  | some position => (Bytes.substr path 0 (position + 1), path.drop (position + 1))

/-- The directories of an entry, unless an entry before was in the same one. -/
def createDirsOnce (directory dir : Bytes) (d : Dump) : Dump :=
  if dir.isEmpty || d.pathcache.contains dir then d
  else
    let d := createdir fs dir directory d
    { d with pathcache := d.pathcache ++ [dir] }

/-- The output of an entry at the path computed for it. -/
def writeEntry (directory : Bytes) (symlinkdump : Bool) (entry : Entry) (relativePath : Bytes)
    (d : Dump) : Dump :=
  match entry.kind with
  | .item data => writeToFile fs (directory ++ str "/") relativePath data d
  | .redirect target mimetype =>
      let redirectPath := computeRelativePath entry.path target
      if symlinkdump = false ∧ mimetype = str "text/html" then
        writeHttpRedirect fs directory relativePath redirectPath d
      else
        let fullPath := directory ++ str "/" ++ relativePath
        let c := Call.symlink (Bytes.cStr redirectPath) (Bytes.cStr fullPath)
        let o := d.outcome fs c
        let d := d.perform fs c
        if o = .done then d
        else d.throw (str "Error creating symlink from " ++ fullPath ++ str " to " ++ redirectPath)

/-- One pass of the loop of `dumpFiles`, which an exception ends. -/
def dumpEntry (directory : Bytes) (symlinkdump : Bool) (d : Dump) (entry : Entry) : Dump :=
  if d.error.isSome then d
  else
    let (dir, filename) := splitPath entry.path
    let d := createDirsOnce fs directory dir d
    let (filename, count) := truncated filename d.truncatedFiles
    writeEntry fs directory symlinkdump entry (dir ++ filename) { d with truncatedFiles := count }

/-- `dumpFiles`, for the entries in the order of `iterEfficient`.  Its namespace
filter is never used. -/
def dumpFiles (directory : Bytes) (symlinkdump : Bool) (nsfilter : UInt8 → Bool)
    (entries : List Entry) : Dump :=
  let _ := nsfilter
  let d : Dump := ⟨[], [], 0, none⟩
  entries.foldl (dumpEntry fs directory symlinkdump) (d.mkdir fs directory)

end Dump
end ZimTools.Zimdump
