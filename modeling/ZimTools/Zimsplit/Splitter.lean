import Mathlib.Data.List.Sort
import ZimTools.Lib.Loop
import ZimTools.Std.Bytes

/-!
# Splitting an archive into parts

`ZimSplitter` copies an archive file into parts that begin and end where a
cluster begins.  It goes through the cluster offsets in order, and opens a new
part before a chunk that would take the current one beyond the maximum.  Bytes
are copied in blocks of a buffer's size.

A block that is written goes into the buffer of a stream, which hands its bytes
on to the disk when it likes, and the rest when it is closed.  A failure in
`write` ends the run.  A failure in `close` does not, as nobody asks for it: the
bytes that the disk does not take are lost (`closeFile`).
-/

namespace ZimTools.Zimsplit

open Bytes

/-- What ends a run: `exit(-1)` when the suffixes are used up, or an exception. -/
inductive Fault where
  | tooManyParts
  | readError
  | writeError
deriving DecidableEq, Repr

def Fault.message : Fault → Bytes
  | .tooManyParts => str "To many parts"
  | .readError => str "Error while reading zim file"
  | .writeError => str "Error while writing zim part"

abbrev Program (α : Type) := ExceptT Fault Option α

/-- What the tool asks of an archive.  The clusters are somewhere in the file,
behind its header. -/
structure Archive where
  file : Bytes
  clusterOffsets : List Nat
  nodup : clusterOffsets.Nodup
  positive : ∀ o ∈ clusterOffsets, 0 < o
  below : ∀ o ∈ clusterOffsets, o < file.length
  nonempty : file ≠ []

def Archive.getFilesize (archive : Archive) : Nat := archive.file.length

structure Part where
  name : Bytes
  data : Bytes
deriving DecidableEq, Repr

/-- What the disk does, with the parts that are on it, when a stream hands its
bytes on. -/
structure Disk where
  /-- In `write`: how many of the bytes it takes, or none when the stream goes bad,
  as one does that could not be opened. -/
  write : List Part → Bytes → Option Nat
  /-- In `close`: how many of the bytes it takes. -/
  close : List Part → Bytes → Nat

/-- A stream: what of it is on the disk, and what is in its buffer. -/
structure OFile where
  part : Part
  buffer : Bytes

namespace OFile

/-- What was written to the stream. -/
def content (file : OFile) : Bytes := file.part.data ++ file.buffer

/-- The first `n` bytes of the buffer go to the disk. -/
def flush (n : Nat) (file : OFile) : OFile :=
  ⟨{ file.part with data := file.part.data ++ file.buffer.take n }, file.buffer.drop n⟩

def put (block : Bytes) (file : OFile) : OFile := { file with buffer := file.buffer ++ block }

@[simp] theorem content_flush (n : Nat) (file : OFile) : (file.flush n).content = file.content := by
  simp [content, flush]

@[simp] theorem content_put (block : Bytes) (file : OFile) :
    (file.put block).content = file.content ++ block := by
  simp [content, put]

@[simp] theorem name_flush (n : Nat) (file : OFile) : (file.flush n).part.name = file.part.name := rfl

@[simp] theorem name_put (block : Bytes) (file : OFile) :
    (file.put block).part.name = file.part.name := rfl

end OFile

/-- The parts closed so far, and the stream `ofile`.  `position` is that of
`ifile`. -/
structure Splitter where
  firstIndex : Nat
  secondIndex : Nat
  closed : List Part
  ofile : Option OFile
  position : Nat
  currentPartSize : Nat

/-- `BUFFER_SIZE`. -/
def bufferSize : Nat := 4096

namespace Splitter

/-- The constructor. -/
def create : Splitter := ⟨0, 0, [], none, 0, 0⟩

/-- The parts as they are on the disk. -/
def parts (s : Splitter) : List Part := s.closed ++ (s.ofile.map OFile.part).toList

def letter (index : Nat) : UInt8 := UInt8.ofNat ((char 'a').toNat + index)

def getNewSuffix (s : Splitter) : Program (Bytes × Splitter) :=
  let out := [letter s.firstIndex, letter s.secondIndex]
  let s := { s with secondIndex := s.secondIndex + 1 }
  let s := if s.secondIndex > 25 then
    { s with firstIndex := s.firstIndex + 1, secondIndex := 0 } else s
  if s.firstIndex > 25 then throw .tooManyParts else pure (out, s)

/-- `close_file`, whose warning about an oversized part is not part of the files.
The next `open` forgets that the flush has failed. -/
def closeFile (disk : Disk) (s : Splitter) : Splitter :=
  { s with
    closed := s.closed ++
      (s.ofile.map fun file => (file.flush (disk.close s.parts file.buffer)).part).toList
    ofile := none }

def newFile (disk : Disk) (outPrefix : Bytes) (s : Splitter) : Program Splitter := do
  let (suffix, s) ← (s.closeFile disk).getNewSuffix
  pure { s with ofile := some ⟨⟨outPrefix ++ suffix, []⟩, []⟩, currentPartSize := 0 }

/-- A block goes from `ifile` to `ofile`. -/
def copyBlock (disk : Disk) (block : Bytes) (s : Splitter) : Option Splitter := do
  let file ← s.ofile
  let written ← disk.write s.parts (file.put block).buffer
  some { s with
    ofile := some ((file.put block).flush written)
    position := s.position + block.length
    currentPartSize := s.currentPartSize + block.length }

/-- One pass of the loop of `copy_out`. -/
def copyPass (file : Bytes) (disk : Disk) :
    Nat × Splitter → (Nat × Splitter) ⊕ Except Fault Splitter
  | (size, s) =>
      if size > 0 then
        let sizeToCopy := min size bufferSize
        let block := substr file s.position sizeToCopy
        if block.length < sizeToCopy then .inr (.error .readError)
        else match s.copyBlock disk block with
          | some s => .inl (size - sizeToCopy, s)
          | none => .inr (.error .writeError)
      else .inr (.ok s)

/-- `copy_out`, whose loop makes no more passes than there are bytes. -/
def copyOut (file : Bytes) (disk : Disk) (size : Nat) (s : Splitter) : Program Splitter :=
  ExceptT.mk (Loop.run (copyPass file disk) (size + 1) (size, s))

def getOffsets (archive : Archive) : List Nat :=
  (archive.clusterOffsets ++ [archive.getFilesize]).insertionSort (· ≤ ·)

/-- Whether a chunk does not fit into the open part. -/
abbrev Full (maxPartSize chunkSize : Nat) (s : Splitter) : Prop :=
  s.currentPartSize > 0 ∧ s.currentPartSize + chunkSize > maxPartSize

/-- A new part, when the chunk does not fit into the current one. -/
def makeRoom (disk : Disk) (outPrefix : Bytes) (maxPartSize chunkSize : Nat) (s : Splitter) :
    Program Splitter :=
  if s.Full maxPartSize chunkSize then s.newFile disk outPrefix else pure s

/-- One pass of the loop of `run`, from the offset `last` to the next one. -/
def runPass (archive : Archive) (outPrefix : Bytes) (maxPartSize : Nat) (disk : Disk)
    (state : Splitter × Nat) (offset : Nat) : Program (Splitter × Nat) := do
  let (s, last) := state
  let chunkSize := offset - last
  let s ← s.makeRoom disk outPrefix maxPartSize chunkSize
  let s ← s.copyOut archive.file disk chunkSize
  pure (s, offset)

/-- `run`, with the parts that are there when the destructor has closed the last
one. -/
def run (archive : Archive) (outPrefix : Bytes) (maxPartSize : Nat) (disk : Disk) :
    Program (List Part) := do
  let s ← create.newFile disk outPrefix
  let (s, _) ← (getOffsets archive).foldlM (runPass archive outPrefix maxPartSize disk) (s, 0)
  pure (s.closeFile disk).closed

/-- `check`: whether some chunk is too big for a part. -/
def check (archive : Archive) (maxPartSize : Nat) : Bool :=
  ((getOffsets archive).foldl (fun (error, last) offset =>
    (error || decide (offset - last > maxPartSize), offset)) (false, 0)).1

end Splitter

/-! ## The order of the offsets -/

theorem getOffsets_eq (archive : Archive) :
    Splitter.getOffsets archive =
      archive.clusterOffsets.insertionSort (· ≤ ·) ++ [archive.getFilesize] := by
  have hperm : (Splitter.getOffsets archive).Perm
      (archive.clusterOffsets.insertionSort (· ≤ ·) ++ [archive.getFilesize]) :=
    (List.perm_insertionSort _ _).trans
      ((List.perm_insertionSort (· ≤ ·) archive.clusterOffsets).symm.append_right _)
  refine hperm.eq_of_pairwise (fun a b _ _ (h : a ≤ b) h' => Nat.le_antisymm h h')
    (List.pairwise_insertionSort _ _) ?_
  rw [List.pairwise_append]
  refine ⟨List.pairwise_insertionSort _ _, List.pairwise_singleton _ _, ?_⟩
  intro a ha b hb
  obtain rfl := List.mem_singleton.mp hb
  exact (archive.below a ((List.mem_insertionSort _).mp ha)).le

theorem getOffsets_sorted (archive : Archive) :
    (0 :: Splitter.getOffsets archive).Pairwise (· < ·) := by
  rw [List.pairwise_cons]
  constructor
  · intro o ho
    rw [getOffsets_eq, List.mem_append, List.mem_insertionSort, List.mem_singleton] at ho
    rcases ho with ho | rfl
    · exact archive.positive o ho
    · exact List.length_pos_of_ne_nil archive.nonempty
  · have hnodup : (Splitter.getOffsets archive).Nodup := by
      refine (List.perm_insertionSort _ _).nodup_iff.mpr ?_
      rw [List.nodup_append]
      refine ⟨archive.nodup, List.nodup_singleton _, ?_⟩
      intro a ha b hb
      obtain rfl := List.mem_singleton.mp hb
      exact (archive.below a ha).ne
    exact (List.pairwise_insertionSort (· ≤ ·) _).imp₂ (fun _ _ => lt_of_le_of_ne) hnodup

end ZimTools.Zimsplit
