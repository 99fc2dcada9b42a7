import Mathlib.Data.List.TakeDrop
import ZimTools.Lib.Packing
import ZimTools.Zimsplit.Splitter

/-!
# The parts of a split

The offsets cut the file into chunks, and a run packs the chunks greedily into
parts (`run_packs`).  What is said of the parts of a run (`run_splits`) is what
greedy packing does to any list of things with sizes.
-/

namespace ZimTools.Zimsplit

open Bytes
open Loop (Returns returns_bind returns_pure returns_throw)
open Packing (pack)

/-! ## Chunks -/

/-- The bytes between consecutive offsets, from the offset `last` on. -/
def chunksFrom (file : Bytes) : Nat → List Nat → List Bytes
  | _, [] => []
  | last, offset :: offsets =>
      substr file last (offset - last) :: chunksFrom file offset offsets

def Archive.chunks (archive : Archive) : List Bytes :=
  chunksFrom archive.file 0 (Splitter.getOffsets archive)

theorem length_substr {file : Bytes} {last offset : Nat} (h : offset ≤ file.length) :
    (substr file last (offset - last)).length = offset - last := by
  simp [substr]
  omega

theorem substr_append (file : Bytes) {a b c : Nat} (hab : a ≤ b) (hbc : b ≤ c) :
    substr file a (b - a) ++ substr file b (c - b) = substr file a (c - a) := by
  have hb : file.drop b = (file.drop a).drop (b - a) := by
    rw [List.drop_drop, Nat.add_sub_cancel' hab]
  have hc : c - a = (b - a) + (c - b) := by omega
  rw [substr, substr, substr, hb, hc, List.take_add]

/-- The chunks up to an offset are the bytes up to it. -/
theorem chunksFrom_flatten {file : Bytes} : ∀ {last : Nat} {offsets : List Nat} {stop : Nat},
    (last :: (offsets ++ [stop])).Pairwise (· < ·) →
      (chunksFrom file last (offsets ++ [stop])).flatten = substr file last (stop - last)
  | last, [], stop, _ => by simp [chunksFrom]
  | last, offset :: offsets, stop, h => by
      obtain ⟨hlast, hrest⟩ := List.pairwise_cons.mp h
      have hoffset : last < offset := hlast offset (List.mem_cons_self ..)
      have hstop : offset < stop :=
        (List.pairwise_cons.mp hrest).1 stop (List.mem_append_right _ (List.mem_singleton_self _))
      rw [List.cons_append, chunksFrom, List.flatten_cons, chunksFrom_flatten hrest]
      exact substr_append file hoffset.le hstop.le

theorem chunksFrom_pos {file : Bytes} : ∀ {last : Nat} {offsets : List Nat},
    (last :: offsets).Pairwise (· < ·) → (∀ o ∈ offsets, o ≤ file.length) →
      ∀ chunk ∈ chunksFrom file last offsets, 0 < chunk.length
  | _, [], _, _, chunk, hchunk => nomatch hchunk
  | last, offset :: offsets, h, hle, chunk, hchunk => by
      obtain ⟨hlast, hrest⟩ := List.pairwise_cons.mp h
      have hoffset : last < offset := hlast offset (List.mem_cons_self ..)
      rw [chunksFrom] at hchunk
      cases hchunk with
      | head =>
          rw [length_substr (hle offset (List.mem_cons_self ..))]
          omega
      | tail _ hchunk =>
          exact chunksFrom_pos hrest (fun o ho => hle o (List.mem_cons_of_mem _ ho)) chunk hchunk

/-- Between two chunks there is an offset. -/
theorem chunksFrom_split {file : Bytes} : ∀ {last : Nat} {offsets : List Nat} {a b : List Bytes},
    (last :: offsets).Pairwise (· < ·) → (∀ o ∈ offsets, o ≤ file.length) →
      chunksFrom file last offsets = a ++ b → a ≠ [] → b ≠ [] →
      last + a.flatten.length ∈ offsets.dropLast
  | _, [], a, b, _, _, heq, ha, _ => by
      rw [chunksFrom] at heq
      exact absurd (List.append_eq_nil_iff.mp heq.symm).1 ha
  | last, offset :: offsets, [], b, _, _, _, ha, _ => absurd rfl ha
  | last, offset :: offsets, chunk :: a, b, h, hle, heq, _, hb => by
      obtain ⟨hlast, hrest⟩ := List.pairwise_cons.mp h
      have hoffset : last < offset := hlast offset (List.mem_cons_self ..)
      rw [chunksFrom, List.cons_append] at heq
      obtain ⟨rfl, htail⟩ := List.cons_eq_cons.mp heq
      cases offsets with
      | nil =>
          rw [chunksFrom] at htail
          exact absurd (List.append_eq_nil_iff.mp htail.symm).2 hb
      | cons next offsets =>
          rw [List.flatten_cons, List.length_append,
            length_substr (hle offset (List.mem_cons_self ..)), List.dropLast_cons_cons]
          cases a with
          | nil =>
              rw [show last + (offset - last + ([] : List Bytes).flatten.length) = offset by
                simp; omega]
              exact List.mem_cons_self ..
          | cons c a =>
              have ih := chunksFrom_split hrest
                (fun o ho => hle o (List.mem_cons_of_mem _ ho)) htail (by simp) hb
              rw [show last + (offset - last + (c :: a).flatten.length) =
                offset + (c :: a).flatten.length by omega]
              exact List.mem_cons_of_mem _ ih

theorem getOffsets_le (archive : Archive) :
    ∀ o ∈ Splitter.getOffsets archive, o ≤ archive.file.length := by
  intro o ho
  rw [getOffsets_eq, List.mem_append, List.mem_insertionSort, List.mem_singleton] at ho
  rcases ho with ho | rfl
  · exact (archive.below o ho).le
  · exact Nat.le_refl _

theorem chunks_flatten (archive : Archive) : archive.chunks.flatten = archive.file := by
  have hsorted := getOffsets_sorted archive
  rw [Archive.chunks, getOffsets_eq] at *
  rw [chunksFrom_flatten hsorted]
  simp [substr, Archive.getFilesize]

theorem chunks_pos (archive : Archive) : ∀ chunk ∈ archive.chunks, 0 < chunk.length :=
  chunksFrom_pos (getOffsets_sorted archive) (getOffsets_le archive)

/-! ## What a run does -/

namespace Splitter

variable {file : Bytes} {disk : Disk} {s r t : Splitter}

/-- A block has gone to the open stream, onto the disk or into its buffer. -/
structure Copied (block : Bytes) (s r : Splitter) : Prop where
  firstIndex : r.firstIndex = s.firstIndex
  secondIndex : r.secondIndex = s.secondIndex
  closed : r.closed = s.closed
  ofile : ∀ f ∈ s.ofile, ∃ g ∈ r.ofile,
    g.part.name = f.part.name ∧ g.content = f.content ++ block
  position : r.position = s.position + block.length
  currentPartSize : r.currentPartSize = s.currentPartSize + block.length

theorem Copied.nil (s : Splitter) : Copied [] s s :=
  ⟨rfl, rfl, rfl, fun f hf => ⟨f, hf, rfl, (List.append_nil _).symm⟩, rfl, rfl⟩

theorem Copied.trans {a b : Bytes} (h : Copied a s r) (h' : Copied b r t) : Copied (a ++ b) s t := by
  refine ⟨h'.firstIndex.trans h.firstIndex, h'.secondIndex.trans h.secondIndex,
    h'.closed.trans h.closed, fun f hf => ?_, ?_, ?_⟩
  · obtain ⟨g, hg, hname, hcontent⟩ := h.ofile f hf
    obtain ⟨k, hk, hname', hcontent'⟩ := h'.ofile g hg
    refine ⟨k, hk, hname'.trans hname, ?_⟩
    rw [hcontent', hcontent, List.append_assoc]
  · rw [h'.position, h.position, List.length_append, Nat.add_assoc]
  · rw [h'.currentPartSize, h.currentPartSize, List.length_append, Nat.add_assoc]

theorem copyBlock_copied {block : Bytes} (h : s.copyBlock disk block = some r) :
    Copied block s r := by
  simp only [copyBlock, Option.bind_eq_bind, Option.bind_eq_some_iff] at h
  obtain ⟨f, hf, written, -, hr⟩ := h
  obtain rfl := Option.some.inj hr
  refine ⟨rfl, rfl, rfl, fun g hg => ⟨_, rfl, ?_, ?_⟩, rfl, rfl⟩
  · rw [hf] at hg
    obtain rfl := Option.some.inj hg
    rw [OFile.name_flush, OFile.name_put]
  · rw [hf] at hg
    obtain rfl := Option.some.inj hg
    rw [OFile.content_flush, OFile.content_put]

/-- Copying in blocks is copying at once. -/
theorem run_copyPass : ∀ {fuel size : Nat} {s r : Splitter},
    Loop.run (copyPass file disk) fuel (size, s) = some (.ok r) →
      Copied (substr file s.position size) s r
  | 0, _, _, _, h => nomatch h
  | fuel + 1, 0, s, r, h => by
      rw [Loop.run_succ_inr (r := .ok s) fuel (by simp [copyPass])] at h
      cases h
      have hnone : substr file s.position 0 = [] := by simp [substr]
      rw [hnone]
      exact Copied.nil s
  | fuel + 1, size + 1, s, r, h => by
      cases hpass : copyPass file disk (size + 1, s) with
      | inr result =>
          rw [Loop.run_succ_inr fuel hpass] at h
          obtain rfl := Option.some.inj h
          simp only [copyPass, if_pos (Nat.succ_pos size)] at hpass
          split at hpass
          · cases hpass
          · split at hpass <;> cases hpass
      | inl next =>
          obtain ⟨left, t⟩ := next
          rw [Loop.run_succ_inl fuel hpass] at h
          simp only [copyPass, if_pos (Nat.succ_pos size)] at hpass
          split at hpass
          · cases hpass
          · next hread =>
              split at hpass
              · next t' hcopy =>
                  obtain ⟨rfl, rfl⟩ := Prod.mk.inj (Sum.inl.inj hpass)
                  generalize hn : min (size + 1) bufferSize = n at *
                  have hn : n ≤ size + 1 := hn ▸ Nat.min_le_left ..
                  have hlength : (substr file s.position n).length = n := by
                    simp [substr] at hread ⊢
                    omega
                  have hblock := copyBlock_copied hcopy
                  have hrest := run_copyPass h
                  have happend := substr_append file (Nat.le_add_right s.position n)
                    (Nat.add_le_add_left hn s.position)
                  rw [Nat.add_sub_cancel_left, Nat.add_sub_cancel_left, Nat.add_sub_add_left]
                    at happend
                  rw [hblock.position, hlength] at hrest
                  exact happend ▸ hblock.trans hrest
              · cases hpass

/-- The chunks of `group` have been written to the open stream. -/
structure Holds (group : List Bytes) (s : Splitter) : Prop where
  opened : ∃ f ∈ s.ofile, f.content = group.flatten
  size : s.currentPartSize = Packing.total List.length group

theorem getNewSuffix_spec {suffix : Bytes} (h : Returns s.getNewSuffix (suffix, r)) :
    r.closed = s.closed ∧ r.position = s.position := by
  simp only [getNewSuffix] at h
  split at h <;> split at h
  · exact absurd h returns_throw
  · rw [returns_pure] at h
    rw [(Prod.mk.inj h).2]
    exact ⟨rfl, rfl⟩
  · exact absurd h returns_throw
  · rw [returns_pure] at h
    rw [(Prod.mk.inj h).2]
    exact ⟨rfl, rfl⟩

theorem newFile_spec {outPrefix : Bytes} (h : Returns (s.newFile disk outPrefix) r) :
    Holds [] r ∧ r.closed = (s.closeFile disk).closed ∧ r.position = s.position := by
  rw [newFile, returns_bind] at h
  obtain ⟨⟨suffix, s'⟩, hsuffix, hr⟩ := h
  rw [returns_pure] at hr
  obtain ⟨hclosed, hposition⟩ := getNewSuffix_spec hsuffix
  subst hr
  exact ⟨⟨⟨_, rfl, rfl⟩, rfl⟩, hclosed, hposition⟩

theorem copyOut_spec {size : Nat} {group : List Bytes} (hholds : Holds group s)
    (hsize : s.position + size ≤ file.length) (h : Returns (s.copyOut file disk size) r) :
    Holds (group ++ [substr file s.position size]) r ∧ r.closed = s.closed ∧
      r.position = s.position + size := by
  have hcopied : Copied (substr file s.position size) s r := run_copyPass h
  have hlength : (substr file s.position size).length = size := by
    simp [substr]
    omega
  obtain ⟨f, hf, hcontent⟩ := hholds.opened
  obtain ⟨g, hg, -, hcontent'⟩ := hcopied.ofile f hf
  refine ⟨⟨⟨g, hg, ?_⟩, ?_⟩, hcopied.closed, hlength ▸ hcopied.position⟩
  · rw [hcontent', hcontent, List.flatten_append, List.flatten_singleton]
  · rw [hcopied.currentPartSize, hholds.size, Packing.total_append, Packing.total_singleton]

/-! ## The streams that a run closes -/

end Splitter

/-- When the stream of `s` is closed the disk takes all that is in its buffer. -/
def Disk.Takes (disk : Disk) (s : Splitter) : Prop :=
  ∀ f ∈ s.ofile, f.buffer.length ≤ disk.close s.parts f.buffer

namespace Splitter

variable {disk : Disk} {s r : Splitter}

/-- With these offsets to come, the loop of `run` comes to close the stream of the
last state: for want of room, or at the end. -/
inductive Closes (archive : Archive) (outPrefix : Bytes) (maxPartSize : Nat) (disk : Disk) :
    List Nat → Splitter × Nat → Splitter → Prop where
  | last {s : Splitter} {last : Nat} : Closes archive outPrefix maxPartSize disk [] (s, last) s
  | full {s : Splitter} {last offset : Nat} {offsets : List Nat}
      (h : s.Full maxPartSize (offset - last)) :
      Closes archive outPrefix maxPartSize disk (offset :: offsets) (s, last) s
  | later {state next : Splitter × Nat} {offset : Nat} {offsets : List Nat} {c : Splitter}
      (hpass : Returns (runPass archive outPrefix maxPartSize disk state offset) next)
      (h : Closes archive outPrefix maxPartSize disk offsets next c) :
      Closes archive outPrefix maxPartSize disk (offset :: offsets) state c

/-- A run comes to close the stream of `c`. -/
def RunCloses (archive : Archive) (outPrefix : Bytes) (maxPartSize : Nat) (disk : Disk)
    (c : Splitter) : Prop :=
  ∃ s, Returns (create.newFile disk outPrefix) s ∧
    Closes archive outPrefix maxPartSize disk (getOffsets archive) (s, 0) c

variable {archive : Archive} {outPrefix : Bytes} {maxPartSize : Nat}

theorem forall_closes_nil {P : Splitter → Prop} {last : Nat} :
    (∀ c, Closes archive outPrefix maxPartSize disk [] (s, last) c → P c) ↔ P s := by
  constructor
  · exact fun h => h s .last
  · intro h c hc
    cases hc
    exact h

theorem forall_closes_cons {P : Splitter → Prop} {last offset : Nat} (offsets : List Nat)
    {next : Splitter × Nat}
    (hpass : Returns (runPass archive outPrefix maxPartSize disk (s, last) offset) next) :
    (∀ c, Closes archive outPrefix maxPartSize disk (offset :: offsets) (s, last) c → P c) ↔
      (s.Full maxPartSize (offset - last) → P s) ∧
        ∀ c, Closes archive outPrefix maxPartSize disk offsets next c → P c := by
  constructor
  · exact fun h => ⟨fun hfull => h s (.full hfull), fun c hc => h c (.later hpass hc)⟩
  · rintro ⟨hfull, hlater⟩ c hc
    cases hc with
    | full h => exact hfull h
    | later hpass' h =>
        cases hpass.symm.trans hpass'
        exact hlater c h

/-- The parts are beginnings of the groups, and the whole groups when `whole`. -/
structure Keeps (parts : List Part) (groups : List (List Bytes)) (whole : Prop) : Prop where
  beginnings : List.Forall₂ (fun part group => part.data <+: group.flatten) parts groups
  iff_whole : parts.map Part.data = groups.map List.flatten ↔ whole

theorem Keeps.cons {part : Part} {parts : List Part} {group : List Bytes}
    {groups : List (List Bytes)} {p q : Prop} (hbegins : part.data <+: group.flatten)
    (hpart : part.data = group.flatten ↔ p) (h : Keeps parts groups q) :
    Keeps (part :: parts) (group :: groups) (p ∧ q) := by
  refine ⟨.cons hbegins h.beginnings, ?_⟩
  rw [List.map_cons, List.map_cons, List.cons_eq_cons, hpart, h.iff_whole]

theorem Keeps.congr {parts : List Part} {groups : List (List Bytes)} {p q : Prop}
    (h : Keeps parts groups p) (hpq : q ↔ p) : Keeps parts groups q :=
  ⟨h.beginnings, h.iff_whole.trans hpq.symm⟩

variable (disk) in
/-- What `close_file` leaves of the open group. -/
theorem closeFile_spec {group : List Bytes} (hholds : Holds group s) :
    ∃ part, (s.closeFile disk).closed = s.closed ++ [part] ∧ part.data <+: group.flatten ∧
      (part.data = group.flatten ↔ disk.Takes s) := by
  obtain ⟨f, hf, hcontent⟩ := hholds.opened
  refine ⟨(f.flush (disk.close s.parts f.buffer)).part, ?_, ?_, ?_⟩
  · simp [closeFile, Option.mem_def.mp hf]
  · rw [← hcontent, OFile.content, OFile.flush]
    exact List.prefix_append_right_inj _ |>.mpr (List.take_prefix ..)
  · rw [← hcontent, OFile.content, OFile.flush, List.append_cancel_left_eq, List.take_eq_self_iff]
    simp [Disk.Takes, Option.mem_def.mp hf]

/-- The loop packs the chunks between the offsets. -/
theorem runPasses_pack : ∀ {offsets : List Nat} {s r : Splitter} {last last' : Nat}
    {group : List Bytes}, (last :: offsets).Pairwise (· < ·) →
      (∀ o ∈ offsets, o ≤ archive.file.length) → Holds group s → s.position = last →
      Returns (offsets.foldlM (runPass archive outPrefix maxPartSize disk) (s, last))
        (r, last') →
      ∃ parts, (r.closeFile disk).closed = s.closed ++ parts ∧
        Keeps parts (pack List.length maxPartSize group (chunksFrom archive.file last offsets))
          (∀ c, Closes archive outPrefix maxPartSize disk offsets (s, last) c → disk.Takes c)
  | [], s, r, last, last', group, _, _, hholds, _, h => by
      rw [List.foldlM_nil, returns_pure] at h
      obtain ⟨rfl, rfl⟩ := Prod.mk.inj h
      obtain ⟨part, hclosed, hbegins, hpart⟩ := closeFile_spec disk hholds
      refine ⟨[part], hclosed, .cons hbegins .nil, ?_⟩
      rw [forall_closes_nil, chunksFrom, pack, ← hpart]
      simp
  | offset :: offsets, s, r, last, last', group, hsorted, hle, hholds, hlast, h => by
      obtain ⟨hfirst, hrest⟩ := List.pairwise_cons.mp hsorted
      have hoffset : last < offset := hfirst offset (List.mem_cons_self ..)
      have hbound : offset ≤ archive.file.length := hle offset (List.mem_cons_self ..)
      have hle' : ∀ o ∈ offsets, o ≤ archive.file.length := fun o ho =>
        hle o (List.mem_cons_of_mem _ ho)
      rw [List.foldlM_cons, returns_bind] at h
      obtain ⟨⟨copied, next⟩, hpass, hloop⟩ := h
      have hcloses := forall_closes_cons offsets (P := disk.Takes) hpass
      simp only [runPass, returns_bind, returns_pure, Prod.mk.injEq] at hpass
      obtain ⟨opened, hopened, copied', hcopied, rfl, hnext⟩ := hpass
      rw [hnext] at hloop hcloses
      rw [makeRoom] at hopened
      have hchunk : (substr archive.file last (offset - last)).length = offset - last :=
        length_substr hbound
      rw [chunksFrom, pack, hchunk, ← hholds.size]
      split at hopened
      · -- The chunk does not fit: it is the first of a new part.
        next hfull =>
          obtain ⟨hopen, hclosed, hposition⟩ := newFile_spec hopened
          rw [hlast] at hposition
          obtain ⟨hcopy, hsame, hend⟩ := copyOut_spec hopen (by omega) hcopied
          rw [hposition] at hcopy hend
          obtain ⟨part, hpart, hbegins, hwhole⟩ := closeFile_spec disk hholds
          obtain ⟨parts, hparts, hkeeps⟩ := runPasses_pack hrest hle' hcopy (by omega) hloop
          refine ⟨part :: parts, ?_, ?_⟩
          · rw [hparts, hsame, hclosed, hpart, List.append_assoc, List.singleton_append]
          · rw [if_pos hfull]
            refine (hkeeps.cons hbegins hwhole).congr (hcloses.trans ?_)
            rw [imp_iff_right hfull]
      · next hfits =>
          rw [returns_pure] at hopened
          subst hopened
          obtain ⟨hcopy, hsame, hend⟩ := copyOut_spec hholds (by omega) hcopied
          rw [hlast] at hcopy hend
          obtain ⟨parts, hparts, hkeeps⟩ := runPasses_pack hrest hle' hcopy (by omega) hloop
          refine ⟨parts, hsame ▸ hparts, ?_⟩
          rw [if_neg hfits]
          refine hkeeps.congr (hcloses.trans ?_)
          exact and_iff_right fun hfull => absurd hfull hfits

/-- The parts of a run begin the groups of the chunks, and are the groups when
every flush on closing succeeds. -/
theorem run_packs {parts : List Part}
    (h : Returns (run archive outPrefix maxPartSize disk) parts) :
    Keeps parts (pack List.length maxPartSize [] archive.chunks)
      (∀ c, RunCloses archive outPrefix maxPartSize disk c → disk.Takes c) := by
  rw [run, returns_bind] at h
  obtain ⟨s, hs, h⟩ := h
  rw [returns_bind] at h
  obtain ⟨⟨r, last⟩, hloop, h⟩ := h
  rw [returns_pure] at h
  subst h
  obtain ⟨hholds, hclosed, hposition⟩ := newFile_spec hs
  obtain ⟨parts, hparts, hkeeps⟩ := runPasses_pack (getOffsets_sorted archive)
    (getOffsets_le archive) hholds hposition hloop
  rw [hparts, hclosed]
  refine hkeeps.congr ⟨fun hall c hc => hall c ⟨s, hs, hc⟩, fun hall c hc => ?_⟩
  obtain ⟨s', hs', hc⟩ := hc
  cases hs.symm.trans hs'
  exact hall c hc

theorem check_eq (archive : Archive) (maxPartSize : Nat) :
    check archive maxPartSize = archive.chunks.any (fun chunk => chunk.length > maxPartSize) := by
  suffices h : ∀ (offsets : List Nat) (last : Nat) (error : Bool),
      (∀ o ∈ offsets, o ≤ archive.file.length) →
      (offsets.foldl (fun (p : Bool × Nat) offset =>
        (p.1 || decide (offset - p.2 > maxPartSize), offset)) (error, last)).1 =
      (error || (chunksFrom archive.file last offsets).any
        fun chunk => chunk.length > maxPartSize) by
    have hall := h (getOffsets archive) 0 false (getOffsets_le archive)
    rw [Bool.false_or] at hall
    exact hall
  intro offsets
  induction offsets with
  | nil => intro last error _; simp [chunksFrom]
  | cons offset offsets ih =>
      intro last error hle
      rw [List.foldl_cons, ih _ _ fun o ho => hle o (List.mem_cons_of_mem _ ho), chunksFrom,
        List.any_cons, length_substr (hle offset (List.mem_cons_self ..)), Bool.or_assoc]

end Splitter

/-! ## The parts of a run -/

theorem flatten_ne_nil {α : Type*} {l : List (List α)} (hl : l ≠ []) (h : ∀ x ∈ l, x ≠ []) :
    l.flatten ≠ [] := by
  obtain ⟨x, hx⟩ := List.exists_mem_of_ne_nil l hl
  intro hnil
  exact h x hx (List.flatten_eq_nil_iff.mp hnil x hx)

/-- What is expected of the parts of an archive. -/
structure Splits (archive : Archive) (maxPartSize : Nat) (parts : List Part) : Prop where
  /-- In the order of their creation they make up the file. -/
  whole : (parts.map Part.data).flatten = archive.file
  /-- Where one ends and the next begins, a cluster begins. -/
  boundary : ∀ a b, parts = a ++ b → a ≠ [] → b ≠ [] →
    (a.map Part.data).flatten.length ∈ archive.clusterOffsets
  nonempty : ∀ part ∈ parts, part.data ≠ []
  /-- They consist of consecutive chunks, those beyond the maximum of a single one. -/
  oversized : ∃ groups : List (List Bytes), groups.flatten = archive.chunks ∧
    groups.map List.flatten = parts.map Part.data ∧
      ∀ group ∈ groups, maxPartSize < group.flatten.length →
        ∃ chunk, group = [chunk] ∧ maxPartSize < chunk.length
  checked : Splitter.check archive maxPartSize = false →
    ∀ part ∈ parts, part.data.length ≤ maxPartSize

/-- A group of the chunks beyond the maximum is a single chunk. -/
theorem eq_singleton_of_oversized {archive : Archive} {maxPartSize : Nat} {group : List Bytes}
    (hgroup : group ∈ pack List.length maxPartSize [] archive.chunks)
    (hsize : maxPartSize < group.flatten.length) :
    ∃ chunk ∈ archive.chunks, group = [chunk] ∧ maxPartSize < chunk.length := by
  have hwithin : Packing.Within List.length maxPartSize group :=
    Packing.pack_within (fun chunk hchunk => chunks_pos archive chunk hchunk)
      (Or.inl (Nat.zero_le _)) group hgroup
  rcases hwithin with hle | ⟨chunk, rfl⟩
  · rw [Packing.total, ← List.length_flatten] at hle
    omega
  · have hmem : chunk ∈ (pack List.length maxPartSize [] archive.chunks).flatten :=
      List.mem_flatten_of_mem hgroup (List.mem_singleton_self chunk)
    rw [Packing.pack_flatten, List.nil_append] at hmem
    exact ⟨chunk, hmem, rfl, by simpa using hsize⟩

theorem chunks_ne_nil (archive : Archive) : archive.chunks ≠ [] := by
  intro hnil
  refine archive.nonempty ?_
  rw [← chunks_flatten, hnil]
  rfl

theorem flatten_pack (archive : Archive) (maxPartSize : Nat) :
    (pack List.length maxPartSize [] archive.chunks).flatten = archive.chunks :=
  Packing.pack_flatten [] _

theorem ne_nil_of_mem_pack {archive : Archive} {maxPartSize : Nat} {group : List Bytes}
    (hgroup : group ∈ pack List.length maxPartSize [] archive.chunks) : group ≠ [] :=
  Packing.pack_ne_nil (chunks_ne_nil archive) group hgroup

/-- Where one group ends and the next begins, a cluster begins. -/
theorem boundary_mem {archive : Archive} {maxPartSize : Nat} {a b : List (List Bytes)}
    (hpack : pack List.length maxPartSize [] archive.chunks = a ++ b) (ha : a ≠ []) (hb : b ≠ []) :
    (a.map List.flatten).flatten.length ∈ archive.clusterOffsets := by
  have hne : ∀ group ∈ a ++ b, group ≠ [] := fun group hgroup =>
    ne_nil_of_mem_pack (hpack ▸ hgroup)
  have hchunks : archive.chunks = a.flatten ++ b.flatten := by
    rw [← flatten_pack archive maxPartSize, hpack, List.flatten_append]
  have hmem := chunksFrom_split (getOffsets_sorted archive) (getOffsets_le archive) hchunks
    (flatten_ne_nil ha fun group hgroup => hne group (List.mem_append_left _ hgroup))
    (flatten_ne_nil hb fun group hgroup => hne group (List.mem_append_right _ hgroup))
  rw [getOffsets_eq, List.dropLast_concat, List.mem_insertionSort, Nat.zero_add] at hmem
  rw [← List.flatten_flatten]
  exact hmem

/-- What is said of the groups holds of the parts. -/
theorem splits_of_packs {archive : Archive} {maxPartSize : Nat} {parts : List Part}
    (hparts : parts.map Part.data =
      (pack List.length maxPartSize [] archive.chunks).map List.flatten) :
    Splits archive maxPartSize parts := by
  have hgroup : ∀ part ∈ parts, ∃ group ∈ pack List.length maxPartSize [] archive.chunks,
      group.flatten = part.data := by
    intro part hpart
    exact List.mem_map.mp (hparts ▸ List.mem_map_of_mem hpart)
  refine ⟨?_, ?_, ?_, ?_, ?_⟩
  · rw [hparts, ← List.flatten_flatten, flatten_pack, chunks_flatten]
  · intro a b hab ha hb
    rw [hab, List.map_append, eq_comm, List.map_eq_append_iff] at hparts
    obtain ⟨ga, gb, hg, hga, hgb⟩ := hparts
    have hga' : ga ≠ [] := by
      rintro rfl
      exact ha (List.map_eq_nil_iff.mp hga.symm)
    have hgb' : gb ≠ [] := by
      rintro rfl
      exact hb (List.map_eq_nil_iff.mp hgb.symm)
    rw [← hga]
    exact boundary_mem hg hga' hgb'
  · intro part hpart
    obtain ⟨group, hg, hdata⟩ := hgroup part hpart
    rw [← hdata]
    refine flatten_ne_nil (ne_nil_of_mem_pack hg) fun chunk hchunk => ?_
    have hmem : chunk ∈ archive.chunks :=
      flatten_pack archive maxPartSize ▸ List.mem_flatten_of_mem hg hchunk
    exact List.ne_nil_of_length_pos (chunks_pos archive chunk hmem)
  · refine ⟨_, flatten_pack archive maxPartSize, hparts.symm, fun group hg hsize => ?_⟩
    obtain ⟨chunk, -, hchunk⟩ := eq_singleton_of_oversized hg hsize
    exact ⟨chunk, hchunk⟩
  · intro hcheck part hpart
    rw [Splitter.check_eq, List.any_eq_false] at hcheck
    by_contra hsize
    obtain ⟨group, hg, hdata⟩ := hgroup part hpart
    rw [← hdata] at hsize
    obtain ⟨chunk, hchunk, -, hlarge⟩ := eq_singleton_of_oversized hg (Nat.lt_of_not_le hsize)
    exact hcheck chunk hchunk (by simpa using hlarge)

/-- Beginnings that together are as long as the groups are the groups. -/
theorem map_data_eq_of_flatten {parts : List Part} {groups : List (List Bytes)}
    (h : List.Forall₂ (fun part group => part.data <+: group.flatten) parts groups)
    (hlength : groups.flatten.flatten.length ≤ (parts.map Part.data).flatten.length) :
    parts.map Part.data = groups.map List.flatten := by
  induction h with
  | nil => rfl
  | @cons part group parts groups hbegins hrest ih =>
      have hle : (parts.map Part.data).flatten.length ≤ groups.flatten.flatten.length := by
        clear ih hlength
        induction hrest with
        | nil => exact Nat.le_refl _
        | cons hbegins _ ih =>
            have hpart := hbegins.length_le
            simp only [List.map_cons, List.flatten_cons, List.length_append,
              List.flatten_append]
            omega
      have hpart := hbegins.length_le
      simp only [List.map_cons, List.flatten_cons, List.length_append, List.flatten_append]
        at hlength
      rw [List.map_cons, List.map_cons, ih (by omega), hbegins.eq_of_length (by omega)]

/-- For every archive, every maximum and every disk, a run that completes splits
the file at cluster offsets into parts that are as large as was asked for,
chunks that are too large apart, if and only if the disk takes what is in the
buffer of each stream that the run closes. -/
theorem run_splits_iff {archive : Archive} {outPrefix : Bytes} {maxPartSize : Nat}
    {disk : Disk} {parts : List Part}
    (h : Returns (Splitter.run archive outPrefix maxPartSize disk) parts) :
    Splits archive maxPartSize parts ↔
      ∀ s, Splitter.RunCloses archive outPrefix maxPartSize disk s → disk.Takes s := by
  have hkeeps := Splitter.run_packs h
  rw [← hkeeps.iff_whole]
  refine ⟨fun hsplits => map_data_eq_of_flatten hkeeps.beginnings ?_, splits_of_packs⟩
  rw [flatten_pack, chunks_flatten, hsplits.whole]

/-- A disk that is full: a stream keeps what it can in its buffer, and loses it. -/
def fullDisk : Disk := ⟨fun _ _ => some 0, fun _ _ => 0⟩

/-- The same three chunks as below, none of which is on the disk in the end. -/
theorem lost_on_closing :
    let archive : Archive := ⟨[1, 2, 3, 4, 5, 6], [5, 1], by decide, by decide, by decide, by decide⟩
    ∃ parts, Returns (Splitter.run archive (str "x") 3 fullDisk) parts ∧
      ¬ Splits archive 3 parts :=
  ⟨[⟨str "xaa", []⟩, ⟨str "xab", []⟩, ⟨str "xac", []⟩], rfl, fun h => nomatch h.whole⟩

/-- Three chunks, of which the second is too large for a part. -/
theorem run_splits_iff_sample :
    let archive : Archive := ⟨[1, 2, 3, 4, 5, 6], [5, 1], by decide, by decide, by decide, by decide⟩
    Splits archive 3 [⟨str "xaa", [1]⟩, ⟨str "xab", [2, 3, 4, 5]⟩, ⟨str "xac", [6]⟩] ↔
      ∀ s, Splitter.RunCloses archive (str "x") 3 ⟨fun _ _ => some 0, fun _ b => b.length⟩ s →
        Disk.Takes ⟨fun _ _ => some 0, fun _ b => b.length⟩ s :=
  @run_splits_iff _ (str "x") _ ⟨fun _ _ => some 0, fun _ b => b.length⟩ _ rfl

end ZimTools.Zimsplit
