import ZimTools.Zimsplit.Parts

/-!
# The names of the parts

The parts are called `aa`, `ab` and so on, behind the prefix.  The counter is
tested after it was advanced, so that the last of the 676 suffixes is never
given out: a run makes up to 675 parts and gives up at the next one
(`run_outcome`).  The names of the parts that a run has made are in increasing
order, and in that order the parts are the file, unless the disk has lost some of
it (`Completes`).
-/

namespace ZimTools.Zimsplit

open Bytes
open Loop (Returns Fails returns_bind fails_bind returns_pure returns_throw)
open Packing (pack)

/-! ## Suffixes -/

namespace Splitter

/-- The suffix of the part with the index `k`. -/
def suffix (k : Nat) : Bytes := [letter (k / 26), letter (k % 26)]

theorem toNat_letter {k : Nat} (h : k < 26) : (letter k).toNat = 97 + k := by
  rw [letter, show (char 'a').toNat = 97 from rfl, UInt8.toNat_ofNat']
  omega

theorem letter_lt {j k : Nat} (h : j < k) (hk : k < 26) : letter j < letter k := by
  rw [UInt8.lt_iff_toNat_lt, toNat_letter (by omega), toNat_letter hk]
  omega

/-- Suffixes increase. -/
theorem suffix_lt {j k : Nat} (h : j < k) (hk : k < 26 * 26) : suffix j < suffix k := by
  rw [suffix, suffix, List.cons_lt_cons_iff]
  by_cases hdiv : j / 26 < k / 26
  · exact Or.inl (letter_lt hdiv (by omega))
  · have heq : j / 26 = k / 26 := by omega
    refine Or.inr ⟨by rw [heq], List.cons_lt_cons_iff.mpr (Or.inl (letter_lt ?_ ?_))⟩
    · omega
    · omega

/-- The names of the first `n` parts. -/
def partNames (outPrefix : Bytes) (n : Nat) : List Bytes :=
  (List.range n).map fun k => outPrefix ++ suffix k

theorem partNames_increasing (outPrefix : Bytes) {n : Nat} (hn : n ≤ 26 * 26) :
    (partNames outPrefix n).Pairwise (· < ·) := by
  rw [partNames, List.pairwise_map]
  refine List.pairwise_lt_range.imp_of_mem fun {j k} _ hk h => ?_
  exact List.append_left_lt (suffix_lt h (by rw [List.mem_range] at hk; omega))

/-! ## The counter -/

/-- The indices are those of the next suffix, and the parts have the names of the
suffixes before it. -/
structure Named (outPrefix : Bytes) (n : Nat) (s : Splitter) : Prop where
  first : s.firstIndex = n / 26
  second : s.secondIndex = n % 26
  names : s.parts.map Part.name = partNames outPrefix n
  lt : n < 26 * 26

variable {outPrefix file : Bytes} {disk : Disk} {n : Nat}
  {s r : Splitter}

theorem named_create : Named outPrefix 0 create := ⟨rfl, rfl, rfl, by decide⟩

/-- Where the indices are after a suffix. -/
theorem advance (hfirst : s.firstIndex = n / 26) (hsecond : s.secondIndex = n % 26) :
    s.getNewSuffix =
      if n + 1 < 26 * 26 then
        pure (suffix n, { s with firstIndex := (n + 1) / 26, secondIndex := (n + 1) % 26 })
      else throw .tooManyParts := by
  rw [getNewSuffix, hfirst, hsecond]
  by_cases hcarry : n % 26 + 1 > 25
  · have hdiv : n / 26 + 1 = (n + 1) / 26 := by omega
    have hmod : (n + 1) % 26 = 0 := by omega
    simp only [if_pos hcarry, hdiv, hmod, suffix]
    by_cases hlimit : n + 1 < 26 * 26
    · rw [if_pos hlimit, if_neg (by omega)]
    · rw [if_neg hlimit, if_pos (by omega)]
  · have hdiv : (n + 1) / 26 = n / 26 := by omega
    have hmod : (n + 1) % 26 = n % 26 + 1 := by omega
    simp only [if_neg hcarry, hdiv, hmod, suffix]
    by_cases hlimit : n + 1 < 26 * 26
    · rw [if_pos hlimit, if_neg (by omega)]
    · rw [if_neg hlimit, if_pos (by omega)]

variable (disk) in
/-- What is lost on closing is not the name. -/
theorem Named.closeFile (h : Named outPrefix n s) :
    (s.closeFile disk).closed.map Part.name = partNames outPrefix n := by
  rw [← h.names, Splitter.closeFile, Splitter.parts]
  cases hfile : s.ofile with
  | none => rfl
  | some f =>
      simp only [Option.map_some, Option.toList_some, List.map_append, List.map_singleton,
        OFile.name_flush]

variable (disk) in
/-- A new file has the next name, or the run gives up. -/
theorem Named.newFile (h : Named outPrefix n s) :
    (n + 1 < 26 * 26 ∧ ∃ r, Returns (s.newFile disk outPrefix) r ∧ Named outPrefix (n + 1) r) ∨
      n + 1 = 26 * 26 ∧ Fails (s.newFile disk outPrefix) .tooManyParts := by
  have hsuffix := @advance n (s.closeFile disk) h.first h.second
  by_cases hlimit : n + 1 < 26 * 26
  · rw [if_pos hlimit] at hsuffix
    have hreturns : Returns (s.newFile disk outPrefix)
        { s.closeFile disk with
          firstIndex := (n + 1) / 26
          secondIndex := (n + 1) % 26
          ofile := some ⟨⟨outPrefix ++ suffix n, []⟩, []⟩
          currentPartSize := 0 } := by
      rw [Splitter.newFile, hsuffix, returns_bind]
      exact ⟨_, returns_pure.mpr rfl, returns_pure.mpr rfl⟩
    refine Or.inl ⟨hlimit, _, hreturns, ?_⟩
    · refine ⟨rfl, rfl, ?_, hlimit⟩
      rw [Splitter.parts, List.map_append, partNames, List.range_succ, List.map_append]
      exact congrArg (· ++ [outPrefix ++ suffix n]) (h.closeFile disk)
  · rw [if_neg hlimit] at hsuffix
    have hn := h.lt
    refine Or.inr ⟨by omega, ?_⟩
    rw [Splitter.newFile, hsuffix]
    rfl

/-! ## The run -/

theorem Named.copied {block : Bytes} {f : OFile} (h : Named outPrefix n s) (hf : f ∈ s.ofile)
    (hcopied : Copied block s r) : Named outPrefix n r := by
  obtain ⟨g, hg, hname, -⟩ := hcopied.ofile f hf
  refine ⟨hcopied.firstIndex.trans h.first, hcopied.secondIndex.trans h.second, ?_, h.lt⟩
  rw [← h.names, Splitter.parts, Splitter.parts, hcopied.closed, Option.mem_def.mp hf,
    Option.mem_def.mp hg]
  simp only [Option.map_some, Option.toList_some, List.map_append, List.map_singleton, hname]

/-- A block goes to the open stream, unless the disk refuses it. -/
theorem copyBlock_eq_none {block : Bytes} (hopen : s.ofile ≠ none)
    (h : s.copyBlock disk block = none) : ∃ parts bytes, disk.write parts bytes = none := by
  obtain ⟨f, hf⟩ := Option.ne_none_iff_exists'.mp hopen
  cases hwrite : disk.write s.parts (f.put block).buffer with
  | none => exact ⟨_, _, hwrite⟩
  | some written => simp [copyBlock, hf, hwrite] at h

/-- While a chunk is copied it is in the file, and the stream open. -/
def Copying (file : Bytes) (state : Nat × Splitter) : Prop :=
  state.2.position + state.1 ≤ file.length ∧ state.2.ofile ≠ none

theorem copyPass_inl {state state' : Nat × Splitter} (hcopying : Copying file state)
    (h : copyPass file disk state = .inl state') :
    Copying file state' ∧ state'.1 < state.1 := by
  obtain ⟨size, s⟩ := state
  obtain ⟨hsize, hopen⟩ := hcopying
  simp only [copyPass] at h
  split at h
  · next hpos =>
      split at h
      · cases h
      · split at h
        · next r hcopy =>
            obtain rfl := Sum.inl.inj h
            have hcopied := copyBlock_copied hcopy
            obtain ⟨f, hf⟩ := Option.ne_none_iff_exists'.mp hopen
            obtain ⟨g, hg, -⟩ := hcopied.ofile f hf
            have hle : (substr file s.position (min size bufferSize)).length ≤
                min size bufferSize := List.length_take_le ..
            have hbuffer : 0 < bufferSize := by decide
            have hposition := hcopied.position
            refine ⟨⟨?_, fun hnone => ?_⟩, ?_⟩
            · change r.position + (size - min size bufferSize) ≤ file.length
              change s.position + size ≤ file.length at hsize
              omega
            · cases (Option.mem_def.mp hg).symm.trans hnone
            · change size - min size bufferSize < size
              omega
        · cases h
  · cases h

theorem copyPass_inr {state : Nat × Splitter} {result : Except Fault Splitter}
    (hcopying : Copying file state) (h : copyPass file disk state = .inr result) :
    (∃ s, result = .ok s) ∨
      result = .error .writeError ∧ ∃ parts bytes, disk.write parts bytes = none := by
  obtain ⟨size, s⟩ := state
  obtain ⟨hsize, hopen⟩ := hcopying
  change s.position + size ≤ file.length at hsize
  simp only [copyPass] at h
  split at h
  · split at h
    · next hread =>
        have hlength : (substr file s.position (min size bufferSize)).length =
            min (min size bufferSize) (file.length - s.position) := by
          rw [substr, List.length_take, List.length_drop]
        omega
    · split at h
      · cases h
      · next hcopy =>
          obtain rfl := Sum.inr.inj h
          exact Or.inr ⟨rfl, copyBlock_eq_none hopen hcopy⟩
  · obtain rfl := Sum.inr.inj h
    exact Or.inl ⟨s, rfl⟩

/-- A chunk of the file is copied, unless the disk refuses a block. -/
theorem copyOut_outcome {size : Nat} (hsize : s.position + size ≤ file.length)
    (hopen : s.ofile ≠ none) :
    (∃ r, Returns (s.copyOut file disk size) r) ∨
      Fails (s.copyOut file disk size) .writeError ∧
        ∃ parts bytes, disk.write parts bytes = none := by
  obtain ⟨result, hrun, hresult⟩ := Loop.run_total (copyPass file disk) (Copying file) _ Prod.fst
    (fun _ _ => copyPass_inl) (fun _ _ => copyPass_inr) (size + 1) (size, s) ⟨hsize, hopen⟩
    (Nat.lt_succ_self size)
  rcases hresult with ⟨r, rfl⟩ | ⟨rfl, hrefused⟩
  · exact Or.inl ⟨r, hrun⟩
  · exact Or.inr ⟨hrun, hrefused⟩

/-- How the loop ends that is to leave `total` parts. -/
inductive Outcome (outPrefix : Bytes) (disk : Disk) (total : Nat)
    (program : Program (Splitter × Nat)) : Prop where
  | completes {r : Splitter} {last : Nat} (returns : Returns program (r, last))
      (named : Named outPrefix total r)
  | givesUp (fails : Fails program .tooManyParts) (many : 26 * 26 ≤ total)
  | refused (fails : Fails program .writeError)
      (full : ∃ parts bytes, disk.write parts bytes = none)

variable {archive : Archive} {maxPartSize : Nat}

theorem Outcome.of_pass {total last : Nat} {pass : Program (Splitter × Nat)}
    {rest : Splitter × Nat → Program (Splitter × Nat)} (hpass : Returns pass (s, last))
    (h : Outcome outPrefix disk total (rest (s, last))) :
    Outcome outPrefix disk total (pass >>= rest) := by
  cases h with
  | completes returns named => exact .completes (returns_bind.mpr ⟨_, hpass, returns⟩) named
  | givesUp fails many => exact .givesUp (fails_bind.mpr (Or.inr ⟨_, hpass, fails⟩)) many
  | refused fails full => exact .refused (fails_bind.mpr (Or.inr ⟨_, hpass, fails⟩)) full

variable (disk) in
/-- A chunk goes into the open part, which keeps its name. -/
theorem copyChunk_outcome {group : List Bytes} {last offset : Nat}
    (hholds : Holds group s) (hnamed : Named outPrefix n s) (hlast : s.position = last)
    (hle : last ≤ offset) (hbound : offset ≤ file.length) :
    (∃ r, Returns (s.copyOut file disk (offset - last)) r ∧
        Holds (group ++ [substr file last (offset - last)]) r ∧
        r.position = offset ∧ Named outPrefix n r) ∨
      Fails (s.copyOut file disk (offset - last)) .writeError ∧
        ∃ parts bytes, disk.write parts bytes = none := by
  subst hlast
  have hsize : s.position + (offset - s.position) ≤ file.length := by omega
  obtain ⟨f, hf, -⟩ := hholds.opened
  have hopen : s.ofile ≠ none := fun hnone => by cases (Option.mem_def.mp hf).symm.trans hnone
  refine (copyOut_outcome hsize hopen).imp_left ?_
  rintro ⟨r, hr⟩
  obtain ⟨hcopy, -, hend⟩ := copyOut_spec hholds hsize hr
  exact ⟨r, hr, hcopy, by omega, hnamed.copied hf (run_copyPass hr)⟩

/-- When there is room in a part, a pass copies the chunk or the disk refuses a
block. -/
theorem Outcome.of_room {opened : Splitter} {group : List Bytes}
    {last offset total : Nat} {rest : Splitter × Nat → Program (Splitter × Nat)}
    (hopened : Returns (s.makeRoom disk outPrefix maxPartSize (offset - last)) opened)
    (hholds : Holds group opened) (hnamed : Named outPrefix n opened)
    (hlast : opened.position = last) (hle : last ≤ offset)
    (hbound : offset ≤ archive.file.length)
    (hrest : ∀ r : Splitter, Holds (group ++ [substr archive.file last (offset - last)]) r →
      r.position = offset → Named outPrefix n r →
        Outcome outPrefix disk total (rest (r, offset))) :
    Outcome outPrefix disk total
      (runPass archive outPrefix maxPartSize disk (s, last) offset >>= rest) := by
  rcases copyChunk_outcome disk hholds hnamed hlast hle hbound with
    ⟨r, hr, hcopy, hend, hnamed'⟩ | ⟨hr, hdisk⟩
  · have hpass : Returns (runPass archive outPrefix maxPartSize disk (s, last) offset)
        (r, offset) := by
      simp only [runPass, returns_bind, returns_pure]
      exact ⟨opened, hopened, r, hr, rfl⟩
    exact .of_pass hpass (hrest r hcopy hend hnamed')
  · refine .refused (fails_bind.mpr (Or.inl ?_)) hdisk
    simp only [runPass, fails_bind]
    exact Or.inr ⟨opened, hopened, Or.inl hr⟩

/-- The loop completes, unless it comes to the last suffix or the disk refuses a
block. -/
theorem runPasses_outcome : ∀ {offsets : List Nat} {s : Splitter} {last n total : Nat}
    {group : List Bytes},
    (last :: offsets).Pairwise (· < ·) → (∀ o ∈ offsets, o ≤ archive.file.length) →
      Holds group s → s.position = last → Named outPrefix n s →
      total + 1 = n + (pack List.length maxPartSize group
        (chunksFrom archive.file last offsets)).length →
      Outcome outPrefix disk total
        (offsets.foldlM (runPass archive outPrefix maxPartSize disk) (s, last))
  | [], s, last, n, total, group, _, _, _, _, hnamed, htotal => by
      obtain rfl : total = n := Nat.succ.inj htotal
      exact .completes (returns_pure.mpr rfl) hnamed
  | offset :: offsets, s, last, n, total, group, hsorted, hle, hholds, hlast, hnamed,
      htotal => by
      obtain ⟨hfirst, hrest⟩ := List.pairwise_cons.mp hsorted
      have hoffset : last ≤ offset := (hfirst offset (List.mem_cons_self ..)).le
      have hbound : offset ≤ archive.file.length := hle offset (List.mem_cons_self ..)
      have hle' : ∀ o ∈ offsets, o ≤ archive.file.length := fun o ho =>
        hle o (List.mem_cons_of_mem _ ho)
      rw [chunksFrom, pack, length_substr hbound, ← hholds.size] at htotal
      rw [List.foldlM_cons]
      by_cases hfull : s.Full maxPartSize (offset - last)
      · -- The chunk does not fit: there is to be another part.
        rw [if_pos hfull, List.length_cons] at htotal
        have hroom : s.makeRoom disk outPrefix maxPartSize (offset - last) = s.newFile disk outPrefix :=
          if_pos hfull
        rcases hnamed.newFile disk with ⟨-, opened, hopened, hnamed'⟩ | ⟨hn, hfails⟩
        · obtain ⟨hopen, -, hposition⟩ := newFile_spec hopened
          refine .of_room (hroom.symm ▸ hopened) hopen hnamed' (hposition.trans hlast) hoffset hbound
            fun r hcopy hend hnamed'' => ?_
          refine runPasses_outcome hrest hle' hcopy hend hnamed'' ?_
          rw [List.nil_append]
          omega
        · have hpos := Packing.pack_length_pos List.length maxPartSize
            [substr archive.file last (offset - last)] (chunksFrom archive.file offset offsets)
          refine .givesUp (fails_bind.mpr (Or.inl ?_)) (by omega)
          simp only [runPass, hroom, fails_bind]
          exact Or.inl hfails
      · rw [if_neg hfull] at htotal
        have hroom : s.makeRoom disk outPrefix maxPartSize (offset - last) = pure s := if_neg hfull
        refine .of_room (hroom.symm ▸ returns_pure.mpr rfl) hholds hnamed hlast hoffset hbound
          fun r hcopy hend hnamed' => ?_
        exact runPasses_outcome hrest hle' hcopy hend hnamed' htotal

end Splitter

/-- The number of parts that greedy splitting needs. -/
def Archive.neededParts (archive : Archive) (maxPartSize : Nat) : Nat :=
  (pack List.length maxPartSize [] archive.chunks).length

/-- How a run ends. -/
theorem run_outcome (archive : Archive) (outPrefix : Bytes) (maxPartSize : Nat)
    (disk : Disk) :
    (∃ parts, Returns (Splitter.run archive outPrefix maxPartSize disk) parts ∧
        parts.map Part.name =
          Splitter.partNames outPrefix (archive.neededParts maxPartSize) ∧
        archive.neededParts maxPartSize < 26 * 26) ∨
      (Fails (Splitter.run archive outPrefix maxPartSize disk) .tooManyParts ∧
        26 * 26 ≤ archive.neededParts maxPartSize) ∨
      (Fails (Splitter.run archive outPrefix maxPartSize disk) .writeError ∧
        ∃ parts bytes, disk.write parts bytes = none) := by
  have hnew : Splitter.Named outPrefix 0 Splitter.create := Splitter.named_create
  rcases hnew.newFile disk with ⟨-, s, hs, hnamed⟩ | ⟨hn, -⟩
  · obtain ⟨hholds, -, hposition⟩ := Splitter.newFile_spec hs
    change s.position = 0 at hposition
    have htotal : archive.neededParts maxPartSize + 1 = 0 + 1 +
        (pack List.length maxPartSize [] (chunksFrom archive.file 0
          (Splitter.getOffsets archive))).length := by
      rw [Archive.neededParts, Archive.chunks]
      omega
    have houtcome : Splitter.Outcome outPrefix disk _ _ := Splitter.runPasses_outcome
      (getOffsets_sorted archive) (getOffsets_le archive) hholds hposition hnamed htotal
    cases houtcome with
    | completes returns named =>
        refine Or.inl ⟨_, ?_, named.closeFile disk, named.lt⟩
        simp only [Splitter.run, returns_bind, returns_pure]
        exact ⟨s, hs, _, returns, rfl⟩
    | givesUp fails many =>
        refine Or.inr (Or.inl ⟨?_, many⟩)
        simp only [Splitter.run, fails_bind]
        exact Or.inr ⟨s, hs, Or.inl fails⟩
    | refused fails full =>
        refine Or.inr (Or.inr ⟨?_, full⟩)
        simp only [Splitter.run, fails_bind]
        exact Or.inr ⟨s, hs, Or.inl fails⟩
  · exact absurd hn (by decide)

/-! ## The order of the parts -/

/-- Concatenated by name the parts are the file. -/
def Restores (archive : Archive) (parts : List Part) : Prop :=
  ∀ sorted : List Part, sorted.Perm parts →
    (sorted.map Part.name).Pairwise (· ≤ ·) → (sorted.map Part.data).flatten = archive.file

theorem restores_of_increasing {archive : Archive} {parts : List Part}
    (hnames : (parts.map Part.name).Pairwise (· < ·))
    (hwhole : (parts.map Part.data).flatten = archive.file) : Restores archive parts := by
  intro sorted hperm hsorted
  have hnodup : (parts.map Part.name).Nodup := by
    refine hnames.imp fun {a b} h heq => ?_
    subst heq
    exact List.lt_irrefl a h
  have heq : sorted = parts := by
    refine hperm.eq_of_pairwise (fun a b ha hb hab hba => ?_) (List.pairwise_map.mp hsorted)
      ((List.pairwise_map.mp hnames).imp List.le_of_lt)
    exact List.inj_on_of_nodup_map hnodup (hperm.mem_iff.mp ha) hb (List.le_antisymm hab hba)
  rw [heq, hwhole]

/-- A run does not give up on any disk, completes on one that refuses no block, and
leaves parts whose names increase.  In that order they are the file, if nothing is
lost when streams are closed. -/
structure Completes (archive : Archive) (outPrefix : Bytes) (maxPartSize : Nat) : Prop where
  neverGivesUp : ∀ disk,
    ¬ Fails (Splitter.run archive outPrefix maxPartSize disk) .tooManyParts
  returns : ∀ disk, (∀ parts bytes, disk.write parts bytes ≠ none) →
    ∃ parts, Returns (Splitter.run archive outPrefix maxPartSize disk) parts
  increasing : ∀ disk parts, Returns (Splitter.run archive outPrefix maxPartSize disk) parts →
    (parts.map Part.name).Pairwise (· < ·)
  restores : ∀ disk parts, Returns (Splitter.run archive outPrefix maxPartSize disk) parts →
    (∀ s, Splitter.RunCloses archive outPrefix maxPartSize disk s → disk.Takes s) →
      Restores archive parts

theorem completes_of_lt {archive : Archive} {outPrefix : Bytes} {maxPartSize : Nat}
    (h : archive.neededParts maxPartSize < 26 * 26) :
    Completes archive outPrefix maxPartSize := by
  have hincreasing (disk : Disk) (parts : List Part)
      (hreturns : Returns (Splitter.run archive outPrefix maxPartSize disk) parts) :
      (parts.map Part.name).Pairwise (· < ·) := by
    rcases run_outcome archive outPrefix maxPartSize disk with
      ⟨parts', hreturns', hnames, -⟩ | ⟨hfails, -⟩ | ⟨hfails, -⟩
    · cases hreturns'.symm.trans hreturns
      rw [hnames]
      exact Splitter.partNames_increasing outPrefix h.le
    · cases hfails.symm.trans hreturns
    · cases hfails.symm.trans hreturns
  refine ⟨fun disk hfails => ?_, fun disk hdisk => ?_, hincreasing,
    fun disk parts hreturns htakes => ?_⟩
  · rcases run_outcome archive outPrefix maxPartSize disk with
      ⟨parts, hreturns, -⟩ | ⟨-, hmany⟩ | ⟨hrefused, -⟩
    · cases hreturns.symm.trans hfails
    · omega
    · cases hrefused.symm.trans hfails
  · rcases run_outcome archive outPrefix maxPartSize disk with
      ⟨parts, hreturns, -⟩ | ⟨-, hmany⟩ | ⟨-, parts, bytes, hrefused⟩
    · exact ⟨parts, hreturns⟩
    · omega
    · exact absurd hrefused (hdisk parts bytes)
  · have hpacks := (Splitter.run_packs hreturns).iff_whole.mpr htakes
    exact restores_of_increasing (hincreasing disk parts hreturns) (splits_of_packs hpacks).whole

theorem not_completes {archive : Archive} {outPrefix : Bytes} {maxPartSize : Nat}
    (h : 26 * 26 ≤ archive.neededParts maxPartSize) :
    ¬ Completes archive outPrefix maxPartSize := by
  intro hcompletes
  rcases run_outcome archive outPrefix maxPartSize fullDisk with
    ⟨-, -, -, hlt⟩ | ⟨hfails, -⟩ | ⟨-, parts, bytes, hrefused⟩
  · omega
  · exact hcompletes.neverGivesUp _ hfails
  · cases hrefused

/-- As long as the suffixes suffice a run completes, unless it needs the last one. -/
theorem completes_iff (archive : Archive) (outPrefix : Bytes) (maxPartSize : Nat) :
    (archive.neededParts maxPartSize ≤ 26 * 26 → Completes archive outPrefix maxPartSize) ↔
      archive.neededParts maxPartSize ≠ 26 * 26 := by
  constructor
  · intro h heq
    exact not_completes heq.ge (h heq.le)
  · intro hne hle
    exact completes_of_lt (lt_of_le_of_ne hle hne)

/-! ## One part too many -/

theorem length_chunksFrom (file : Bytes) (last : Nat) (offsets : List Nat) :
    (chunksFrom file last offsets).length = offsets.length := by
  induction offsets generalizing last with
  | nil => rfl
  | cons offset offsets ih => rw [chunksFrom, List.length_cons, ih, List.length_cons]

/-- With parts of a byte every chunk needs a part. -/
theorem neededParts_one (archive : Archive) :
    archive.neededParts 1 = archive.clusterOffsets.length + 1 := by
  have hlength : archive.chunks.length = archive.clusterOffsets.length + 1 := by
    rw [Archive.chunks, length_chunksFrom, Splitter.getOffsets, List.length_insertionSort,
      List.length_append, List.length_singleton]
  rw [Archive.neededParts, ← hlength]
  cases hchunks : archive.chunks with
  | nil => exact absurd hchunks (chunks_ne_nil archive)
  | cons chunk chunks =>
      have hpos := chunks_pos archive
      rw [hchunks] at hpos
      rw [pack, if_neg (fun h => absurd h.1 (Nat.lt_irrefl 0)), List.nil_append]
      exact Packing.pack_length_of_le_one (Nat.le_refl 1) hpos (List.cons_ne_nil chunk [])

/-- A file of single bytes, each of which is a chunk. -/
def byteChunks (n : Nat) : Archive where
  file := List.replicate (n + 1) 0
  clusterOffsets := List.range' 1 n
  nodup := List.nodup_range'
  positive := fun o ho => (List.mem_range'_1.mp ho).1
  below := fun o ho => by
    have h := (List.mem_range'_1.mp ho).2
    rw [List.length_replicate]
    omega
  nonempty := List.cons_ne_nil 0 _

/-- 676 parts are needed, for which there are suffixes, and the run gives up. -/
theorem gives_up_at_last_suffix :
    ¬ ((byteChunks 675).neededParts 1 ≤ 26 * 26 → Completes (byteChunks 675) (str "x") 1) := by
  have hneeded : (byteChunks 675).neededParts 1 = 26 * 26 := by
    rw [neededParts_one]
    exact congrArg (· + 1) List.length_range'
  intro h
  exact not_completes hneeded.ge (h hneeded.le)

end ZimTools.Zimsplit
