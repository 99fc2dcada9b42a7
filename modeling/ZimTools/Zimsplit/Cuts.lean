import Mathlib.Order.Bounds.Basic
import ZimTools.Zimsplit.Parts

/-!
# The number of parts

A file can be cut at some of its cluster offsets in many ways.  Each cut groups
the chunks (`Cut.exists_groups`), so that none with parts within the maximum has
fewer parts than a run makes (`run_fewest`).
-/

namespace ZimTools.Zimsplit

open Bytes
open Loop (Returns)
open Packing (pack)

/-- A cut of the file at cluster offsets into parts within the maximum. -/
structure Cut (archive : Archive) (maxPartSize : Nat) (cut : List Bytes) : Prop where
  whole : cut.flatten = archive.file
  boundary : ∀ a b, cut = a ++ b → a ≠ [] → b ≠ [] → a.flatten.length ∈ archive.clusterOffsets
  within : ∀ part ∈ cut, part.length ≤ maxPartSize

/-- The chunks up to an offset, and those behind it. -/
theorem chunksFrom_append (file : Bytes) (last offset : Nat) (a b : List Nat) :
    chunksFrom file last (a ++ offset :: b) =
      chunksFrom file last (a ++ [offset]) ++ chunksFrom file offset b := by
  induction a generalizing last with
  | nil => rfl
  | cons o a ih =>
      rw [List.cons_append, chunksFrom, ih o]
      rfl

/-- From an offset on a sorted list has only the offsets behind it. -/
theorem mem_from {o x : Nat} {a b : List Nat} (hsorted : (a ++ o :: b).Pairwise (· < ·))
    (hmem : x ∈ a ++ o :: b) (hle : o ≤ x) : x ∈ o :: b := by
  rcases List.mem_append.mp hmem with hfront | hback
  · have hlt := (List.pairwise_append.mp hsorted).2.2 x hfront o (List.mem_cons_self ..)
    omega
  · exact hback

/-- A part that ends at an offset has the chunks up to it, and what is behind the
part has the others. -/
theorem chunks_of_part {file part behind : Bytes} {last : Nat} {a b : List Nat}
    (hsorted : (last :: (a ++ (last + part.length) :: b)).Pairwise (· < ·))
    (hbound : last + part.length ≤ file.length)
    (hflatten : part ++ behind =
      (chunksFrom file last (a ++ (last + part.length) :: b)).flatten) :
    (chunksFrom file last (a ++ [last + part.length])).flatten = part ∧
      behind = (chunksFrom file (last + part.length) b).flatten := by
  have hfront : (last :: (a ++ [last + part.length])).Pairwise (· < ·) :=
    hsorted.sublist (by simp)
  have hlength : part.length = (substr file last (last + part.length - last)).length := by
    rw [length_substr hbound]
    omega
  rw [chunksFrom_append, List.flatten_append, chunksFrom_flatten hfront] at hflatten
  obtain ⟨hpart, hbehind⟩ := List.append_inj hflatten hlength
  exact ⟨(chunksFrom_flatten hfront).trans hpart.symm, hbehind⟩

/-- A cut at some of the offsets groups the chunks between them. -/
theorem exists_groups_from {file : Bytes} {cut : List Bytes} : ∀ {last : Nat} {offsets : List Nat},
    cut ≠ [] → (last :: offsets).Pairwise (· < ·) → (∀ o ∈ offsets, o ≤ file.length) →
      cut.flatten = (chunksFrom file last offsets).flatten →
      (∀ a b, cut = a ++ b → a ≠ [] → b ≠ [] → last + a.flatten.length ∈ last :: offsets) →
      ∃ groups : List (List Bytes),
        groups.flatten = chunksFrom file last offsets ∧ groups.map List.flatten = cut := by
  induction cut with
  | nil => exact fun hne => absurd rfl hne
  | cons part cut ih =>
      intro last offsets _ hsorted hle hflatten hboundary
      by_cases hcut : cut = []
      · subst hcut
        rw [List.flatten_singleton] at hflatten
        exact ⟨[chunksFrom file last offsets], by simp, by simp [hflatten]⟩
      · have hnext (a b : List Bytes) (hab : cut = a ++ b) (hb : b ≠ []) :
            last + (part.length + a.flatten.length) ∈ last :: offsets := by
          have hmem := hboundary (part :: a) b (by rw [hab, List.cons_append])
            (List.cons_ne_nil part a) hb
          rwa [List.flatten_cons, List.length_append] at hmem
        have hfirst := hnext [] cut rfl hcut
        rw [List.flatten_nil, List.length_nil, Nat.add_zero] at hfirst
        rcases List.mem_cons.mp hfirst with hempty | hoffset
        · -- An empty part is a group without chunks.
          have hpart : part = [] := List.length_eq_zero_iff.mp (by omega)
          subst hpart
          obtain ⟨groups, hgroups, hmap⟩ := ih hcut hsorted hle hflatten fun a b hab _ hb => by
            have hmem := hnext a b hab hb
            rwa [List.length_nil, Nat.zero_add] at hmem
          exact ⟨[] :: groups, hgroups, by rw [List.map_cons, hmap, List.flatten_nil]⟩
        · obtain ⟨a, b, rfl⟩ := List.append_of_mem hoffset
          have hback : ((last + part.length) :: b).Pairwise (· < ·) :=
            hsorted.sublist ((List.sublist_append_right a _).cons _)
          have hbound : last + part.length ≤ file.length := hle _ (by simp)
          rw [List.flatten_cons] at hflatten
          obtain ⟨hpart, hrest⟩ := chunks_of_part hsorted hbound hflatten
          obtain ⟨groups, hgroups, hmap⟩ := ih hcut hback (fun o ho => hle o (by simp [ho])) hrest
            fun a' b' hab _ hb => by
              have hmem := hnext a' b' hab hb
              rw [← Nat.add_assoc, ← List.cons_append] at hmem
              exact mem_from (List.cons_append ▸ hsorted) hmem (Nat.le_add_right ..)
          refine ⟨chunksFrom file last (a ++ [last + part.length]) :: groups, ?_, ?_⟩
          · rw [List.flatten_cons, hgroups]
            exact (chunksFrom_append file last _ a b).symm
          · rw [List.map_cons, hmap, hpart]

theorem Cut.exists_groups {archive : Archive} {maxPartSize : Nat} {cut : List Bytes}
    (h : Cut archive maxPartSize cut) :
    ∃ groups : List (List Bytes),
      groups.flatten = archive.chunks ∧ groups.map List.flatten = cut := by
  have hne : cut ≠ [] := by
    rintro rfl
    exact archive.nonempty h.whole.symm
  refine exists_groups_from hne (getOffsets_sorted archive) (getOffsets_le archive)
    (h.whole.trans (chunks_flatten archive).symm) fun a b hab ha hb => ?_
  rw [Nat.zero_add, getOffsets_eq]
  have hmem := h.boundary a b hab ha hb
  exact List.mem_cons_of_mem _
    (List.mem_append_left _ ((List.mem_insertionSort _).mpr hmem))

/-- Every cut has as many parts as greedy packing makes, or more. -/
theorem Cut.length_le {archive : Archive} {maxPartSize : Nat} {cut : List Bytes}
    (h : Cut archive maxPartSize cut) :
    (pack List.length maxPartSize [] archive.chunks).length ≤ cut.length := by
  obtain ⟨groups, hgroups, rfl⟩ := h.exists_groups
  have hne : groups ≠ [] := by
    rintro rfl
    exact chunks_ne_nil archive hgroups.symm
  rw [← hgroups, List.length_map]
  refine Packing.pack_length_le hne fun group hgroup => ?_
  rw [Packing.total, ← List.length_flatten]
  exact h.within _ (List.mem_map_of_mem hgroup)

/-- The groups of greedy packing are a cut, when no chunk is too large. -/
theorem cut_of_packs {archive : Archive} {maxPartSize : Nat}
    (hcheck : Splitter.check archive maxPartSize = false) :
    Cut archive maxPartSize ((pack List.length maxPartSize [] archive.chunks).map List.flatten) := by
  have hmap : ((pack List.length maxPartSize [] archive.chunks).map fun group =>
      Part.mk [] group.flatten).map Part.data =
        (pack List.length maxPartSize [] archive.chunks).map List.flatten :=
    List.map_map ..
  have hsplits := splits_of_packs hmap
  rw [← hmap]
  refine ⟨hsplits.whole, fun a b hab ha hb => ?_, fun data hdata => ?_⟩
  · obtain ⟨a, b, hparts, rfl, rfl⟩ := List.map_eq_append_iff.mp hab
    exact hsplits.boundary a b hparts (fun h => ha (by rw [h]; rfl)) fun h => hb (by rw [h]; rfl)
  · obtain ⟨part, hpart, rfl⟩ := List.mem_map.mp hdata
    exact hsplits.checked hcheck part hpart

/-- When no chunk is too large, a run that completes makes as few parts as any
cut of the file at cluster offsets into parts within the maximum. -/
theorem run_fewest {archive : Archive} {outPrefix : Bytes} {maxPartSize : Nat}
    {disk : Disk} {parts : List Part}
    (hcheck : Splitter.check archive maxPartSize = false)
    (h : Returns (Splitter.run archive outPrefix maxPartSize disk) parts) :
    IsLeast {n | ∃ cut, Cut archive maxPartSize cut ∧ cut.length = n} parts.length := by
  have hlength : parts.length = (pack List.length maxPartSize [] archive.chunks).length :=
    (Splitter.run_packs h).beginnings.length_eq
  refine ⟨⟨_, cut_of_packs hcheck, by rw [List.length_map, hlength]⟩, ?_⟩
  rintro n ⟨cut, hcut, rfl⟩
  rw [hlength]
  exact hcut.length_le

/-- The second part ends with an exact fit. -/
theorem run_fewest_sample :
    let archive : Archive := ⟨[1, 2, 3, 4, 5, 6], [5, 3, 2], by decide, by decide, by decide, by decide⟩
    IsLeast {n | ∃ cut, Cut archive 3 cut ∧ cut.length = n}
      [Part.mk (str "xaa") [1, 2, 3], Part.mk (str "xab") [4, 5, 6]].length :=
  @run_fewest _ (str "x") _ ⟨fun _ _ => some 0, fun _ b => b.length⟩ _ (by decide) rfl

end ZimTools.Zimsplit
