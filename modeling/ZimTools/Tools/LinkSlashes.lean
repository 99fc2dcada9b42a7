import ZimTools.Tools.LinkReference

/-!
# Adjacent slashes in links

Between adjacent slashes there is a name without a byte, and the reference goes
down to it and up from it like to any other.  The code takes one or two empty
names for the root where it computes the separator again.

A loop that has once done so is behind the reference by an empty name, and stays
so (`Held.Behind.resolve_eq_iff`).  `clear` says of the segments of a URL that
the loop never does, and `resolveLinkTarget_slashes_iff` that those are the links
that resolve to their reference.
-/

namespace ZimTools

open Bytes DotSegments

/-- Empty names whose text is that of a root. -/
def ambiguous (dir : List Bytes) : Bool := dir = [[]] ∨ dir = [[], []]

/-- Along the segments of a URL, the separator is computed again only where the
names are not taken for a root. -/
def clear (root : Bool) (dir : List Bytes) : List Bytes → Bool
  | [] => true
  | s :: segs =>
      if s = str "." then (root || !ambiguous dir) && clear root dir segs
      else if s = str ".." then
        dir = [] ||
          (root || (!ambiguous dir && dir.dropLast != [[], []])) &&
            clear (isRoot dir.dropLast) dir.dropLast segs
      else clear false (dir ++ [s]) segs

theorem ambiguous_iff {dir : List Bytes} : ambiguous dir = true ↔ dir = [[]] ∨ dir = [[], []] :=
  decide_eq_true_iff

theorem not_ambiguous_iff {dir : List Bytes} :
    ambiguous dir = false ↔ dir ≠ [[]] ∧ dir ≠ [[], []] := by
  rw [← Bool.not_eq_true, ambiguous_iff, not_or]

/-! ## Behind -/

namespace Held

/-- The code has lost empty names of a directory. -/
def Behind (h : Held) (dir : List Bytes) : Prop :=
  ∃ n, dir = List.replicate (n + 1) [] ++ h.names

theorem Behind.ne_nil {h : Held} {dir : List Bytes} (hb : h.Behind dir) : dir ≠ [] := by
  obtain ⟨n, rfl⟩ := hb
  exact List.append_ne_nil_of_left_ne_nil (List.cons_ne_nil _ _) _

theorem Behind.push {h : Held} {dir : List Bytes} (hb : h.Behind dir) (s : Bytes) :
    (h.push s).Behind (dir ++ [s]) := by
  obtain ⟨n, rfl⟩ := hb
  exact ⟨n, List.append_assoc ..⟩

/-- An empty name more is lost. -/
theorem behind_replicate (root : Bool) (n : Nat) (names : List Bytes) :
    (⟨root, names⟩ : Held).Behind (List.replicate n [] ++ [] :: names) :=
  ⟨n, by rw [List.replicate_succ', List.append_assoc]; rfl⟩

theorem ofText_names (dir : List Bytes) :
    (ofText dir).names = dir ∨ (dir = [[], []] ∧ (ofText dir).names = [[]]) := by
  rw [ofText]
  split
  · exact Or.inl rfl
  · split
    · next h => exact Or.inr ⟨h, rfl⟩
    · exact Or.inl rfl

theorem behind_ofText {n : Nat} {names dir : List Bytes}
    (h : dir = List.replicate (n + 1) [] ++ names) : (ofText names).Behind dir := by
  rcases ofText_names names with hnames | ⟨rfl, hnames⟩
  · exact ⟨n, by rw [hnames, h]⟩
  · subst h
    exact ⟨n + 1, by rw [hnames, List.replicate_succ' (n := n + 1), List.append_assoc]; rfl⟩

theorem Behind.dot {h : Held} {dir : List Bytes} (hb : h.Behind dir) : h.dot.Behind dir := by
  obtain ⟨n, rfl⟩ := hb
  rw [Held.dot]
  split
  · exact ⟨n, rfl⟩
  · split
    · next hone =>
        rw [hone]
        exact behind_replicate true (n + 1) []
    · exact behind_ofText rfl

theorem Behind.dotdot {h h' : Held} {dir : List Bytes} (hv : h.Valid) (hb : h.Behind dir)
    (hdotdot : h.dotdot = some h') : h'.Behind dir.dropLast := by
  obtain ⟨root, names⟩ := h
  obtain ⟨n, rfl⟩ := hb
  cases root with
  | true =>
      rcases isRoot_iff.mp (hv.root rfl) with rfl | rfl
      · exact absurd hdotdot.symm (Option.some_ne_none h')
      · obtain rfl : (⟨true, []⟩ : Held) = h' := Option.some_inj.mp hdotdot
        exact ⟨n, by rw [List.dropLast_concat, List.append_nil]⟩
  | false =>
      have hnames : names ≠ [] := hv.joined rfl
      have hdrop : (List.replicate (n + 1) [] ++ names).dropLast =
          List.replicate (n + 1) [] ++ names.dropLast := List.dropLast_append_of_ne_nil hnames
      by_cases hone : names = [[]]
      · subst hone
        exact absurd hdotdot.symm (Option.some_ne_none h')
      by_cases htwo : names = [[], []]
      · subst htwo
        obtain rfl : (⟨true, []⟩ : Held) = h' := Option.some_inj.mp hdotdot
        rw [hdrop]
        exact behind_replicate true (n + 1) []
      · rw [Held.dotdot, if_neg Bool.false_ne_true, if_neg hone, if_neg htwo] at hdotdot
        obtain rfl := Option.some_inj.mp hdotdot
        rw [hdrop]
        exact behind_ofText rfl

theorem Behind.withSlash_ne {h : Held} {dir : List Bytes} (hb : h.Behind dir) (s : Bytes) :
    withSlash h.names ++ s ≠ withSlash dir ++ s := by
  obtain ⟨n, rfl⟩ := hb
  intro heq
  have hlength := congrArg List.length (List.append_cancel_right heq)
  have hsep : (withSlash (List.replicate (n + 1) [])).length = n + 1 := by
    simp [withSlash, str, List.length_flatMap]
  rw [withSlash_append, List.length_append, hsep] at hlength
  omega

/-- A loop that is behind meets the reference only where the reference is out of
bounds. -/
theorem Behind.resolve_eq_iff {dir : List Bytes} :
    ∀ {segs : List Bytes} {h : Held}, segs ≠ [] → h.Valid → (∀ s ∈ segs, char '/' ∉ s) →
      h.Behind dir →
      (h.resolve segs = referenceResolve dir segs ↔ referenceResolve dir segs = none)
  | [], _, hne, _, _, _ => absurd rfl hne
  | [s], h, _, hv, hslash, hb => by
      rw [referenceResolve_single, Held.resolve]
      split_ifs with hdot hdotdot
      · have hne := hb.dot.withSlash_ne []
        simpa using hne
      · have hdir : dir ≠ [] := hb.ne_nil
        rw [step_up hdir]
        cases hh : h.dotdot with
        | none => simp
        | some h' =>
            have hne := (hb.dotdot hv hh).withSlash_ne []
            simpa using hne
      · have hne := hb.withSlash_ne s
        simpa using hne
  | s :: t :: segs, h, _, hv, hslash, hb => by
      have hslash' : ∀ x ∈ t :: segs, char '/' ∉ x := fun x hx =>
        hslash x (List.mem_cons_of_mem s hx)
      have hne : t :: segs ≠ [] := List.cons_ne_nil t segs
      rw [referenceResolve_cons_cons, Held.resolve]
      split_ifs with hdot hdotdot
      · exact Behind.resolve_eq_iff hne (dot_spec hv).2.2 hslash' hb.dot
      · rw [step_up hb.ne_nil, Option.bind_some]
        cases hh : h.dotdot with
        | none => exact eq_comm
        | some h' =>
            have hspec := dotdot_spec hv
            rw [hh] at hspec
            exact Behind.resolve_eq_iff hne hspec.2.2 hslash' (hb.dotdot hv hh)
      · exact Behind.resolve_eq_iff hne (hv.push (hslash s List.mem_cons_self)) hslash' (hb.push s)

/-! ## The condition -/

/-- Ambiguous names are taken for a root at a `.`. -/
theorem dot_behind {h : Held} (hroot : h.root = false) (hnames : ambiguous h.names = true) :
    h.dot.Behind h.names := by
  obtain ⟨root, names⟩ := h
  obtain rfl : root = false := hroot
  rcases ambiguous_iff.mp hnames with hone | htwo
  · obtain rfl : names = [[]] := hone
    exact behind_replicate true 0 []
  · obtain rfl : names = [[], []] := htwo
    exact behind_replicate true 0 [[]]

/-- And so they are at a `..`, where the loop is out of bounds or behind. -/
theorem dotdot_behind {h h' : Held} (hroot : h.root = false)
    (hnames : ambiguous h.names = true ∨ h.names.dropLast = [[], []]) (hdotdot : h.dotdot = some h') :
    h'.Behind h.names.dropLast := by
  obtain ⟨root, names⟩ := h
  obtain rfl : root = false := hroot
  by_cases hone : names = [[]]
  · subst hone
    exact absurd hdotdot.symm (Option.some_ne_none h')
  by_cases htwo : names = [[], []]
  · subst htwo
    obtain rfl : (⟨true, []⟩ : Held) = h' := Option.some_inj.mp hdotdot
    exact behind_replicate true 0 []
  · have hdrop : names.dropLast = [[], []] := by
      refine hnames.resolve_left fun hambiguous => ?_
      exact (ambiguous_iff.mp hambiguous).elim hone htwo
    rw [Held.dotdot, if_neg Bool.false_ne_true, if_neg hone, if_neg htwo, hdrop] at hdotdot
    obtain rfl := Option.some_inj.mp hdotdot
    rw [hdrop]
    exact behind_replicate true 0 [[]]

/-- At a `.`, the state is the one of the reference or behind it. -/
theorem dot_clear_or_behind {h : Held} (hv : h.Valid) :
    ((h.root || !ambiguous h.names) = true ∧ h.dot = h) ∨
      ((h.root || !ambiguous h.names) = false ∧ h.dot.Behind h.names) := by
  by_cases hroot : h.root = true
  · exact Or.inl ⟨by rw [hroot, Bool.true_or], dot_of_ne hv (Or.inl hroot)⟩
  rw [Bool.not_eq_true] at hroot
  by_cases hnames : ambiguous h.names = true
  · exact Or.inr ⟨by rw [hroot, hnames]; rfl, dot_behind hroot hnames⟩
  · rw [Bool.not_eq_true] at hnames
    exact Or.inl ⟨by rw [hroot, hnames]; rfl, dot_of_ne hv (Or.inr (not_ambiguous_iff.mp hnames))⟩

/-- At a `..` below the empty directory, the state is the one of the reference,
or out of bounds, or behind it. -/
theorem dotdot_clear_or_behind {h : Held} (hv : h.Valid) (hne : h.names ≠ []) :
    ((h.root || (!ambiguous h.names && h.names.dropLast != [[], []])) = true ∧
        h.dotdot = some ⟨isRoot h.names.dropLast, h.names.dropLast⟩) ∨
      ((h.root || (!ambiguous h.names && h.names.dropLast != [[], []])) = false ∧
        ∀ h', h.dotdot = some h' → h'.Behind h.names.dropLast) := by
  by_cases hroot : h.root = true
  · exact Or.inl ⟨by rw [hroot, Bool.true_or], dotdot_of_ne hv hne (Or.inl hroot)⟩
  rw [Bool.not_eq_true] at hroot
  by_cases hnames : ambiguous h.names = true
  · exact Or.inr ⟨by rw [hroot, hnames]; rfl, fun h' => dotdot_behind hroot (Or.inl hnames)⟩
  rw [Bool.not_eq_true] at hnames
  by_cases hdrop : h.names.dropLast = [[], []]
  · exact Or.inr ⟨by rw [hroot, hnames, hdrop]; rfl, fun h' => dotdot_behind hroot (Or.inr hdrop)⟩
  · exact Or.inl ⟨by rw [hroot, hnames, bne_iff_ne.mpr hdrop]; rfl,
      dotdot_of_ne hv hne (Or.inr ⟨not_ambiguous_iff.mp hnames, hdrop⟩)⟩

/-- The loop meets the reference where the separator is computed again for names
that are not taken for a root, and where the reference is out of bounds. -/
theorem resolve_eq_iff :
    ∀ {segs : List Bytes} {h : Held}, segs ≠ [] → h.Valid → (∀ s ∈ segs, char '/' ∉ s) →
      (h.resolve segs = referenceResolve h.names segs ↔
        referenceResolve h.names segs = none ∨ clear h.root h.names segs = true)
  | [], _, hne, _, _ => absurd rfl hne
  | [s], h, _, hv, hslash => by
      rw [referenceResolve_single, Held.resolve, clear]
      split_ifs with hdot hdotdot
      · rcases dot_clear_or_behind hv with ⟨hclear, hh⟩ | ⟨hclear, hbehind⟩
        · rw [hclear, hh]
          simp [clear]
        · have hne := hbehind.withSlash_ne []
          rw [hclear]
          simpa using hne
      · by_cases hnil : h.names = []
        · rw [hv.dotdot_of_nil hnil, hnil]
          simp [step]
        rw [step_up hnil]
        rcases dotdot_clear_or_behind hv hnil with ⟨hclear, hh⟩ | ⟨hclear, hbehind⟩
        · rw [hclear, hh]
          simp [clear]
        · rw [hclear]
          cases hh : h.dotdot with
          | none => simp [hnil]
          | some h' =>
              have hne := (hbehind h' hh).withSlash_ne []
              simpa [hnil] using hne
      · simp [clear]
  | s :: t :: segs, h, _, hv, hslash => by
      have hslash' : ∀ x ∈ t :: segs, char '/' ∉ x := fun x hx =>
        hslash x (List.mem_cons_of_mem s hx)
      have hne : t :: segs ≠ [] := List.cons_ne_nil t segs
      rw [referenceResolve_cons_cons, Held.resolve, clear]
      split_ifs with hdot hdotdot
      · rcases dot_clear_or_behind hv with ⟨hclear, hh⟩ | ⟨hclear, hbehind⟩
        · rw [hclear, hh, Bool.true_and]
          exact resolve_eq_iff hne hv hslash'
        · rw [hclear, Bool.false_and, or_iff_left Bool.false_ne_true]
          exact hbehind.resolve_eq_iff hne (dot_spec hv).2.2 hslash'
      · by_cases hnil : h.names = []
        · rw [hv.dotdot_of_nil hnil, hnil]
          simp [step]
        have hspec := dotdot_spec hv
        rw [step_up hnil, Option.bind_some, decide_eq_false hnil, Bool.false_or]
        rcases dotdot_clear_or_behind hv hnil with ⟨hclear, hh⟩ | ⟨hclear, hbehind⟩
        · rw [hh] at hspec
          rw [hclear, hh, Bool.true_and]
          exact resolve_eq_iff hne hspec.2.2 hslash'
        · rw [hclear, Bool.false_and, or_iff_left Bool.false_ne_true]
          cases hh : h.dotdot with
          | none => exact eq_comm
          | some h' =>
              rw [hh] at hspec
              exact (hbehind h' hh).resolve_eq_iff hne hspec.2.2 hslash'
      · exact resolve_eq_iff hne (hv.push (hslash s List.mem_cons_self)) hslash'

end Held

/-! ## Links -/

theorem outcome_inj {url : Bytes} {a b : Option Bytes} : outcome url a = outcome url b ↔ a = b := by
  constructor
  · intro h
    cases a <;> cases b <;> simp_all [outcome]
  · rintro rfl
    rfl

/-- Adjacent slashes are a chain of directories with empty names exactly where
the reference is out of bounds or the code never takes such a chain for a root. -/
theorem resolveLinkTarget_slashes_iff (u z : Bytes) (hu : u ≠ []) (hquery : char '?' ∉ u)
    (hfragment : char '#' ∉ u) (hrelative : u.head? ≠ some (char '/')) :
    resolveLinkTarget u z =
        outcome (percentDecode u)
          (referenceResolve (dirSegments z) ((percentDecode u).splitOn (char '/'))) ↔
      referenceResolve (dirSegments z) ((percentDecode u).splitOn (char '/')) = none ∨
        (dirSegments z ≠ [[], []] ∧
          clear (isRoot (dirSegments z)) (dirSegments z) ((percentDecode u).splitOn (char '/')) =
            true) := by
  have hdir := dirSegments_noSlash z
  have hvalid := Held.ofText_valid hdir
  have hne : (percentDecode u).splitOn (char '/') ≠ [] := List.splitOn_ne_nil _ _
  have hslash : ∀ s ∈ (percentDecode u).splitOn (char '/'), char '/' ∉ s :=
    fun s hs => notMem_of_mem_splitOn hs
  rw [resolveLinkTarget_relative hu hquery hfragment hrelative, outcome_inj]
  by_cases htwo : dirSegments z = [[], []]
  · have hbehind : (Held.ofText [[], []]).Behind [[], []] := Held.behind_replicate true 0 [[]]
    rw [htwo] at hvalid ⊢
    rw [hbehind.resolve_eq_iff hne hvalid hslash]
    simp
  · rw [Held.ofText_of_ne htwo] at hvalid ⊢
    rw [Held.resolve_eq_iff hne hvalid hslash]
    exact or_congr_right (and_iff_right htwo).symm

/-- A link up and down again over empty names. -/
theorem resolveLinkTarget_slashes_sample :
    resolveLinkTarget (str "lib//../python") (str "/top///bottom") =
      .ok (str "/top///lib/python") := by
  rw [(resolveLinkTarget_slashes_iff (str "lib//../python") (str "/top///bottom") (by decide)
    (by decide) (by decide) (by decide)).mpr (Or.inr (by decide))]
  decide

/-- The entry `//a` is in a directory of two empty names, and the code looks for
its links in the one above. -/
theorem resolveLinkTarget_slashes_root :
    (∃ s ∈ (dirSegments (str "//a")).tail, s = []) ∧
      resolveLinkTarget (str "b") (str "//a") = .ok (str "/b") ∧
      outcome (percentDecode (str "b"))
        (referenceResolve (dirSegments (str "//a"))
          ((percentDecode (str "b")).splitOn (char '/'))) = .ok (str "//b") := by
  decide

end ZimTools
