import Mathlib.Data.List.Induction
import ZimTools.Lib.DotSegments
import ZimTools.Tools.LinkResolver

/-!
# Directories in link resolution

The loop of `resolveLinkTarget` holds a directory as flat text and computes the
separator from the text again at its start and behind every `.` and `..`.
`Held` is a directory as the code holds it: a root, with no separator behind it,
or names joined by slashes.  The text without a byte and the slash alone are
taken for the root, also where they are one or two empty names joined by
slashes, and so names can be lost (`Held.ofText`).

`Held.finish_foldlM` is the simulation: the loop over the segments of a URL is
`Held.resolve`, which speaks of names only.
-/

namespace ZimTools

open Bytes DotSegments

/-- What the loop makes of its last state. -/
def finish (r : Except LinkError ResolveState) : Except LinkError Bytes :=
  r.map fun st => st.resolvedPath ++ st.pathTerminator

/-- A reference result as the code reports it. -/
def outcome (url : Bytes) : Option Bytes → Except LinkError Bytes
  | none => .error (.outOfBoundsURL url)
  | some text => .ok text

/-- The directory with a slash behind each of its names. -/
def withSlash (dir : List Bytes) : Bytes := dir.flatMap (· ++ str "/")

/-- The directories that the code writes without a separator behind them. -/
def isRoot (dir : List Bytes) : Bool := dir = [] ∨ dir = [[]]

/-- A directory as the code holds it. -/
structure Held where
  root : Bool
  names : List Bytes
deriving DecidableEq

namespace Held

def separator (h : Held) : Bytes := if h.root then [] else str "/"

def path (h : Held) : Bytes :=
  if h.root then withSlash h.names else (withSlash h.names).dropLast

/-- What is held. -/
structure Valid (h : Held) : Prop where
  root : h.root = true → isRoot h.names = true
  joined : h.root = false → h.names ≠ []
  noSlash : ∀ s ∈ h.names, char '/' ∉ s

/-- What the code holds of a directory when it has computed the separator from
its text. -/
def ofText (dir : List Bytes) : Held :=
  if isRoot dir then ⟨true, dir⟩ else if dir = [[], []] then ⟨true, [[]]⟩ else ⟨false, dir⟩

/-- At a `.`. -/
def dot (h : Held) : Held :=
  if h.root then h else if h.names = [[]] then ⟨true, []⟩ else ofText h.names

/-- At a `..`. -/
def dotdot (h : Held) : Option Held :=
  if h.root then (if h.names = [] then none else some ⟨true, []⟩)
  else if h.names = [[]] then none
  else if h.names = [[], []] then some ⟨true, []⟩
  else some (ofText h.names.dropLast)

def push (h : Held) (s : Bytes) : Held := ⟨false, h.names ++ [s]⟩

/-- The state of the loop. -/
def state (h : Held) (term : Bytes) : ResolveState := ⟨h.path, term, h.separator⟩

end Held

/-! ## Texts -/

@[simp] theorem withSlash_nil : withSlash [] = [] := rfl

theorem withSlash_append (a b : List Bytes) : withSlash (a ++ b) = withSlash a ++ withSlash b :=
  List.flatMap_append

theorem withSlash_single (s : Bytes) : withSlash [s] = s ++ str "/" := by
  simp [withSlash]

theorem withSlash_concat (dir : List Bytes) (s : Bytes) :
    withSlash (dir ++ [s]) = withSlash dir ++ s ++ str "/" := by
  rw [withSlash_append, withSlash_single, List.append_assoc]

theorem dropLast_withSlash_concat (dir : List Bytes) (s : Bytes) :
    (withSlash (dir ++ [s])).dropLast = withSlash dir ++ s := by
  rw [withSlash_concat]
  exact List.dropLast_concat

theorem withSlash_eq_nil_iff {dir : List Bytes} : withSlash dir = [] ↔ dir = [] := by
  rcases List.eq_nil_or_concat' dir with rfl | ⟨dir, s, rfl⟩
  · exact ⟨fun _ => rfl, fun _ => rfl⟩
  · rw [withSlash_concat]
    constructor
    · intro h
      exact absurd (List.append_eq_nil_iff.mp h).2 (List.cons_ne_nil _ _)
    · intro h
      exact absurd h (List.concat_ne_nil s dir)

/-- The text of joined names is empty for one empty name alone. -/
theorem joined_eq_nil_iff {dir : List Bytes} {s : Bytes} :
    withSlash dir ++ s = [] ↔ dir = [] ∧ s = [] := by
  rw [List.append_eq_nil_iff, withSlash_eq_nil_iff]

/-- And it is a slash for two empty names alone. -/
theorem joined_eq_slash_iff {dir : List Bytes} {s : Bytes} (hs : char '/' ∉ s) :
    withSlash dir ++ s = str "/" ↔ dir = [[]] ∧ s = [] := by
  constructor
  · intro h
    rcases List.eq_nil_or_concat' dir with rfl | ⟨dir, d, rfl⟩
    · rw [withSlash_nil, List.nil_append] at h
      exact absurd (h ▸ List.mem_singleton_self _ : char '/' ∈ s) hs
    · rw [withSlash_concat, List.append_assoc] at h
      have hlength := congrArg List.length h
      have hsep : (str "/").length = 1 := rfl
      simp only [List.length_append, hsep] at hlength
      obtain ⟨rfl, rfl⟩ := joined_eq_nil_iff.mp (List.length_eq_zero_iff.mp
        (by rw [List.length_append]; omega : (withSlash dir ++ d).length = 0))
      exact ⟨rfl, List.length_eq_zero_iff.mp (by omega)⟩
  · rintro ⟨rfl, rfl⟩
    rfl

theorem isRoot_iff {dir : List Bytes} : isRoot dir = true ↔ dir = [] ∨ dir = [[]] :=
  decide_eq_true_iff

theorem findLastOf_slash_single {s : Bytes} (hs : char '/' ∉ s) : findLastOf s (str "/") = none :=
  findLastOf_eq_none fun b hb hmem => hs (by simpa [str] using (List.mem_singleton.mp hmem) ▸ hb)

theorem findLastOf_slash_append (a : Bytes) {s : Bytes} (hs : char '/' ∉ s) :
    findLastOf (a ++ str "/" ++ s) (str "/") = some a.length := by
  rw [List.append_assoc]
  refine findLastOf_append_cons a (by decide) fun b hb hmem => hs ?_
  exact (List.mem_singleton.mp hmem) ▸ hb

/-- Two names or more are not the directory of one empty name. -/
theorem snoc_snoc_ne_root (dir : List Bytes) (d s : Bytes) : dir ++ [d] ++ [s] ≠ [[]] := by
  intro h
  have := congrArg List.length h
  simp at this

theorem dot_ne_dotdot : str ".." ≠ str "." := by decide

namespace Held

theorem path_joined (dir : List Bytes) (s : Bytes) :
    (⟨false, dir ++ [s]⟩ : Held).path = withSlash dir ++ s :=
  dropLast_withSlash_concat dir s

/-- The text with its separator. -/
theorem Valid.path_separator {h : Held} (hv : h.Valid) : h.path ++ h.separator = withSlash h.names := by
  obtain ⟨root, names⟩ := h
  cases root with
  | true => exact List.append_nil _
  | false =>
      rcases List.eq_nil_or_concat' names with rfl | ⟨dir, s, rfl⟩
      · exact absurd rfl (hv.joined rfl)
      · rw [path_joined, withSlash_concat]
        rfl

theorem push_path {h : Held} (hv : h.Valid) (s : Bytes) :
    h.path ++ h.separator ++ s = (h.push s).path := by
  rw [hv.path_separator, push, path_joined]

theorem Valid.push {h : Held} (hv : h.Valid) {s : Bytes} (hs : char '/' ∉ s) : (h.push s).Valid where
  root := fun hroot => absurd hroot Bool.false_ne_true
  joined := fun _ => List.concat_ne_nil s h.names
  noSlash := by
    intro t ht
    rcases List.mem_append.mp ht with ht | ht
    · exact hv.noSlash t ht
    · rw [List.mem_singleton.mp ht]
      exact hs

theorem ofText_valid {dir : List Bytes} (h : ∀ s ∈ dir, char '/' ∉ s) : (ofText dir).Valid := by
  rw [ofText]
  split
  · next hroot => exact ⟨fun _ => hroot, fun hf => absurd hf.symm Bool.false_ne_true, h⟩
  · next hroot =>
      split
      · exact ⟨fun _ => rfl, fun hf => absurd hf.symm Bool.false_ne_true, by simp⟩
      · refine ⟨fun ht => absurd ht Bool.false_ne_true, fun _ hnil => hroot ?_, h⟩
        exact isRoot_iff.mpr (Or.inl hnil)

theorem ofText_path {dir : List Bytes} (h : dir ≠ [[]]) :
    (ofText dir).path = (⟨false, dir⟩ : Held).path := by
  by_cases hnil : dir = []
  · subst hnil
    rfl
  by_cases htwo : dir = [[], []]
  · subst htwo
    rfl
  rw [ofText, if_neg, if_neg htwo]
  rw [isRoot_iff]
  exact not_or.mpr ⟨hnil, h⟩

/-- Names that are no root and not two empty ones have a text of their own. -/
theorem ofText_separator {dir : List Bytes} (h : ∀ s ∈ dir, char '/' ∉ s) :
    getPathSeparatorFor (ofText dir).path = (ofText dir).separator := by
  by_cases hroot : isRoot dir = true
  · rcases isRoot_iff.mp hroot with rfl | rfl <;> rfl
  by_cases htwo : dir = [[], []]
  · subst htwo
    rfl
  rw [ofText, if_neg hroot, if_neg htwo]
  rw [isRoot_iff, not_or] at hroot
  rcases List.eq_nil_or_concat' dir with rfl | ⟨dir, s, rfl⟩
  · exact absurd rfl hroot.1
  rw [path_joined, getPathSeparatorFor, if_neg]
  · rfl
  · rintro (hnil | hslash)
    · obtain ⟨rfl, rfl⟩ := joined_eq_nil_iff.mp hnil
      exact hroot.2 rfl
    · obtain ⟨rfl, rfl⟩ := (joined_eq_slash_iff (h s (by simp))).mp hslash
      exact htwo rfl

/-- The separator is computed again. -/
theorem dot_spec {h : Held} (hv : h.Valid) :
    h.dot.path = h.path ∧ getPathSeparatorFor h.path = h.dot.separator ∧ h.dot.Valid := by
  obtain ⟨root, names⟩ := h
  cases root with
  | true => rcases isRoot_iff.mp (hv.root rfl) with rfl | rfl <;> exact ⟨rfl, rfl, hv⟩
  | false =>
      by_cases hone : names = [[]]
      · subst hone
        exact ⟨rfl, rfl, fun _ => rfl, fun hf => absurd hf.symm Bool.false_ne_true, by simp [dot]⟩
      · have hdot : (⟨false, names⟩ : Held).dot = ofText names := by
          simp [dot, hone]
        rw [hdot, ← ofText_path hone]
        exact ⟨rfl, ofText_separator hv.noSlash, ofText_valid hv.noSlash⟩

/-- What is left of joined names without the last one. -/
theorem dropLastSegmentOfThePath_joined (dir : List Bytes) (d : Bytes) {s : Bytes}
    (hs : char '/' ∉ s) :
    dropLastSegmentOfThePath (withSlash (dir ++ [d]) ++ s) =
      some (if dir ++ [d] ≠ [[]] then withSlash dir ++ d else if s = [] then [] else str "/") := by
  have hlast := findLastOf_slash_append (withSlash dir ++ d) hs
  have hne : withSlash dir ++ d ++ str "/" ++ s ≠ [] := by simp [str]
  rw [withSlash_concat, dropLastSegmentOfThePath, if_neg hne, hlast]
  by_cases hone : dir ++ [d] = [[]]
  · obtain ⟨rfl, rfl⟩ : dir = [] ∧ d = [] := by simpa [List.append_eq_singleton_iff] using hone
    cases s with
    | nil => exact rfl
    | cons c s => exact rfl
  · have hpos : (withSlash dir ++ d).length ≠ 0 := by
      intro hzero
      obtain ⟨rfl, rfl⟩ := joined_eq_nil_iff.mp (List.length_eq_zero_iff.mp hzero)
      exact hone rfl
    obtain ⟨i, hi⟩ := Nat.exists_eq_succ_of_ne_zero hpos
    have htake : (withSlash dir ++ d ++ str "/" ++ s).take (i + 1) = withSlash dir ++ d := by
      rw [← Nat.succ_eq_add_one, ← hi, List.append_assoc (withSlash dir ++ d), List.take_left]
    rw [if_pos hone]
    simp only [hi]
    exact congrArg some htake

theorem valid_empty : (⟨true, []⟩ : Held).Valid :=
  ⟨fun _ => rfl, fun hf => absurd hf.symm Bool.false_ne_true, by simp⟩

/-- The last name is dropped. -/
theorem dotdot_spec {h : Held} (hv : h.Valid) :
    match h.dotdot with
    | none => dropLastSegmentOfThePath h.path = none
    | some h' => dropLastSegmentOfThePath h.path = some h'.path ∧
        getPathSeparatorFor h'.path = h'.separator ∧ h'.Valid := by
  obtain ⟨root, names⟩ := h
  cases root with
  | true =>
      rcases isRoot_iff.mp (hv.root rfl) with rfl | rfl
      · exact rfl
      · exact ⟨rfl, rfl, valid_empty⟩
  | false =>
      rcases List.eq_nil_or_concat' names with rfl | ⟨dir, s, rfl⟩
      · exact absurd rfl (hv.joined rfl)
      have hs : char '/' ∉ s := hv.noSlash s (List.mem_append_right _ (List.mem_singleton_self s))
      rcases List.eq_nil_or_concat' dir with rfl | ⟨dir, d, rfl⟩
      · cases s with
        | nil => exact rfl
        | cons c s =>
            refine ⟨?_, rfl, valid_empty⟩
            rw [path_joined, withSlash_nil, List.nil_append, dropLastSegmentOfThePath,
              if_neg (List.cons_ne_nil c s), findLastOf_slash_single hs]
            rfl
      · have hdrop := dropLastSegmentOfThePath_joined dir d hs
        have hdir : ∀ t ∈ dir ++ [d], char '/' ∉ t := fun t ht =>
          hv.noSlash t (List.mem_append_left _ ht)
        by_cases hone : dir ++ [d] = [[]]
        · obtain ⟨rfl, rfl⟩ : dir = [] ∧ d = [] := by
            simpa [List.append_eq_singleton_iff] using hone
          cases s with
          | nil => exact ⟨rfl, rfl, valid_empty⟩
          | cons c s =>
              have hdotdot : (⟨false, [] ++ [[]] ++ [c :: s]⟩ : Held).dotdot = some ⟨true, [[]]⟩ := by
                simp [dotdot, ofText, isRoot]
              rw [hdotdot]
              refine ⟨?_, rfl, fun _ => rfl, fun hf => absurd hf.symm Bool.false_ne_true, by simp⟩
              rw [path_joined, hdrop]
              rfl
        · have htwo : dir ++ [d] ++ [s] ≠ [[], []] := by
            intro h
            have hdropLast := congrArg List.dropLast h
            rw [List.dropLast_concat] at hdropLast
            exact hone hdropLast
          have hdotdot : (⟨false, dir ++ [d] ++ [s]⟩ : Held).dotdot = some (ofText (dir ++ [d])) := by
            rw [dotdot, if_neg Bool.false_ne_true, if_neg (snoc_snoc_ne_root dir d s), if_neg htwo,
              List.dropLast_concat]
          rw [hdotdot]
          refine ⟨?_, ofText_separator hdir, ofText_valid hdir⟩
          rw [ofText_path hone, path_joined, path_joined, hdrop, if_pos hone]

/-! ## The loop -/

/-- What the loop makes of the segments of a URL. -/
def resolve (h : Held) : List Bytes → Option Bytes
  | [] => none
  | [s] =>
      if s = str "." then some (withSlash h.dot.names)
      else if s = str ".." then h.dotdot.map (withSlash ·.names)
      else some (withSlash h.names ++ s)
  | s :: t :: segs =>
      if s = str "." then h.dot.resolve (t :: segs)
      else if s = str ".." then h.dotdot.bind (·.resolve (t :: segs))
      else (h.push s).resolve (t :: segs)

theorem resolveSegment_dot {h : Held} (hv : h.Valid) (url term : Bytes) :
    resolveSegment url (h.state term) (str ".") = .ok (h.dot.state h.dot.separator) := by
  obtain ⟨hpath, hseparator, -⟩ := dot_spec hv
  simp only [resolveSegment, state, if_true, hseparator, hpath]

theorem resolveSegment_dotdot {h : Held} (hv : h.Valid) (url term : Bytes) :
    resolveSegment url (h.state term) (str "..") =
      match h.dotdot with
      | none => .error (.outOfBoundsURL url)
      | some h' => .ok (h'.state h'.separator) := by
  have hspec := dotdot_spec hv
  cases hdotdot : h.dotdot with
  | none =>
      rw [hdotdot] at hspec
      simp only [resolveSegment, state, if_neg dot_ne_dotdot, if_true, hspec]
  | some h' =>
      rw [hdotdot] at hspec
      obtain ⟨hpath, hseparator, -⟩ := hspec
      simp only [resolveSegment, state, if_neg dot_ne_dotdot, if_true, hpath, hseparator]

theorem resolveSegment_push {h : Held} (hv : h.Valid) (url term : Bytes) {s : Bytes}
    (hdot : s ≠ str ".") (hdotdot : s ≠ str "..") :
    resolveSegment url (h.state term) s = .ok ((h.push s).state []) := by
  simp only [resolveSegment, state, if_neg hdot, if_neg hdotdot, push_path hv]
  rfl

theorem finish_state {h : Held} (hv : h.Valid) :
    finish (.ok (h.state h.separator)) = .ok (withSlash h.names) :=
  congrArg Except.ok hv.path_separator

/-- The loop over the segments is `resolve`. -/
theorem finish_foldlM (url : Bytes) :
    ∀ (segs : List Bytes) (h : Held) (term : Bytes), segs ≠ [] → h.Valid →
      (∀ s ∈ segs, char '/' ∉ s) →
      finish (segs.foldlM (resolveSegment url) (h.state term)) = outcome url (h.resolve segs)
  | [], _, _, hne, _, _ => absurd rfl hne
  | [s], h, term, _, hv, _ => by
      rw [List.foldlM_cons, resolve]
      by_cases hdot : s = str "."
      · subst hdot
        rw [resolveSegment_dot hv, if_pos rfl]
        exact finish_state (dot_spec hv).2.2
      by_cases hdotdot : s = str ".."
      · subst hdotdot
        have hspec := dotdot_spec hv
        rw [resolveSegment_dotdot hv, if_neg dot_ne_dotdot, if_pos rfl]
        cases hh : h.dotdot with
        | none => rfl
        | some h' =>
            rw [hh] at hspec
            exact finish_state hspec.2.2
      · rw [resolveSegment_push hv url term hdot hdotdot, if_neg hdot, if_neg hdotdot,
          ← path_joined]
        exact congrArg Except.ok (List.append_nil _)
  | s :: t :: segs, h, term, _, hv, hslash => by
      have hslash' : ∀ x ∈ t :: segs, char '/' ∉ x := fun x hx =>
        hslash x (List.mem_cons_of_mem s hx)
      rw [List.foldlM_cons, resolve]
      by_cases hdot : s = str "."
      · subst hdot
        rw [resolveSegment_dot hv, if_pos rfl]
        exact finish_foldlM url (t :: segs) h.dot _ (List.cons_ne_nil t segs) (dot_spec hv).2.2
          hslash'
      by_cases hdotdot : s = str ".."
      · subst hdotdot
        have hspec := dotdot_spec hv
        rw [resolveSegment_dotdot hv, if_neg dot_ne_dotdot, if_pos rfl]
        cases hh : h.dotdot with
        | none => rfl
        | some h' =>
            rw [hh] at hspec
            exact finish_foldlM url (t :: segs) h' _ (List.cons_ne_nil t segs) hspec.2.2 hslash'
      · rw [resolveSegment_push hv url term hdot hdotdot, if_neg hdot, if_neg hdotdot]
        exact finish_foldlM url (t :: segs) (h.push s) _ (List.cons_ne_nil t segs)
          (hv.push (hslash s (List.mem_cons_self ..))) hslash'

end Held

/-! ## Without loss -/

namespace Held

theorem ofText_of_ne {dir : List Bytes} (h : dir ≠ [[], []]) : ofText dir = ⟨isRoot dir, dir⟩ := by
  rw [ofText, if_neg h]
  cases hroot : isRoot dir <;> rfl

/-- Names that are not one or two empty ones are kept at a `.`. -/
theorem dot_of_ne {h : Held} (hv : h.Valid)
    (hnames : h.root = true ∨ (h.names ≠ [[]] ∧ h.names ≠ [[], []])) : h.dot = h := by
  obtain ⟨root, names⟩ := h
  cases root with
  | true => rfl
  | false =>
      obtain ⟨hone, htwo⟩ := hnames.resolve_left Bool.false_ne_true
      have hroot : isRoot names = false := by
        rw [← Bool.not_eq_true, isRoot_iff, not_or]
        exact ⟨hv.joined rfl, hone⟩
      rw [dot, if_neg Bool.false_ne_true, if_neg hone, ofText_of_ne htwo, hroot]

/-- And all but the last one are kept at a `..`. -/
theorem dotdot_of_ne {h : Held} (hv : h.Valid) (hne : h.names ≠ [])
    (hnames : h.root = true ∨
      ((h.names ≠ [[]] ∧ h.names ≠ [[], []]) ∧ h.names.dropLast ≠ [[], []])) :
    h.dotdot = some ⟨isRoot h.names.dropLast, h.names.dropLast⟩ := by
  obtain ⟨root, names⟩ := h
  cases root with
  | true =>
      obtain rfl : names = [[]] := (isRoot_iff.mp (hv.root rfl)).resolve_left hne
      rfl
  | false =>
      obtain ⟨⟨hone, htwo⟩, hdrop⟩ := hnames.resolve_left Bool.false_ne_true
      rw [dotdot, if_neg Bool.false_ne_true, if_neg hone, if_neg htwo, ofText_of_ne hdrop]

/-- No directory is above the empty one. -/
theorem Valid.dotdot_of_nil {h : Held} (hv : h.Valid) (hnil : h.names = []) : h.dotdot = none := by
  obtain ⟨root, names⟩ := h
  cases root with
  | true => exact (if_pos rfl).trans (if_pos hnil)
  | false => exact absurd hnil (hv.joined rfl)

end Held

end ZimTools
