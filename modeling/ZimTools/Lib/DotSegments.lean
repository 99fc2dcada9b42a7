import Mathlib.Data.List.Basic
import Mathlib.Logic.Function.Iterate

/-!
# Walking a segment path

A path of segments is read as a list of moves from a directory: stay where one
is, go up to the parent, or go down to a named child.  The names are arbitrary.

`walk` is the strict reading, where going up from the root is an error.
`Location` is the lexical one, where a relative path may climb above the
directory it starts in and remembers how far.  `Descends` says of a path that
it names no child while it is above its start.  Such a path stays inside its
start or ends in one of the directories above it (`Location.Relative.walk`),
and any other path leaves its start by a name (`exists_of_not_descends`).
-/

namespace DotSegments

universe u

/-- One move of a path. -/
inductive Move (α : Type u) where
  | stay
  | up
  | down (name : α)
deriving DecidableEq, Repr

variable {α : Type u}

/-! ## Pieces between separators -/

/-- No piece of a split holds the separator. -/
theorem notMem_of_mem_splitOn [BEq α] [LawfulBEq α] {sep : α} :
    ∀ {xs : List α} {piece : List α}, piece ∈ xs.splitOn sep → sep ∉ piece
  | [], piece, h => by
      rw [List.splitOn_nil, List.mem_singleton] at h
      simp [h]
  | x :: xs, piece, h => by
      rw [List.splitOn_cons_eq_if_modifyHead] at h
      by_cases hx : (x == sep) = true
      · rw [if_pos hx] at h
        rcases List.mem_cons.mp h with rfl | h
        · simp
        · exact notMem_of_mem_splitOn h
      · rw [if_neg hx] at h
        cases hsplit : xs.splitOn sep with
        | nil => exact absurd hsplit (List.splitOn_ne_nil sep xs)
        | cons y ys =>
            rw [hsplit, List.modifyHead_cons] at h
            rcases List.mem_cons.mp h with rfl | h
            · have hy : sep ∉ y := notMem_of_mem_splitOn (hsplit ▸ List.mem_cons_self)
              simp only [List.mem_cons, not_or]
              exact ⟨fun heq => hx (by simp [heq]), hy⟩
            · exact notMem_of_mem_splitOn (hsplit ▸ List.mem_cons_of_mem y h)

/-! ## The strict walk -/

/-- One move from a directory, its names outermost first. -/
def step (dir : List α) : Move α → Option (List α)
  | .stay => some dir
  | .up => if dir = [] then none else some dir.dropLast
  | .down name => some (dir ++ [name])

/-- A list of moves from a directory.  Going up from the root fails. -/
def walk (dir : List α) (moves : List (Move α)) : Option (List α) :=
  moves.foldlM step dir

theorem step_up_append (dir : List α) (name : α) : step (dir ++ [name]) .up = some dir := by
  simp [step]

@[simp] theorem walk_nil (dir : List α) : walk dir [] = some dir := rfl

@[simp] theorem walk_cons_stay (dir : List α) (moves : List (Move α)) :
    walk dir (.stay :: moves) = walk dir moves := rfl

@[simp] theorem walk_cons_up_append (dir : List α) (name : α) (moves : List (Move α)) :
    walk (dir ++ [name]) (.up :: moves) = walk dir moves := by
  simp only [walk, List.foldlM_cons, step_up_append]
  rfl

@[simp] theorem walk_cons_down (dir : List α) (name : α) (moves : List (Move α)) :
    walk dir (.down name :: moves) = walk (dir ++ [name]) moves := rfl

/-! ## The lexical walk -/

/-- Where a path leads to when nothing is known of the file system: the names
below the root, or below the directory `ups` levels above the current one. -/
structure Location (α : Type u) where
  absolute : Bool
  ups : Nat
  names : List α
deriving DecidableEq

namespace Location

def parent (loc : Location α) : Location α :=
  if loc.names ≠ [] then { loc with names := loc.names.dropLast }
  else if loc.absolute then loc
  else { loc with ups := loc.ups + 1 }

def child (loc : Location α) (name : α) : Location α := { loc with names := loc.names ++ [name] }

def move (loc : Location α) : Move α → Location α
  | .stay => loc
  | .up => loc.parent
  | .down name => loc.child name

def walk (loc : Location α) (moves : List (Move α)) : Location α := moves.foldl move loc

@[simp] theorem walk_nil (loc : Location α) : loc.walk [] = loc := rfl

@[simp] theorem walk_append (loc : Location α) (a b : List (Move α)) :
    loc.walk (a ++ b) = (loc.walk a).walk b := List.foldl_append

@[simp] theorem parent_child (loc : Location α) (name : α) : (loc.child name).parent = loc := by
  simp [child, parent]

theorem move_absolute (loc : Location α) (m : Move α) : (loc.move m).absolute = loc.absolute := by
  cases m with
  | stay => rfl
  | up =>
      rw [move, parent]
      split_ifs <;> rfl
  | down name => rfl

theorem walk_downs (loc : Location α) (names : List α) :
    loc.walk (names.map .down) = { loc with names := loc.names ++ names } := by
  induction names generalizing loc with
  | nil => rw [List.append_nil]; rfl
  | cons name names ih =>
      change (loc.child name).walk (names.map .down) = _
      rw [ih, child, List.append_assoc]
      rfl

/-- Behind its first `k` names a walk has only names that it goes down. -/
theorem forall_drop_walk {P : α → Prop} {k : Nat} {moves : List (Move α)}
    (hmoves : ∀ name, Move.down name ∈ moves → P name) {loc : Location α}
    (h : ∀ name ∈ loc.names.drop k, P name) : ∀ name ∈ (loc.walk moves).names.drop k, P name := by
  induction moves generalizing loc with
  | nil => exact h
  | cons m moves ih =>
      refine ih (fun name hname => hmoves name (List.mem_cons_of_mem m hname)) ?_
      intro name hname
      cases m with
      | stay => exact h name hname
      | up =>
          rw [move, parent] at hname
          split_ifs at hname
          · exact h name (((List.dropLast_sublist loc.names).drop k).subset hname)
          · exact h name hname
          · exact h name hname
      | down name' =>
          rw [move, child, List.drop_append] at hname
          rcases List.mem_append.mp hname with hname | hname
          · exact h name hname
          · obtain rfl := List.mem_singleton.mp (List.mem_of_mem_drop hname)
            exact hmoves name (List.mem_cons_self ..)

theorem walk_downs_inj {loc : Location α} {names names' : List α} :
    loc.walk (names.map .down) = loc.walk (names'.map .down) ↔ names = names' := by
  rw [walk_downs, walk_downs]
  constructor
  · intro h
    exact List.append_cancel_left (congrArg Location.names h)
  · intro h
    rw [h]

/-- As many levels up as there are names down. -/
theorem walk_downs_ups (loc : Location α) (names : List α) :
    (loc.walk (names.map .down)).walk (List.replicate names.length .up) = loc := by
  induction names generalizing loc with
  | nil => rfl
  | cons name names ih =>
      change ((loc.child name).walk (names.map .down)).walk _ = _
      rw [List.length_cons, List.replicate_succ', walk_append, ih]
      exact parent_child loc name

/-- Where the strict walk gets through, the lexical one goes the same way. -/
theorem walk_of_walk {dir target : List α} {moves : List (Move α)}
    (h : DotSegments.walk dir moves = some target) :
    (⟨true, 0, dir⟩ : Location α).walk moves = ⟨true, 0, target⟩ := by
  induction moves generalizing dir with
  | nil => rw [Option.some.inj h, walk_nil]
  | cons m moves ih =>
      cases m with
      | stay => exact ih h
      | up =>
          rcases List.eq_nil_or_concat' dir with rfl | ⟨dir, name, rfl⟩
          · cases h
          · rw [walk_cons_up_append] at h
            rw [← ih h]
            exact congrArg (List.foldl move · moves) (parent_child ⟨true, 0, dir⟩ name)
      | down name => exact ih h

/-- Some names below `base`. -/
def Inside (base loc : Location α) : Prop :=
  ∃ names, names ≠ [] ∧ loc = { base with names := base.names ++ names }

/-- `base`, or one of the directories above it. -/
def AtOrAbove (base loc : Location α) : Prop := ∃ k, loc = parent^[k] base

end Location

/-- Whether a path names no child while it has gone up more often than down,
`n` being how far below its start it is. -/
def Descends : Int → List (Move α) → Prop
  | _, [] => True
  | n, .stay :: moves => Descends n moves
  | n, .up :: moves => Descends (n - 1) moves
  | n, .down _ :: moves => 0 ≤ n ∧ Descends (n + 1) moves

instance : (n : Int) → (moves : List (Move α)) → Decidable (Descends n moves)
  | _, [] => inferInstanceAs (Decidable True)
  | n, .stay :: moves => instDecidableDescends n moves
  | n, .up :: moves => instDecidableDescends (n - 1) moves
  | n, .down _ :: moves =>
      have := instDecidableDescends (n + 1) moves
      inferInstanceAs (Decidable (0 ≤ n ∧ Descends (n + 1) moves))

theorem Descends.of_append {a b : List (Move α)} {n : Int} (h : Descends n (a ++ b)) :
    Descends n a := by
  induction a generalizing n with
  | nil => trivial
  | cons m a ih =>
      cases m with
      | stay => exact ih h
      | up => exact ih h
      | down name => exact ⟨h.1, ih h.2⟩

/-- Which name comes last does not matter. -/
theorem descends_append_down (a : List (Move α)) (x y : α) {n : Int} :
    Descends n (a ++ [.down x]) ↔ Descends n (a ++ [.down y]) := by
  induction a generalizing n with
  | nil => exact Iff.rfl
  | cons m a ih =>
      cases m with
      | stay => exact ih
      | up => exact ih
      | down name => exact and_congr_right fun _ => ih

namespace Location

/-- `loc` is `n` levels below `base`, or as many above it as `n` is negative. -/
def Relative (base : Location α) (n : Int) (loc : Location α) : Prop :=
  (∃ names : List α, (names.length : Int) = n ∧
      loc = { base with names := base.names ++ names }) ∨
    ∃ k : Nat, n = -((k : Int) + 1) ∧ loc = parent^[k + 1] base

theorem Relative.start (base : Location α) : Relative base 0 base :=
  Or.inl ⟨[], rfl, by simp⟩

theorem Relative.parent {base loc : Location α} {n : Int} (h : Relative base n loc) :
    Relative base (n - 1) loc.parent := by
  rcases h with ⟨names, hlen, rfl⟩ | ⟨k, rfl, rfl⟩
  · rcases List.eq_nil_or_concat' names with rfl | ⟨names, name, rfl⟩
    · refine Or.inr ⟨0, by simp [← hlen], by simp⟩
    · refine Or.inl ⟨names, ?_, ?_⟩
      · rw [← hlen, List.length_append]
        simp
      · rw [← List.append_assoc]
        exact parent_child { base with names := base.names ++ names } name
  · exact Or.inr ⟨k + 1, by omega, (Function.iterate_succ_apply' _ (k + 1) base).symm⟩

theorem Relative.child {base loc : Location α} {n : Int} (h : Relative base n loc)
    (hn : 0 ≤ n) (name : α) : Relative base (n + 1) (loc.child name) := by
  rcases h with ⟨names, hlen, rfl⟩ | ⟨k, rfl, rfl⟩
  · refine Or.inl ⟨names ++ [name], by simp [← hlen], ?_⟩
    simp [Location.child]
  · omega

/-- A path that descends keeps to its start. -/
theorem Relative.walk {base loc : Location α} {moves : List (Move α)} {n : Int}
    (h : Relative base n loc) (hd : Descends n moves) : ∃ n', Relative base n' (loc.walk moves) := by
  induction moves generalizing n loc with
  | nil => exact ⟨n, h⟩
  | cons m moves ih =>
      cases m with
      | stay => exact ih h hd
      | up => exact ih h.parent hd
      | down name => exact ih (h.child hd.1 name) hd.2

theorem Relative.inside_or_above {base loc : Location α} {n : Int} (h : Relative base n loc) :
    Inside base loc ∨ AtOrAbove base loc := by
  rcases h with ⟨names, -, rfl⟩ | ⟨k, -, rfl⟩
  · by_cases hnames : names = []
    · subst hnames
      exact Or.inr ⟨0, by simp⟩
    · exact Or.inl ⟨names, hnames, rfl⟩
  · exact Or.inr ⟨k + 1, rfl⟩

end Location

/-- Any other path goes down by a name from a directory above its start. -/
theorem exists_of_not_descends {base loc : Location α} {moves : List (Move α)} {n : Int}
    (h : Location.Relative base n loc) (hd : ¬ Descends n moves) :
    ∃ a name b k, moves = a ++ .down name :: b ∧ loc.walk a = Location.parent^[k + 1] base := by
  induction moves generalizing n loc with
  | nil => exact absurd trivial hd
  | cons m moves ih =>
      cases m with
      | stay =>
          obtain ⟨a, name, b, k, rfl, hk⟩ := ih h hd
          exact ⟨.stay :: a, name, b, k, rfl, hk⟩
      | up =>
          obtain ⟨a, name, b, k, rfl, hk⟩ := ih h.parent hd
          exact ⟨.up :: a, name, b, k, rfl, hk⟩
      | down child =>
          by_cases hn : 0 ≤ n
          · obtain ⟨a, name, b, k, rfl, hk⟩ := ih (h.child hn child) fun h' => hd ⟨hn, h'⟩
            exact ⟨.down child :: a, name, b, k, rfl, hk⟩
          · rcases h with ⟨names, hlen, -⟩ | ⟨k, -, rfl⟩
            · omega
            · exact ⟨[], child, moves, k, rfl, rfl⟩

end DotSegments
