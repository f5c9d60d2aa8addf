import Mathlib.Data.List.Induction
import Mathlib.Order.Basic
import Mathlib.Tactic.Common

/-!
# Trees of directories

A directory is the list of the names that lead to it, the last name first; its parent is the tail. A
tree has the root and with a directory its parent. A path is walked name by name, and `.` and `..`
are names of their own. Making a directory fails where the directory above it is missing, and where
there is nothing to make. A tree only grows, so what was there once stays, and so does what a walk
found.
-/

namespace Demos.Lib

variable {N : Type*}

/-- A set of directories with the root and all parents. -/
structure DirTree (N : Type*) where
  has : List N → Bool
  root : has [] = true
  parent : ∀ n d, has (n :: d) = true → has d = true

/-- One name of a path. -/
inductive Component (N : Type*) where
  | current
  | parent
  | name (n : N)
deriving DecidableEq, Repr

/-- What comes of making a directory. -/
inductive Mkdir where
  | created
  | exists
  | noEntry
deriving DecidableEq, Repr

namespace DirTree

variable {tree tree' : DirTree N} {d e start : List N} {c : Component N} {n : N}
  {path : List (Component N)}

/-- The second tree has all directories of the first. -/
instance instPreorder : Preorder (DirTree N) where
  le tree tree' := ∀ d, tree.has d = true → tree'.has d = true
  le_refl _ _ h := h
  le_trans _ _ _ h h' d hd := h' d (h d hd)

/-- The ancestors of a directory are in the tree. -/
theorem has_of_suffix (hd : tree.has d = true) (he : e <:+ d) : tree.has e = true := by
  obtain ⟨names, rfl⟩ := he
  induction names with
  | nil => exact hd
  | cons n names ih => exact ih (tree.parent n _ hd)

/-- Where one name leads. -/
def enter (tree : DirTree N) (d : List N) : Component N → Option (List N)
  | .current => some d
  | .parent => some d.tail
  | .name n => if tree.has (n :: d) then some (n :: d) else none

/-- Where a path leads. -/
def walk (tree : DirTree N) (start : List N) (path : List (Component N)) : Option (List N) :=
  path.foldlM tree.enter start

/-- A walk ends in a directory of the tree. -/
theorem has_of_walk (hstart : tree.has start = true) (h : tree.walk start path = some d) :
    tree.has d = true := by
  induction path generalizing start with
  | nil => exact Option.some.inj h ▸ hstart
  | cons c path ih =>
    rw [walk, List.foldlM_cons, Option.bind_eq_bind, Option.bind_eq_some_iff] at h
    obtain ⟨mid, hmid, hrest⟩ := h
    refine ih ?_ hrest
    cases c with
    | current => exact Option.some.inj hmid ▸ hstart
    | parent => exact has_of_suffix hstart (Option.some.inj hmid ▸ List.tail_suffix start)
    | name n =>
      rw [enter, Option.ite_none_right_eq_some] at hmid
      exact Option.some.inj hmid.2 ▸ hmid.1

/-- A larger tree leads to the same place. -/
theorem walk_mono (hle : tree ≤ tree') (h : tree.walk start path = some d) :
    tree'.walk start path = some d := by
  induction path generalizing start with
  | nil => exact h
  | cons c path ih =>
    rw [walk, List.foldlM_cons, Option.bind_eq_bind, Option.bind_eq_some_iff] at h ⊢
    obtain ⟨mid, hmid, hrest⟩ := h
    refine ⟨mid, ?_, ih hrest⟩
    cases c with
    | current | parent => exact hmid
    | name n =>
      rw [enter, Option.ite_none_right_eq_some] at hmid ⊢
      exact ⟨hle _ hmid.1, hmid.2⟩

theorem walk_concat (tree : DirTree N) (start : List N) (path : List (Component N))
    (c : Component N) :
    tree.walk start (path ++ [c]) = (tree.walk start path).bind (tree.enter · c) := by
  rw [walk, List.foldlM_append]
  simp only [List.foldlM_cons, List.foldlM_nil, bind_pure]
  rfl

variable [DecidableEq N]

/-- The tree with one more directory, if the parent is there. -/
def make (tree : DirTree N) (d : List N) (n : N) : DirTree N where
  has e := tree.has e || (e == n :: d && tree.has d)
  root := by simp [tree.root]
  parent m e h := by
    rcases Bool.or_eq_true_iff.mp h with h | h
    · simp [tree.parent m e h]
    · simp only [Bool.and_eq_true, beq_iff_eq, List.cons.injEq] at h
      obtain ⟨⟨-, rfl⟩, hd⟩ := h
      simp [hd]

theorem le_make (tree : DirTree N) (d : List N) (n : N) : tree ≤ tree.make d n :=
  fun e he => by simp [make, he]

theorem has_make (hd : tree.has d = true) : (tree.make d n).has (n :: d) = true := by
  simp [make, hd]

/-- Make the directory of a path. -/
def mkdir (tree : DirTree N) (start : List N) (path : List (Component N)) : Mkdir × DirTree N :=
  match path.getLast? with
  | none => (.exists, tree)
  | some last =>
    match tree.walk start path.dropLast with
    | none => (.noEntry, tree)
    | some d =>
      match last with
      | .name n => if tree.has (n :: d) then (.exists, tree) else (.created, tree.make d n)
      | _ => (.exists, tree)

/-- What a call of `mkdir` does. -/
theorem mkdir_concat (tree : DirTree N) (start : List N) (path : List (Component N))
    (c : Component N) : tree.mkdir start (path ++ [c]) =
      match tree.walk start path, c with
      | none, _ => (.noEntry, tree)
      | some d, .name n => if tree.has (n :: d) then (.exists, tree) else (.created, tree.make d n)
      | some _, _ => (.exists, tree) := by
  rw [mkdir, List.getLast?_concat, List.dropLast_concat]
  cases tree.walk start path with
  | none => rfl
  | some d => cases c <;> rfl

/-- The tree only grows. -/
theorem le_mkdir (tree : DirTree N) (start : List N) (path : List (Component N)) :
    tree ≤ (tree.mkdir start path).2 := by
  rw [mkdir]
  split
  next => exact le_rfl
  next =>
    split
    next => exact le_rfl
    next =>
      split
      next =>
        split
        · exact le_rfl
        · exact le_make _ _ _
      next => exact le_rfl

/-- Nothing can be made where the directory above is missing. -/
theorem mkdir_eq_noEntry_iff :
    (tree.mkdir start path).1 = .noEntry ↔ tree.walk start path.dropLast = none := by
  rcases List.eq_nil_or_concat path with rfl | ⟨front, c, rfl⟩
  · simp [mkdir, walk]
  rw [List.concat_eq_append, mkdir_concat, List.dropLast_concat]
  cases tree.walk start front with
  | none => simp
  | some d =>
    cases c with
    | current | parent => simp
    | name n =>
      dsimp only
      split <;> simp

/-- What can be made can be made in a larger tree, if it is not there. -/
theorem mkdir_ne_noEntry_mono (hle : tree ≤ tree') (h : (tree.mkdir start path).1 ≠ .noEntry) :
    (tree'.mkdir start path).1 ≠ .noEntry := by
  rw [ne_eq, mkdir_eq_noEntry_iff] at h ⊢
  obtain ⟨d, hd⟩ := Option.ne_none_iff_exists'.mp h
  rw [walk_mono hle hd]
  exact Option.some_ne_none d

/-- Nothing is made where something is. -/
theorem mkdir_of_walk (h : tree.walk start path = some d) :
    (tree.mkdir start path).1 = .exists := by
  rcases List.eq_nil_or_concat path with rfl | ⟨front, c, rfl⟩
  · rfl
  rw [List.concat_eq_append] at h ⊢
  rw [walk_concat, Option.bind_eq_some_iff] at h
  obtain ⟨mid, hmid, hlast⟩ := h
  rw [mkdir_concat, hmid]
  cases c with
  | current | parent => rfl
  | name n =>
    rw [enter, Option.ite_none_right_eq_some] at hlast
    simp [hlast.1]

/-- Unless the directory above is missing, the path leads to a directory afterwards. -/
theorem exists_walk_mkdir (hstart : tree.has start = true)
    (h : (tree.mkdir start path).1 ≠ .noEntry) :
    ∃ d, (tree.mkdir start path).2.walk start path = some d := by
  rcases List.eq_nil_or_concat path with rfl | ⟨front, c, rfl⟩
  · exact ⟨start, rfl⟩
  rw [List.concat_eq_append] at h ⊢
  rw [ne_eq, mkdir_eq_noEntry_iff, List.dropLast_concat] at h
  obtain ⟨mid, hmid⟩ := Option.ne_none_iff_exists'.mp h
  have hlater := walk_mono (tree.le_mkdir start (front ++ [c])) hmid
  rw [walk_concat, hlater, Option.bind_some]
  cases c with
  | current => exact ⟨mid, rfl⟩
  | parent => exact ⟨mid.tail, rfl⟩
  | name n =>
    refine ⟨n :: mid, ?_⟩
    rw [enter, mkdir_concat, hmid, if_pos]
    by_cases hn : tree.has (n :: mid) = true
    · simp [hn]
    · simpa [hn] using has_make (has_of_walk hstart hmid)

end DirTree

end Demos.Lib
