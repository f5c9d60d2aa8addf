import Demos.Lib.RootedGraph
import Mathlib.Algebra.Order.Ring.Int
import Mathlib.Logic.Function.Basic

/-!
# Linked binary search trees

The program never releases a node, so that a pointer is the number of the allocation that returned
it, and a store of nodes is a function of these numbers. A null pointer is `none`. A loop that goes
down the tree is bounded by the number of allocated nodes: one that visits more of them has come
back to a node it has seen, and never ends.
-/

namespace Demos.Algorithm

open Demos.Lib

/-- `Node`. -/
structure Node where
  value : ℤ
  parent : Option ℕ := none
  left : Option ℕ := none
  right : Option ℕ := none
deriving DecidableEq, Repr

/-- The nodes by their numbers, the number of the next allocation, and the root. -/
structure SearchTree where
  nodes : ℕ → Node
  fresh : ℕ
  root : Option ℕ

namespace SearchTree

/-- The null tree before anything is allocated. -/
def empty : SearchTree where
  nodes _ := { value := 0 }
  fresh := 0
  root := none

/-- `n->value`. -/
def value (t : SearchTree) (n : ℕ) : ℤ := (t.nodes n).value

/-- `n->parent`. -/
def parent (t : SearchTree) (n : ℕ) : Option ℕ := (t.nodes n).parent

/-- `n->left`. -/
def left (t : SearchTree) (n : ℕ) : Option ℕ := (t.nodes n).left

/-- `n->right`. -/
def right (t : SearchTree) (n : ℕ) : Option ℕ := (t.nodes n).right

/-- Change one node. -/
def modify (t : SearchTree) (n : ℕ) (f : Node → Node) : SearchTree :=
  { t with nodes := Function.update t.nodes n (f (t.nodes n)) }

/-- `n->parent = p`. -/
def setParent (t : SearchTree) (n : ℕ) (p : Option ℕ) : SearchTree :=
  t.modify n fun node => { node with parent := p }

/-- `n->left = p`. -/
def setLeft (t : SearchTree) (n : ℕ) (p : Option ℕ) : SearchTree :=
  t.modify n fun node => { node with left := p }

/-- `n->right = p`. -/
def setRight (t : SearchTree) (n : ℕ) (p : Option ℕ) : SearchTree :=
  t.modify n fun node => { node with right := p }

/-- `new Node(v)`, whose number is the one that was free. -/
def alloc (t : SearchTree) (v : ℤ) : SearchTree :=
  { t with nodes := Function.update t.nodes t.fresh { value := v }, fresh := t.fresh + 1 }

/-- The loop of `Insert`: the last node on the way down, where `p` is the one before `node`. -/
def descend (t : SearchTree) (v : ℤ) : ℕ → Option ℕ → Option ℕ → Option (Option ℕ)
  | _, p, none => some p
  | 0, _, some _ => none
  | fuel + 1, _, some node =>
    descend t v fuel (some node) (if v < t.value node then t.left node else t.right node)

/-- `Insert`, unless its loop never ends. -/
def insert (t : SearchTree) (v : ℤ) : Option SearchTree := do
  let newNode := t.fresh
  let t := t.alloc v
  match ← t.descend v newNode none t.root with
  | none => return { t with root := some newNode }
  | some p =>
    if v < t.value p then return (t.setLeft p (some newNode)).setParent newNode (some p)
    else return (t.setRight p (some newNode)).setParent newNode (some p)

/-- The loop of `Min`, unless it never ends. -/
def minLoop (t : SearchTree) : ℕ → ℕ → Option ℕ
  | 0, _ => none
  | fuel + 1, node =>
    match t.left node with
    | none => some node
    | some left => minLoop t fuel left

/-- `Min`. -/
def min (t : SearchTree) (node : ℕ) : Option ℕ := t.minLoop t.fresh node

/-- `Transplant`. -/
def transplant (t : SearchTree) (u : ℕ) (v : Option ℕ) : SearchTree :=
  match t.parent u with
  | none => { t with root := v }
  | some p => if t.left p = some u then t.setLeft p v else t.setRight p v

/-- The part of `Delete` that takes the minimum out of the right subtree of `r`, unless it is the
root of that subtree. A null pointer that is followed ends the program. -/
def detachMin (t : SearchTree) (r p : ℕ) : Option SearchTree :=
  if t.parent p ≠ some r then do
    let t := t.transplant p (t.right p)
    let t := t.setRight p (t.right r)
    return t.setParent (← t.right p) (some p)
  else some t

/-- `Delete`. -/
def delete (t : SearchTree) (r : ℕ) : Option SearchTree :=
  match t.left r with
  | none => some (t.transplant r (t.right r))
  | some left =>
    match t.right r with
    | none => some (t.transplant r (some left))
    | some right => do
      let p ← t.min right
      let t ← t.detachMin r p
      let t := t.transplant r (some p)
      let t := t.setLeft p (t.left r)
      return t.setParent (← t.left p) (some p)

section Fields

variable {t : SearchTree} {n m : ℕ} {x : Option ℕ} {v : ℤ}

/-- The store after a change. -/
theorem nodes_modify {f : Node → Node} :
    (t.modify n f).nodes m = if m = n then f (t.nodes m) else t.nodes m := by
  by_cases h : m = n
  · subst h
    simp [modify]
  · simp [modify, h]

@[simp]
theorem parent_setParent : (t.setParent n x).parent m = if m = n then x else t.parent m := by
  simp only [setParent, parent, nodes_modify]
  split <;> rfl

@[simp]
theorem left_setParent : (t.setParent n x).left m = t.left m := by
  simp only [setParent, left, nodes_modify]
  split <;> rfl

@[simp]
theorem right_setParent : (t.setParent n x).right m = t.right m := by
  simp only [setParent, right, nodes_modify]
  split <;> rfl

@[simp]
theorem parent_setLeft : (t.setLeft n x).parent m = t.parent m := by
  simp only [setLeft, parent, nodes_modify]
  split <;> rfl

@[simp]
theorem left_setLeft : (t.setLeft n x).left m = if m = n then x else t.left m := by
  simp only [setLeft, left, nodes_modify]
  split <;> rfl

@[simp]
theorem right_setLeft : (t.setLeft n x).right m = t.right m := by
  simp only [setLeft, right, nodes_modify]
  split <;> rfl

@[simp]
theorem parent_setRight : (t.setRight n x).parent m = t.parent m := by
  simp only [setRight, parent, nodes_modify]
  split <;> rfl

@[simp]
theorem left_setRight : (t.setRight n x).left m = t.left m := by
  simp only [setRight, left, nodes_modify]
  split <;> rfl

@[simp]
theorem right_setRight : (t.setRight n x).right m = if m = n then x else t.right m := by
  simp only [setRight, right, nodes_modify]
  split <;> rfl

@[simp]
theorem value_setParent : (t.setParent n x).value m = t.value m := by
  simp only [setParent, value, nodes_modify]
  split <;> rfl

@[simp]
theorem value_setLeft : (t.setLeft n x).value m = t.value m := by
  simp only [setLeft, value, nodes_modify]
  split <;> rfl

@[simp]
theorem value_setRight : (t.setRight n x).value m = t.value m := by
  simp only [setRight, value, nodes_modify]
  split <;> rfl

@[simp]
theorem root_setParent : (t.setParent n x).root = t.root := rfl

@[simp]
theorem root_setLeft : (t.setLeft n x).root = t.root := rfl

@[simp]
theorem root_setRight : (t.setRight n x).root = t.root := rfl

@[simp]
theorem root_alloc : (t.alloc v).root = t.root := rfl

/-- The store after an allocation. -/
theorem nodes_alloc :
    (t.alloc v).nodes m = if m = t.fresh then { value := v } else t.nodes m := by
  by_cases h : m = t.fresh
  · subst h
    simp [alloc]
  · simp [alloc, h]

@[simp]
theorem value_alloc : (t.alloc v).value m = if m = t.fresh then v else t.value m := by
  simp only [value, nodes_alloc]
  split <;> rfl

@[simp]
theorem parent_alloc : (t.alloc v).parent m = if m = t.fresh then none else t.parent m := by
  simp only [parent, nodes_alloc]
  split <;> rfl

@[simp]
theorem left_alloc : (t.alloc v).left m = if m = t.fresh then none else t.left m := by
  simp only [left, nodes_alloc]
  split <;> rfl

@[simp]
theorem right_alloc : (t.alloc v).right m = if m = t.fresh then none else t.right m := by
  simp only [right, nodes_alloc]
  split <;> rfl

end Fields

/-- The tree as a rooted graph. -/
def rooted (t : SearchTree) : Rooted ℕ where
  root := t.root
  child x y := t.left x = some y ∨ t.right x = some y
  parent := t.parent

end SearchTree

/-- The operations of the program on its tree. -/
inductive TreeOp where
  | insert (v : ℤ)
  | delete (r : ℕ)
deriving DecidableEq, Repr

/-- The operation is called and returns; only a node of the tree is deleted. -/
def TreeStep (t : SearchTree) : TreeOp → SearchTree → Prop
  | .insert v, t' => t.insert v = some t'
  | .delete r, t' => t.rooted.Reaches r ∧ t.delete r = some t'

end Demos.Algorithm
