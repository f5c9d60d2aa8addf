import Mathlib.Data.Fintype.Basic
import Demos.Lib.LinkedRing
import Demos.Lib.Run

/-!
# Rings

The macros of `ring.h` as sequences of stores, over links between any number of nodes. Each store
is made where the source makes it, so that a later one reads what an earlier one has written. The
operations that the macros are for act on lists, one for every head; a node belongs to one list at
most, and an element is inserted or made a head only while it belongs to none.
-/

namespace Demos.Oak

open Demos.Lib

section Macros

variable {Node : Type} [DecidableEq Node]

/-- A store to `OAK_RING_NEXT(n)`. -/
def setNext (s : Links Node) (n value : Node) : Links Node :=
  { s with next := Function.update s.next n value }

/-- A store to `OAK_RING_PREV(n)`. -/
def setPrev (s : Links Node) (n value : Node) : Links Node :=
  { s with prev := Function.update s.prev n value }

/-- `OAK_RING_INIT`. -/
def ringInit (s : Links Node) (n : Node) : Links Node :=
  let s := setNext s n n
  setPrev s n n

/-- `OAK_RING_EMPTY`. -/
def RingEmpty (s : Links Node) (h : Node) : Prop := h = s.next h

instance (s : Links Node) (h : Node) : Decidable (RingEmpty s h) :=
  inferInstanceAs (Decidable (_ = _))

/-- `OAK_RING_FOREACH`: the nodes that the loop visits within a number of tests. -/
def ringForeach (s : Links Node) (h : Node) (fuel : ℕ) : Option (List Node) :=
  walk s.next h fuel (s.next h)

/-- `OAK_RING_INSERT_HEAD`. -/
def ringInsertHead (s : Links Node) (h n : Node) : Links Node :=
  let s := setNext s n (s.next h)
  let s := setPrev s n h
  let s := setPrev s (s.next n) n
  setNext s h n

/-- `OAK_RING_INSERT_TAIL`. -/
def ringInsertTail (s : Links Node) (h n : Node) : Links Node :=
  let s := setNext s n h
  let s := setPrev s n (s.prev h)
  let s := setNext s (s.prev n) n
  setPrev s h n

/-- `OAK_RING_REMOVE`. -/
def ringRemove (s : Links Node) (n : Node) : Links Node :=
  let s := setNext s (s.prev n) (s.next n)
  setPrev s (s.next n) (s.prev n)

/-- `OAK_RING_ADD`. -/
def ringAdd (s : Links Node) (h h2 : Node) : Links Node :=
  let s := setNext s (s.prev h) (s.next h2)
  let s := setPrev s (s.next h2) (s.prev h2)
  let s := setPrev s h (s.prev h2)
  setNext s (s.prev h) h

/-- `OAK_RING_SPLIT`. -/
def ringSplit (s : Links Node) (h n h2 : Node) : Links Node :=
  let s := setPrev s h2 (s.prev h)
  let s := setNext s (s.prev h2) h2
  let s := setNext s h2 n
  let s := setPrev s h (s.prev n)
  let s := setNext s (s.prev h) h
  setPrev s n h2

/-- `OAK_RING_MOVE`. -/
def ringMove (s : Links Node) (h h2 : Node) : Links Node :=
  if RingEmpty s h then ringInit s h2
  else
    let n := s.next h
    ringSplit s h n h2

end Macros

/-- A use of a macro. -/
inductive RingOp (Node : Type) where
  | init (n : Node)
  | insertHead (h n : Node)
  | insertTail (h n : Node)
  | remove (n : Node)
  | split (h n h2 : Node)
  | move (h h2 : Node)
deriving DecidableEq, Repr

/-- The links after a macro. -/
def applyRing {Node : Type} [DecidableEq Node] (s : Links Node) : RingOp Node → Links Node
  | .init n => ringInit s n
  | .insertHead h n => ringInsertHead s h n
  | .insertTail h n => ringInsertTail s h n
  | .remove n => ringRemove s n
  | .split h n h2 => ringSplit s h n h2
  | .move h h2 => ringMove s h h2

/-- The list of every head. -/
abbrev Rings (Node : Type) := Node → Option (List Node)

variable {Node : Type}

/-- The node is in the list of some head. -/
def Rings.Element (r : Rings Node) (n : Node) : Prop := ∃ h xs, r h = some xs ∧ n ∈ xs

/-- The node is in no list and, if it is a head, has no elements. -/
def Rings.Free (r : Rings Node) (n : Node) : Prop :=
  ¬ r.Element n ∧ ∀ xs, r n = some xs → xs = []

instance [Fintype Node] [DecidableEq Node] (r : Rings Node) (n : Node) : Decidable (r.Element n) :=
  decidable_of_iff (∃ h, n ∈ (r h).getD []) <| by
    refine exists_congr fun h => ?_
    cases r h <;> simp

instance Rings.decidableForallNil [DecidableEq Node] (r : Rings Node) (n : Node) :
    Decidable (∀ xs, r n = some xs → xs = []) :=
  decidable_of_iff ((r n).getD [] = []) <| by
    cases r n <;> simp

instance [Fintype Node] [DecidableEq Node] (r : Rings Node) (n : Node) : Decidable (r.Free n) :=
  inferInstanceAs (Decidable (_ ∧ _))

/-- What the macros are for: the lists after a use of each. -/
inductive RingStep [DecidableEq Node] (r : Rings Node) : RingOp Node → Rings Node → Prop
  | init {n : Node} (hn : ¬ r.Element n) :
      RingStep r (.init n) (Function.update r n (some []))
  | insertHead {h n : Node} {xs : List Node} (hh : r h = some xs) (hn : r.Free n) (hne : n ≠ h) :
      RingStep r (.insertHead h n)
        (Function.update (Function.update r n none) h (some (n :: xs)))
  | insertTail {h n : Node} {xs : List Node} (hh : r h = some xs) (hn : r.Free n) (hne : n ≠ h) :
      RingStep r (.insertTail h n)
        (Function.update (Function.update r n none) h (some (xs ++ [n])))
  | remove {h n : Node} {xs : List Node} (hh : r h = some xs) (hn : n ∈ xs) :
      RingStep r (.remove n) (Function.update r h (some (xs.erase n)))
  | split {h n h2 : Node} {pre post : List Node} (hh : r h = some (pre ++ n :: post))
      (hfree : r.Free h2) :
      RingStep r (.split h n h2)
        (Function.update (Function.update r h (some pre)) h2 (some (n :: post)))
  | move {h h2 : Node} {xs : List Node} (hh : r h = some xs) (hfree : r.Free h2) :
      RingStep r (.move h h2) (Function.update (Function.update r h (some [])) h2 (some xs))

end Demos.Oak
