import Mathlib.Data.List.Infix

/-!
# Cells of an array

An array has a fixed number of cells, and a cell has no value before it is written. Storing outside
of the array has no result, and neither has loading a cell outside of it or one without a value.
What is known of an array is a list that it begins with; storing into or right behind that list
leaves the part before, followed by what was stored.
-/

namespace Demos.Lib

variable {α : Type*}

/-- The cells of an array. -/
abbrev Cells (α : Type*) := List (Option α)

namespace Cells

/-- An array of which no cell is written. -/
def fresh (size : ℕ) : Cells α := List.replicate size none

/-- Write the elements of a list, one cell after the other. -/
def store (cells : Cells α) (offset : ℕ) (l : List α) : Option (Cells α) :=
  if offset + l.length ≤ cells.length then
    some (cells.take offset ++ l.map some ++ cells.drop (offset + l.length))
  else none

/-- Read the first cells. -/
def load (cells : Cells α) (count : ℕ) : Option (List α) :=
  if count ≤ cells.length then (cells.take count).mapM id else none

/-- The first cells hold the list. -/
def Begins (cells : Cells α) (l : List α) : Prop := l.map some <+: cells

variable {cells : Cells α} {l r : List α} {offset count : ℕ}

@[simp]
theorem length_fresh (size : ℕ) : (fresh size : Cells α).length = size := List.length_replicate

theorem begins_nil (cells : Cells α) : cells.Begins [] := List.nil_prefix

/-- Cells with values are read. -/
theorem mapM_map_some (l : List α) : (l.map some).mapM id = some l := by
  induction l with
  | nil => rfl
  | cons x l ih => simp [List.mapM_cons, ih]

/-- The first cells hold the first elements. -/
theorem Begins.take_eq (h : cells.Begins l) (hcount : count ≤ l.length) :
    cells.take count = (l.take count).map some := by
  obtain ⟨rest, rfl⟩ := h
  rw [List.take_append_of_le_length (by simpa using hcount), List.map_take]

/-- Storing into the list that an array begins with, or right behind it. -/
theorem Begins.store (h : cells.Begins l) (hoffset : offset ≤ l.length)
    (hroom : offset + r.length ≤ cells.length) :
    ∃ cells', cells.store offset r = some cells' ∧ cells'.length = cells.length ∧
      cells'.Begins (l.take offset ++ r) := by
  refine ⟨_, if_pos hroom, ?_, ?_⟩
  · simp only [List.length_append, List.length_take, List.length_map, List.length_drop]
    omega
  · rw [h.take_eq hoffset, ← List.map_append]
    exact List.prefix_append _ _

/-- Loading from the list that an array begins with. -/
theorem Begins.load (h : cells.Begins l) (hcount : count ≤ l.length) :
    cells.load count = some (l.take count) := by
  have hlength : l.length ≤ cells.length := by simpa using h.length_le
  rw [Cells.load, if_pos (hcount.trans hlength), h.take_eq hcount, mapM_map_some]

theorem load_eq_none (h : cells.length < count) : cells.load count = none := if_neg (by omega)

end Cells

end Demos.Lib
