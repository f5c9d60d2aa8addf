import Mathlib.Data.List.Basic

/-!
# Sorting in place

`MergeSort` and `InsertSort` work on an array, of which a pointer is an index. A read or a write
outside of the array or of the temporary buffer has no result, and neither has a read of a cell of
the buffer that was not written, so that a call with a result has done none of them.
-/

namespace Demos.Algorithm

variable {α : Type*}

/-- `a[i] = x`. -/
def write (a : List α) (i : ℕ) (x : α) : Option (List α) :=
  if i < a.length then some (a.set i x) else none

section MergeSort

variable (compare : α → α → Bool)

/-- The first loop of `Merge`: the indices `b` and `mid`, and the next cell `ptr` of the buffer. -/
def mergeLoop (a : List α) (base m e b mid ptr : ℕ) (tmp : List (Option α)) :
    Option (ℕ × ℕ × ℕ × List (Option α)) :=
  if b < m ∧ mid < e then do
    let x ← a[base + b]?
    let y ← a[base + mid]?
    if compare x y then
      let tmp ← write tmp ptr (some x)
      mergeLoop a base m e (b + 1) mid (ptr + 1) tmp
    else
      let tmp ← write tmp ptr (some y)
      mergeLoop a base m e b (mid + 1) (ptr + 1) tmp
  else some (b, mid, ptr, tmp)
termination_by (m - b) + (e - mid)
decreasing_by all_goals omega

/-- `while (i < stop) *ptr++ = a[i++];`. -/
def drainLoop (a : List α) (base stop i ptr : ℕ) (tmp : List (Option α)) :
    Option (ℕ × List (Option α)) :=
  if i < stop then do
    let x ← a[base + i]?
    let tmp ← write tmp ptr (some x)
    drainLoop a base stop (i + 1) (ptr + 1) tmp
  else some (ptr, tmp)
termination_by stop - i
decreasing_by omega

/-- `for (size_t i = 0; i < n; ++i) *a++ = tmp[i];` from `i` on. -/
def copyLoop (tmp : List (Option α)) (base n i : ℕ) (a : List α) : Option (List α) :=
  if i < n then do
    let cell ← tmp[i]?
    let x ← cell
    let a ← write a (base + i) x
    copyLoop tmp base n (i + 1) a
  else some a
termination_by n - i
decreasing_by omega

/-- The loops of `Merge` that fill the buffer. -/
def fillTmp (a : List α) (base m e b mid ptr : ℕ) (tmp : List (Option α)) :
    Option (List (Option α)) := do
  let (b, mid, ptr, tmp) ← mergeLoop compare a base m e b mid ptr tmp
  let (ptr, tmp) ← drainLoop a base m b ptr tmp
  let (_, tmp) ← drainLoop a base e mid ptr tmp
  return tmp

/-- `Merge` on the array from `base` on. -/
def merge (a : List α) (base b m e : ℕ) : Option (List α) := do
  let n := e - b
  let tmp ← fillTmp compare a base m e b m 0 (List.replicate n none)
  copyLoop tmp base n 0 a

/-- `MergeSort` on the array from `base` on. -/
def mergeSort (a : List α) (base n : ℕ) : Option (List α) :=
  if n < 2 then some a
  else do
    let mid := n / 2
    let a ← mergeSort a base mid
    let a ← mergeSort a (base + mid) (n - mid)
    merge compare a base 0 mid n
termination_by n
decreasing_by all_goals omega

end MergeSort

section InsertSort

variable (compare : α → α → Bool)

/-- The inner loop of `InsertSort` from `j` on. -/
def insertLoop : ℕ → List α → Option (List α)
  | 0, a => some a
  | j + 1, a => do
    let x ← a[j + 1]?
    let y ← a[j]?
    if compare x y then
      let val := x
      let a ← write a (j + 1) y
      let a ← write a j val
      insertLoop j a
    else some a

/-- The outer loop of `InsertSort`, which has `count` rounds left from `i` on. -/
def insertRounds : ℕ → ℕ → List α → Option (List α)
  | 0, _, a => some a
  | count + 1, i, a => do
    let a ← insertLoop compare i a
    insertRounds count (i + 1) a

/-- `InsertSort`. -/
def insertSort (a : List α) : Option (List α) := insertRounds compare (a.length - 1) 1 a

end InsertSort

end Demos.Algorithm
