import Demos.Lib.Run

/-!
# The bounded first-in first-out queue

The specification that a bounded channel is compared with: a list of items, oldest first, and
a capacity. An insertion succeeds while there is room and a removal takes the oldest item;
the two failures leave the queue as it is.
-/

namespace Demos.Lib

variable {α : Type*}

/-- Append an item if the capacity allows it. -/
def enqueue (capacity : ℕ) (queue : List α) (item : α) : Option (List α) :=
  if queue.length < capacity then some (queue ++ [item]) else none

/-- The observable outcomes of queue operations. -/
inductive QueueEvent (α : Type*)
  | enqueued (item : α)
  | dequeued (item : α)
  | full
  | empty

/-- The outcomes a queue allows in each state. -/
inductive QueueStep (capacity : ℕ) : List α → QueueEvent α → List α → Prop
  | enqueued {queue next : List α} {item : α} (h : enqueue capacity queue item = some next) :
      QueueStep capacity queue (.enqueued item) next
  | dequeued {queue : List α} {item : α} : QueueStep capacity (item :: queue) (.dequeued item) queue
  | full {queue : List α} (h : queue.length = capacity) : QueueStep capacity queue .full queue
  | empty : QueueStep capacity [] .empty []

/-- An insertion succeeds exactly below the capacity. -/
theorem enqueue_eq_some_iff {capacity : ℕ} {queue next : List α} {item : α} :
    enqueue capacity queue item = some next ↔ queue.length < capacity ∧ next = queue ++ [item] := by
  unfold enqueue
  split
  · simp [*, eq_comm]
  · simp [*]

end Demos.Lib
