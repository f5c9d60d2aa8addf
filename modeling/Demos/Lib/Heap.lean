import Mathlib.Data.Set.Insert
import Std.Data.ExtTreeMap

/-!
# The heap of a C program

Blocks are live from the allocation that returns them to the call that releases them. The address
of a new block is the allocator's choice among those that are not live, and is an input here. The
bytes behind a pointer are an unbounded array; the accesses that can go wrong, a write and a
release, are recorded with what the heap knew at the time: the size of the block written to, and
whether the released pointer was a live block.
-/

namespace Demos.Lib

/-- A pointer: null, a heap block, or memory that the allocator does not manage. -/
inductive Ptr where
  | null
  | block (address : ℕ)
  | foreign (address : ℕ)
deriving DecidableEq, Repr

/-- A recorded access. -/
inductive MemoryEvent where
  | wrote (ptr : Ptr) (offset count blockSize : ℕ)
  | released (ptr : Ptr) (live : Bool)
deriving DecidableEq, Repr

/-- Every byte written lies inside the block. -/
def MemoryEvent.InBounds : MemoryEvent → Prop
  | .wrote _ offset count blockSize => ∀ i < count, offset + i < blockSize
  | .released _ _ => True

/-- What is released is a live block. -/
def MemoryEvent.LiveRelease : MemoryEvent → Prop
  | .wrote _ _ _ _ => True
  | .released _ live => live = true

/-- The live blocks with their sizes, the bytes behind every pointer, and the accesses so far. -/
structure Heap where
  blocks : Std.ExtTreeMap ℕ ℕ
  memory : Ptr → ℕ → UInt8
  trace : List MemoryEvent

variable {heap heap' : Heap} {ptr : Ptr} {size address : ℕ}

/-- A heap without live blocks, whatever the memory contains. -/
def Heap.empty (memory : Ptr → ℕ → UInt8) : Heap := ⟨∅, memory, []⟩

/-- The number of bytes allocated behind a pointer. -/
def Heap.blockSize (heap : Heap) : Ptr → ℕ
  | .block address => (heap.blocks[address]?).getD 0
  | _ => 0

/-- The live blocks. -/
def Heap.live (heap : Heap) : Set Ptr := {ptr | ∃ address ∈ heap.blocks, ptr = .block address}

instance : DecidablePred (fun ptr => ptr ∈ heap.live)
  | .null => isFalse (by rintro ⟨_, _, h⟩; cases h)
  | .foreign _ => isFalse (by rintro ⟨_, _, h⟩; cases h)
  | .block address =>
    decidable_of_iff (address ∈ heap.blocks)
      ⟨fun h => ⟨address, h, rfl⟩, fun ⟨_, h, heq⟩ => Ptr.block.inj heq ▸ h⟩

/-- `malloc(size)` where the allocator returns this address. -/
def Heap.malloc (heap : Heap) (size address : ℕ) : Option (Ptr × Heap) :=
  if address ∈ heap.blocks then none
  else some (.block address, { heap with blocks := heap.blocks.insert address size })

/-- `free(ptr)`. -/
def Heap.free (heap : Heap) : Ptr → Heap
  | .null => heap
  | .block address =>
    { heap with
      blocks := heap.blocks.erase address
      trace := heap.trace ++ [.released (.block address) (decide (.block address ∈ heap.live))] }
  | .foreign address =>
    { heap with trace := heap.trace ++ [.released (.foreign address) false] }

/-- `realloc(ptr, size)` where the allocator returns this address: the old block is released and
its bytes are kept up to the smaller size. -/
def Heap.realloc (heap : Heap) (ptr : Ptr) (size address : ℕ) : Option (Ptr × Heap) :=
  let kept := min (heap.blockSize ptr) size
  ((heap.free ptr).malloc size address).map fun (new, after) =>
    (new, { after with
      memory := fun p i =>
        if p = new ∧ i < kept then heap.memory ptr i else heap.memory p i })

/-- `memcpy(ptr + offset, str, count)`. -/
def Heap.memcpy (heap : Heap) (ptr : Ptr) (offset : ℕ) (str : ℕ → UInt8) (count : ℕ) : Heap :=
  { heap with
    memory := fun p i =>
      if p = ptr ∧ offset ≤ i ∧ i < offset + count then str (i - offset) else heap.memory p i
    trace := heap.trace ++ [.wrote ptr offset count (heap.blockSize ptr)] }

@[simp]
theorem Heap.block_mem_live : Ptr.block address ∈ heap.live ↔ address ∈ heap.blocks := by
  constructor
  · rintro ⟨_, h, heq⟩
    exact Ptr.block.inj heq ▸ h
  · exact fun h => ⟨address, h, rfl⟩

@[simp]
theorem Heap.null_notMem_live : Ptr.null ∉ heap.live := by
  rintro ⟨_, _, h⟩
  cases h

@[simp]
theorem Heap.foreign_notMem_live : Ptr.foreign address ∉ heap.live := by
  rintro ⟨_, _, h⟩
  cases h

@[simp]
theorem Heap.live_empty (memory : Ptr → ℕ → UInt8) : (Heap.empty memory).live = ∅ := by
  ext ptr
  cases ptr <;> simp [Heap.empty]

section Write

variable (heap : Heap) (ptr : Ptr) (offset : ℕ) (str : ℕ → UInt8) (count : ℕ)

@[simp]
theorem Heap.memcpy_blockSize :
    (heap.memcpy ptr offset str count).blockSize = heap.blockSize := rfl

@[simp]
theorem Heap.memcpy_trace :
    (heap.memcpy ptr offset str count).trace =
      heap.trace ++ [.wrote ptr offset count (heap.blockSize ptr)] := rfl

@[simp]
theorem Heap.memcpy_live :
    (heap.memcpy ptr offset str count).live = heap.live := rfl

theorem Heap.memcpy_memory_self (i : ℕ) : (heap.memcpy ptr offset str count).memory ptr i =
      if offset ≤ i ∧ i < offset + count then str (i - offset) else heap.memory ptr i := by
  simp [Heap.memcpy]

end Write

/-- What a release takes from the live blocks. -/
@[simp]
theorem Heap.live_free (heap : Heap) (ptr : Ptr) : (heap.free ptr).live = heap.live \ {ptr} := by
  ext q
  cases ptr with
  | null =>
    simp only [Heap.free, Set.mem_sdiff, Set.mem_singleton_iff, iff_self_and]
    rintro hq rfl
    exact Heap.null_notMem_live hq
  | foreign address =>
    change q ∈ heap.live ↔ _
    simp only [Set.mem_sdiff, Set.mem_singleton_iff, iff_self_and]
    rintro hq rfl
    exact Heap.foreign_notMem_live hq
  | block address =>
    cases q with
    | null | foreign => simp
    | block other =>
      simp only [Heap.free, Heap.block_mem_live, Std.ExtTreeMap.mem_erase,
        Set.mem_sdiff, Set.mem_singleton_iff, Ptr.block.injEq]
      grind

/-- A release leaves the sizes of the other blocks. -/
theorem Heap.blockSize_free {other : Ptr} (h : other ≠ ptr) :
    (heap.free ptr).blockSize other = heap.blockSize other := by
  cases ptr with
  | null | foreign => rfl
  | block address =>
    cases other with
    | null | foreign => rfl
    | block address' =>
      have hne : address ≠ address' := fun heq => h (heq ▸ rfl)
      simp [Heap.free, Heap.blockSize, Std.ExtTreeMap.getElem?_erase, hne]

/-- What an allocation returns and does to the heap. -/
theorem Heap.malloc_eq_some {new : Ptr} (h : heap.malloc size address = some (new, heap')) :
    new ∉ heap.live ∧ new ≠ .null ∧ heap'.live = insert new heap.live ∧
      heap'.blockSize new = size ∧
      (∀ other, other ≠ new → heap'.blockSize other = heap.blockSize other) ∧
      heap'.trace = heap.trace := by
  unfold Heap.malloc at h
  split at h
  · cases h
  · rename_i hfresh
    cases h
    refine ⟨by simpa using hfresh, by simp, ?_, ?_, ?_, rfl⟩
    · ext q
      cases q with
      | null | foreign => simp
      | block other =>
        simp only [Heap.block_mem_live, Std.ExtTreeMap.mem_insert, Std.compare_eq_iff_eq,
          Set.mem_insert_iff, Ptr.block.injEq]
        grind
    · simp [Heap.blockSize]
    · intro other hother
      cases other with
      | null | foreign => rfl
      | block other =>
        have hne : address ≠ other := fun heq => hother (heq ▸ rfl)
        simp [Heap.blockSize, Std.ExtTreeMap.getElem?_insert, hne]

/-- What a reallocation returns and does to the heap. -/
theorem Heap.realloc_eq_some {new : Ptr} (h : heap.realloc ptr size address = some (new, heap')) :
    new ∉ heap.live \ {ptr} ∧ new ≠ .null ∧ heap'.live = insert new (heap.live \ {ptr}) ∧
      heap'.blockSize new = size ∧
      (∀ other, other ≠ new → other ≠ ptr → heap'.blockSize other = heap.blockSize other) ∧
      heap'.trace = (heap.free ptr).trace := by
  obtain ⟨⟨new', after⟩, hmalloc, heq⟩ := Option.map_eq_some_iff.mp h
  obtain ⟨rfl, rfl⟩ := Prod.mk.inj heq
  obtain ⟨hfresh, hnull, hlive, hsize, hother, htrace⟩ := Heap.malloc_eq_some hmalloc
  rw [Heap.live_free] at hfresh hlive
  refine ⟨hfresh, hnull, hlive, hsize, ?_, htrace⟩
  intro other hnew hold
  exact (hother other hnew).trans (Heap.blockSize_free hold)

@[simp]
theorem Heap.free_memory (heap : Heap) (ptr : Ptr) : (heap.free ptr).memory = heap.memory := by
  cases ptr <;> rfl

/-- An allocation changes no byte. -/
theorem Heap.malloc_memory {new : Ptr} (h : heap.malloc size address = some (new, heap')) :
    heap'.memory = heap.memory := by
  unfold Heap.malloc at h
  split at h
  · cases h
  · rw [← (Prod.mk.inj (Option.some.inj h)).2]

/-- A reallocation keeps the bytes that fit both blocks, and those behind every other pointer. -/
theorem Heap.realloc_memory {new : Ptr} (h : heap.realloc ptr size address = some (new, heap')) :
    (∀ i < min (heap.blockSize ptr) size, heap'.memory new i = heap.memory ptr i) ∧
      ∀ other, other ≠ new → heap'.memory other = heap.memory other := by
  obtain ⟨⟨new', after⟩, hmalloc, heq⟩ := Option.map_eq_some_iff.mp h
  obtain ⟨rfl, rfl⟩ := Prod.mk.inj heq
  refine ⟨?_, ?_⟩
  · intro i hi
    exact if_pos ⟨rfl, hi⟩
  · intro other hother
    funext i
    exact if_neg fun hnew => hother hnew.1

theorem Heap.memcpy_memory_of_ne {offset count : ℕ} {str : ℕ → UInt8} {other : Ptr}
    (h : other ≠ ptr) : (heap.memcpy ptr offset str count).memory other = heap.memory other := by
  funext i
  exact if_neg fun hptr => h hptr.1

/-- The accesses that a release records: releasing a live block or null is fine. -/
theorem Heap.free_trace_liveRelease (htrace : ∀ e ∈ heap.trace, e.LiveRelease)
    (hptr : ptr = .null ∨ ptr ∈ heap.live) : ∀ e ∈ (heap.free ptr).trace, e.LiveRelease := by
  cases ptr with
  | null => exact htrace
  | foreign _ => simp at hptr
  | block address =>
    have hlive : Ptr.block address ∈ heap.live := by simpa using hptr
    simp only [Heap.free, List.forall_mem_append, List.forall_mem_singleton]
    exact ⟨htrace, decide_eq_true hlive⟩

/-- A release writes nothing. -/
theorem Heap.free_trace_inBounds :
    (∀ e ∈ (heap.free ptr).trace, e.InBounds) ↔ ∀ e ∈ heap.trace, e.InBounds := by
  cases ptr with
  | null => rfl
  | foreign | block =>
    simp only [Heap.free, List.forall_mem_append, List.forall_mem_singleton]
    exact and_iff_left trivial

end Demos.Lib
