import Demos.Lib.Heap
import Demos.Lib.Ownership
import Demos.Lib.Run

/-!
# Buffers

The functions on `oak_buffer`, over a heap and any number of named buffer objects. A call that
ends the process, by a failed assertion or by running out of memory, has no state after it. The
four functions that copy bytes into a buffer share one body and differ in where the bytes go and
in how much memory a growing buffer asks for. A buffer argument is read again after the memory of
the other one was reallocated, as in the source, so the two may be the same object.
-/

namespace Demos.Oak

open Demos.Lib

/-- `OAK_BUFFER_OWNED`. -/
def oakBufferOwned : UInt32 := 0x01

/-- `struct oak_buffer`. -/
structure Buffer where
  ptr : Ptr
  size : UInt64
  flags : UInt32
  capacity : UInt64
deriving DecidableEq, Repr

/-- The buffer carries `OAK_BUFFER_OWNED`. -/
def Buffer.Owned (buffer : Buffer) : Prop := buffer.flags &&& oakBufferOwned ≠ 0

instance (buffer : Buffer) : Decidable buffer.Owned :=
  inferInstanceAs (Decidable (_ ≠ _))

/-- The heap and the buffer objects; an object that is not initialised has no value. -/
structure Store (Name : Type) where
  heap : Heap
  buffers : Name → Option Buffer

variable {Name : Type}

/-- No memory is allocated and no object is initialised. -/
def Store.empty (memory : Ptr → ℕ → UInt8) : Store Name := ⟨.empty memory, fun _ => none⟩

variable [DecidableEq Name]

/-- Write a buffer object. -/
def Store.put (s : Store Name) (heap : Heap) (name : Name) (buffer : Buffer) : Store Name where
  heap := heap
  buffers := Function.update s.buffers name (some buffer)

@[simp]
theorem Store.put_heap (s : Store Name) (heap : Heap) (name : Name) (buffer : Buffer) :
    (s.put heap name buffer).heap = heap := rfl

/-- `oak_buffer_init`. -/
def oakBufferInit (s : Store Name) (buffer : Name) (capacity : UInt64) (address : ℕ) :
    Option (Store Name) :=
  if 0 < capacity then
    (s.heap.malloc (capacity + 1).toNat address).map fun (ptr, heap) =>
      s.put heap buffer ⟨ptr, 0, oakBufferOwned, capacity⟩
  else
    some (s.put s.heap buffer ⟨.null, 0, oakBufferOwned, capacity⟩)

/-- `oak_buffer_init2`. -/
def oakBufferInit2 (s : Store Name) (buffer : Name) (str : Ptr) (len : UInt64) :
    Option (Store Name) :=
  some (s.put s.heap buffer ⟨str, len, 0, len⟩)

/-- `oak_buffer_free`. -/
def oakBufferFree (s : Store Name) (buffer : Name) : Option (Store Name) :=
  (s.buffers buffer).map fun b =>
    s.put (if b.Owned then s.heap.free b.ptr else s.heap) buffer ⟨.null, 0, 0, 0⟩

/-- `oak_buffer_clear`. -/
def oakBufferClear (s : Store Name) (buffer : Name) : Option (Store Name) :=
  (s.buffers buffer).map fun b => s.put s.heap buffer { b with size := 0 }

/-- `oak_buffer_ref`; the assertion passes for an owned buffer too. -/
def oakBufferRef (s : Store Name) (buffer : Name) (str : Ptr) (size : UInt64) :
    Option (Store Name) := do
  let b ← s.buffers buffer
  if b.flags &&& ~~~oakBufferOwned = 0 then
    some (s.put s.heap buffer { b with ptr := str, size := size })
  else none

/-- `oak_buffer_move`. -/
def oakBufferMove (s : Store Name) (lhs rhs : Name) : Option (Store Name) := do
  let s ← oakBufferFree s lhs
  let r ← s.buffers rhs
  let s := s.put s.heap lhs r
  let r ← s.buffers rhs
  oakBufferFree (s.put s.heap rhs { r with flags := r.flags &&& ~~~oakBufferOwned }) rhs

/-- Where a function copies bytes to, the size it leaves, and the capacity and the number of bytes
that it asks for when the buffer is too small. -/
structure Copy where
  offset : UInt64
  count : UInt64
  size : UInt64
  capacity : UInt64
  bytes : UInt64
deriving DecidableEq, Repr

/-- Assigning asks for one byte more than the capacity. -/
def assignCopy (size : UInt64) : Copy where
  offset := 0
  count := size
  size := size
  capacity := size
  bytes := size + 1

/-- Appending asks for half as much again, and for no byte beyond the capacity. -/
def appendCopy (l : Buffer) (size : UInt64) : Copy where
  offset := l.size
  count := size
  size := l.size + size
  capacity := (l.size + size) + (l.size + size) / 2
  bytes := (l.size + size) + (l.size + size) / 2

/-- The reallocation of a growing buffer. -/
def Store.grow (s : Store Name) (lhs : Name) (l : Buffer) (copy : Copy) (address : ℕ) :
    Option (Store Name) :=
  if l.capacity < copy.size then
    (s.heap.realloc l.ptr copy.bytes.toNat address).map fun (ptr, heap) =>
      s.put heap lhs { l with ptr := ptr, capacity := copy.capacity }
  else some s

/-- The copy itself, followed by the terminator. -/
def Store.fill (s : Store Name) (lhs : Name) (copy : Copy) (str : ℕ → UInt8) :
    Option (Store Name) :=
  (s.buffers lhs).map fun l =>
    let heap := s.heap.memcpy l.ptr copy.offset.toNat str copy.count.toNat
    s.put (heap.memcpy l.ptr copy.size.toNat (fun _ => 0) 1) lhs { l with size := copy.size }

/-- The common body of the copying functions; the source is looked up after the reallocation. -/
def Store.copyInto (s : Store Name) (lhs : Name) (copy : Buffer → Copy)
    (source : Store Name → Option (ℕ → UInt8)) (address : ℕ) : Option (Store Name) := do
  let l ← s.buffers lhs
  if l.Owned then
    let s ← s.grow lhs l (copy l) address
    let str ← source s
    s.fill lhs (copy l) str
  else none

/-- The bytes of a buffer object. -/
def Store.contents (s : Store Name) (name : Name) : Option (ℕ → UInt8) :=
  (s.buffers name).map fun b => s.heap.memory b.ptr

/-- `oak_buffer_assign`. -/
def oakBufferAssign (s : Store Name) (lhs rhs : Name) (address : ℕ) : Option (Store Name) := do
  let r ← s.buffers rhs
  s.copyInto lhs (fun _ => assignCopy r.size) (fun s => s.contents rhs) address

/-- `oak_buffer_assign_str`. -/
def oakBufferAssignStr (s : Store Name) (lhs : Name) (str : ℕ → UInt8) (size : UInt64)
    (address : ℕ) : Option (Store Name) :=
  s.copyInto lhs (fun _ => assignCopy size) (fun _ => some str) address

/-- `oak_buffer_append`. -/
def oakBufferAppend (s : Store Name) (lhs rhs : Name) (address : ℕ) : Option (Store Name) := do
  let r ← s.buffers rhs
  s.copyInto lhs (fun l => appendCopy l r.size) (fun s => s.contents rhs) address

/-- `oak_buffer_append_str`. -/
def oakBufferAppendStr (s : Store Name) (lhs : Name) (str : ℕ → UInt8) (size : UInt64)
    (address : ℕ) : Option (Store Name) :=
  s.copyInto lhs (fun l => appendCopy l size) (fun _ => some str) address

/-- A call with its arguments; where memory may be allocated, the address that is returned. -/
inductive BufferCall (Name : Type) where
  | init (buffer : Name) (capacity : UInt64) (address : ℕ)
  | init2 (buffer : Name) (str : Ptr) (len : UInt64)
  | free (buffer : Name)
  | clear (buffer : Name)
  | ref (buffer : Name) (str : Ptr) (size : UInt64)
  | move (lhs rhs : Name)
  | assign (lhs rhs : Name) (address : ℕ)
  | assignStr (lhs : Name) (str : ℕ → UInt8) (size : UInt64) (address : ℕ)
  | append (lhs rhs : Name) (address : ℕ)
  | appendStr (lhs : Name) (str : ℕ → UInt8) (size : UInt64) (address : ℕ)

/-- The state after a call. -/
def Store.call (s : Store Name) : BufferCall Name → Option (Store Name)
  | .init buffer capacity address => oakBufferInit s buffer capacity address
  | .init2 buffer str len => oakBufferInit2 s buffer str len
  | .free buffer => oakBufferFree s buffer
  | .clear buffer => oakBufferClear s buffer
  | .ref buffer str size => oakBufferRef s buffer str size
  | .move lhs rhs => oakBufferMove s lhs rhs
  | .assign lhs rhs address => oakBufferAssign s lhs rhs address
  | .assignStr lhs str size address => oakBufferAssignStr s lhs str size address
  | .append lhs rhs address => oakBufferAppend s lhs rhs address
  | .appendStr lhs str size address => oakBufferAppendStr s lhs str size address

/-- A call as a labelled step. -/
def callNext (s : Store Name) (call : BufferCall Name) :
    Option (BufferCall Name × Store Name) :=
  (s.call call).map fun s' => (call, s')

/-- A step is a call whose assertion passes and that gets the memory it asks for. -/
def BufferStep : Store Name → BufferCall Name → Store Name → Prop := Moves callNext

/-- A step leads to the state after its call. -/
theorem bufferStep_iff {s s' : Store Name} {call : BufferCall Name} :
    BufferStep s call s' ↔ s.call call = some s' := by
  simp [BufferStep, Moves, callNext]

end Demos.Oak
