import Demos.Oak.Buffer.Model

/-!
# What a call on buffers does

Every call is brought into one of eight shapes, so that the proofs about sequences of calls need
not open the functions. The four copying functions have one shape: the buffer grows if the copy
does not fit its capacity, and is then filled.
-/

namespace Demos.Oak

open Demos.Lib

variable {Name : Type} [DecidableEq Name] {s s' mid : Store Name} {lhs : Name} {l : Buffer}

/-- The copy that a call makes: its target and where the bytes go. -/
def Store.copyOf (s : Store Name) : BufferCall Name → Option (Name × Buffer × Copy)
  | .assign lhs rhs _ => do
    let l ← s.buffers lhs
    let r ← s.buffers rhs
    some (lhs, l, assignCopy r.size)
  | .assignStr lhs _ size _ => do
    let l ← s.buffers lhs
    some (lhs, l, assignCopy size)
  | .append lhs rhs _ => do
    let l ← s.buffers lhs
    let r ← s.buffers rhs
    some (lhs, l, appendCopy l r.size)
  | .appendStr lhs _ size _ => do
    let l ← s.buffers lhs
    some (lhs, l, appendCopy l size)
  | _ => none

/-- The parts of a successful copy. -/
theorem Store.copyInto_eq_some {copy : Buffer → Copy} {source : Store Name → Option (ℕ → UInt8)}
    {address : ℕ} (h : s.copyInto lhs copy source address = some s') :
    ∃ l mid str, s.buffers lhs = some l ∧ l.Owned ∧ s.grow lhs l (copy l) address = some mid ∧
      source mid = some str ∧ mid.fill lhs (copy l) str = some s' := by
  simp only [Store.copyInto, Option.bind_eq_bind, Option.bind_eq_some_iff] at h
  obtain ⟨l, hl, h⟩ := h
  split at h
  · rename_i howned
    obtain ⟨mid, hgrow, h⟩ := Option.bind_eq_some_iff.mp h
    obtain ⟨str, hstr, hfill⟩ := Option.bind_eq_some_iff.mp h
    exact ⟨l, mid, str, hl, howned, hgrow, hstr, hfill⟩
  · cases h

/-- A buffer grows if it is too small for the copy. -/
theorem Store.grow_eq_some {copy : Copy} {address : ℕ}
    (h : s.grow lhs l copy address = some mid) :
    (copy.size ≤ l.capacity ∧ mid = s) ∨
      l.capacity < copy.size ∧ ∃ new heap,
        s.heap.realloc l.ptr copy.bytes.toNat address = some (new, heap) ∧
          mid = s.put heap lhs { l with ptr := new, capacity := copy.capacity } := by
  unfold Store.grow at h
  split at h
  · rename_i hgrows
    obtain ⟨⟨new, heap⟩, hrealloc, rfl⟩ := Option.map_eq_some_iff.mp h
    exact .inr ⟨hgrows, new, heap, hrealloc, rfl⟩
  · rename_i hfits
    exact .inl ⟨UInt64.not_lt.mp hfits, (Option.some.inj h).symm⟩

/-- The shapes of a call. -/
inductive CallShape (s : Store Name) : BufferCall Name → Store Name → Prop
  | initEmpty (buffer : Name) (address : ℕ) :
      CallShape s (.init buffer 0 address) (s.put s.heap buffer ⟨.null, 0, oakBufferOwned, 0⟩)
  | initBlock {buffer : Name} {capacity : UInt64} {address : ℕ} {ptr : Ptr} {heap : Heap}
      (hmalloc : s.heap.malloc (capacity + 1).toNat address = some (ptr, heap)) :
      CallShape s (.init buffer capacity address)
        (s.put heap buffer ⟨ptr, 0, oakBufferOwned, capacity⟩)
  | init2 (buffer : Name) (str : Ptr) (len : UInt64) :
      CallShape s (.init2 buffer str len) (s.put s.heap buffer ⟨str, len, 0, len⟩)
  | free {buffer : Name} {s' : Store Name} (hfree : oakBufferFree s buffer = some s') :
      CallShape s (.free buffer) s'
  | clear {buffer : Name} {b : Buffer} (hb : s.buffers buffer = some b) :
      CallShape s (.clear buffer) (s.put s.heap buffer { b with size := 0 })
  | ref {buffer : Name} {b : Buffer} (str : Ptr) (size : UInt64)
      (hb : s.buffers buffer = some b) :
      CallShape s (.ref buffer str size)
        (s.put s.heap buffer { b with ptr := str, size := size })
  | move {lhs rhs : Name} {s' : Store Name} (hmove : oakBufferMove s lhs rhs = some s') :
      CallShape s (.move lhs rhs) s'
  | copied {call : BufferCall Name} {lhs : Name} {l : Buffer} {copy : Copy} {address : ℕ}
      {str : ℕ → UInt8} {mid s' : Store Name} (hcopy : s.copyOf call = some (lhs, l, copy))
      (hl : s.buffers lhs = some l) (howned : l.Owned)
      (hgrow : s.grow lhs l copy address = some mid) (hfill : mid.fill lhs copy str = some s') :
      CallShape s call s'

/-- A successful copy has the shape of the copying functions. -/
theorem CallShape.of_copyInto {call : BufferCall Name} {copy : Buffer → Copy}
    {source : Store Name → Option (ℕ → UInt8)} {address : ℕ}
    (hcopy : ∀ l, s.buffers lhs = some l → s.copyOf call = some (lhs, l, copy l))
    (h : s.copyInto lhs copy source address = some s') : CallShape s call s' := by
  obtain ⟨l, mid, str, hl, howned, hgrow, -, hfill⟩ := Store.copyInto_eq_some h
  exact .copied (hcopy l hl) hl howned hgrow hfill

/-- Every call has one of the shapes. -/
theorem BufferStep.shape {call : BufferCall Name} (h : BufferStep s call s') :
    CallShape s call s' := by
  rw [bufferStep_iff] at h
  cases call with
  | init buffer capacity address =>
    simp only [Store.call, oakBufferInit] at h
    split at h
    · obtain ⟨⟨ptr, heap⟩, hmalloc, rfl⟩ := Option.map_eq_some_iff.mp h
      exact .initBlock hmalloc
    · rename_i hcapacity
      obtain rfl : capacity = 0 := UInt64.le_zero_iff.mp (UInt64.not_lt.mp hcapacity)
      exact Option.some.inj h ▸ .initEmpty buffer address
  | init2 buffer str len => exact Option.some.inj h ▸ .init2 buffer str len
  | free buffer => exact .free h
  | clear buffer =>
    obtain ⟨b, hb, rfl⟩ := Option.map_eq_some_iff.mp h
    exact .clear hb
  | ref buffer str size =>
    obtain ⟨b, hb, h⟩ := Option.bind_eq_some_iff.mp h
    split at h
    · exact Option.some.inj h ▸ .ref str size hb
    · cases h
  | move lhs rhs => exact .move h
  | assign | append =>
    obtain ⟨r, hr, h⟩ := Option.bind_eq_some_iff.mp h
    exact .of_copyInto (fun l hl => by simp [Store.copyOf, hl, hr]) h
  | assignStr | appendStr =>
    exact .of_copyInto (fun l hl => by simp [Store.copyOf, hl]) h

end Demos.Oak
