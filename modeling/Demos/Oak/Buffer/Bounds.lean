import Mathlib.Algebra.Order.Ring.Int
import Demos.Oak.Buffer.Ownership

/-!
# Writes inside the allocated block

A growing buffer gets one byte more than its capacity from the assigning functions and no byte
more from the appending ones, and a buffer of capacity zero has no block at all. The terminator
therefore has no room exactly when the new length meets a capacity without the extra byte, when a
buffer grows to a single byte by appending, or when the capacity is the largest number and the
extra byte wrapped around.
-/

namespace Demos.Oak

open Demos.Lib

variable {Name : Type} {s s' mid : Store Name} {name lhs rhs : Name} {b l : Buffer} {copy : Copy}
  {call : BufferCall Name}

/-- `SIZE_MAX`. -/
def sizeMax : UInt64 := 0xffffffffffffffff

/-- The calls on owned buffers. -/
def BufferCall.OnOwned : BufferCall Name → Prop
  | .init2 _ _ _ => False
  | .ref _ _ _ => False
  | _ => True

/-- The appending functions. -/
def BufferCall.Appends : BufferCall Name → Prop
  | .append _ _ _ => True
  | .appendStr _ _ _ _ => True
  | _ => False

/-- The lengths that a call adds up stay below `2 ^ 62`. -/
def LengthsFit (s : Store Name) (call : BufferCall Name) : Prop :=
  ∀ lhs l copy, s.copyOf call = some (lhs, l, copy) →
    copy.offset.toNat + copy.count.toNat < 2 ^ 62

/-- Every byte written so far was inside its block. -/
def Store.InBounds (s : Store Name) : Prop := ∀ e ∈ s.heap.trace, e.InBounds

/-- A copy that fits the capacity does not meet a capacity without an extra byte, and an appending
copy that does not fit is longer than one byte. -/
def Room (s : Store Name) (call : BufferCall Name) : Prop :=
  ∀ lhs l copy, s.copyOf call = some (lhs, l, copy) →
    (copy.size ≤ l.capacity → l.capacity ≠ sizeMax ∧
      (copy.size = l.capacity → s.heap.blockSize l.ptr ≠ l.capacity.toNat)) ∧
    (call.Appends → l.capacity < copy.size → copy.size ≠ 1)

instance : (call : BufferCall Name) → Decidable call.OnOwned
  | .init2 _ _ _ | .ref _ _ _ => isFalse id
  | .init _ _ _ | .free _ | .clear _ | .move _ _ | .assign _ _ _ | .assignStr _ _ _ _
  | .append _ _ _ | .appendStr _ _ _ _ => isTrue trivial

instance : (call : BufferCall Name) → Decidable call.Appends
  | .append _ _ _ | .appendStr _ _ _ _ => isTrue trivial
  | .init _ _ _ | .init2 _ _ _ | .free _ | .clear _ | .ref _ _ _ | .move _ _ | .assign _ _ _
  | .assignStr _ _ _ _ => isFalse id

instance (s : Store Name) (call : BufferCall Name) : Decidable (LengthsFit s call) :=
  decidable_of_iff (∀ target ∈ s.copyOf call,
      target.2.2.offset.toNat + target.2.2.count.toNat < 2 ^ 62)
    ⟨fun h lhs l copy => h (lhs, l, copy), fun h target => h target.1 target.2.1 target.2.2⟩

instance (s : Store Name) (call : BufferCall Name) : Decidable (Room s call) :=
  decidable_of_iff (∀ target ∈ s.copyOf call,
      (target.2.2.size ≤ target.2.1.capacity → target.2.1.capacity ≠ sizeMax ∧
        (target.2.2.size = target.2.1.capacity →
          s.heap.blockSize target.2.1.ptr ≠ target.2.1.capacity.toNat)) ∧
      (call.Appends → target.2.1.capacity < target.2.2.size → target.2.2.size ≠ 1))
    ⟨fun h lhs l copy => h (lhs, l, copy), fun h target => h target.1 target.2.1 target.2.2⟩

/-- The block of an owned buffer has as many bytes as its capacity, or one more. -/
def Sized (heap : Heap) (b : Buffer) : Prop :=
  b.Owned → heap.blockSize b.ptr = b.capacity.toNat ∧ b.capacity.toNat < 2 ^ 63 ∨
    heap.blockSize b.ptr = (b.capacity + 1).toNat

/-- The blocks of all owned buffers have their sizes. -/
def Store.AllSized (s : Store Name) : Prop :=
  ∀ name b, s.buffers name = some b → Sized s.heap b

/-- A block size depends on the block only. -/
theorem Sized.congr {heap heap' : Heap} (h : Sized heap b)
    (hsize : b.Owned → heap'.blockSize b.ptr = heap.blockSize b.ptr) : Sized heap' b := by
  intro howned
  rw [hsize howned]
  exact h howned

/-- The copy of a call is an assigning or an appending one. -/
theorem Store.copyOf_cases (h : s.copyOf call = some (lhs, l, copy)) :
    (∃ size, copy = assignCopy size ∧ ¬ call.Appends) ∨
      ∃ size, copy = appendCopy l size ∧ call.Appends := by
  cases call <;> simp only [Store.copyOf, Option.bind_eq_bind, Option.bind_eq_some_iff,
    Option.some.injEq, Prod.mk.injEq, reduceCtorEq] at h
  · obtain ⟨_, _, r, _, _, _, rfl⟩ := h
    exact .inl ⟨r.size, rfl, id⟩
  · obtain ⟨_, _, _, _, rfl⟩ := h
    exact .inl ⟨_, rfl, id⟩
  · obtain ⟨_, _, r, _, _, rfl, rfl⟩ := h
    exact .inr ⟨r.size, rfl, trivial⟩
  · obtain ⟨_, _, _, rfl, rfl⟩ := h
    exact .inr ⟨_, rfl, trivial⟩

/-- While the lengths fit, the new size is the end of the copied bytes. -/
theorem Store.copyOf_size (h : s.copyOf call = some (lhs, l, copy)) (hfit : LengthsFit s call) :
    copy.size.toNat = copy.offset.toNat + copy.count.toNat ∧ copy.size.toNat < 2 ^ 62 := by
  have hlt := hfit lhs l copy h
  obtain ⟨size, rfl, -⟩ | ⟨size, rfl, -⟩ := Store.copyOf_cases h
  · simp only [assignCopy, UInt64.toNat_zero] at hlt ⊢
    omega
  · simp only [appendCopy, UInt64.toNat_add] at hlt ⊢
    omega

/-- The size of the block that a growing buffer gets, and its capacity. -/
theorem Store.copyOf_bytes (h : s.copyOf call = some (lhs, l, copy)) (hfit : LengthsFit s call) :
    (copy.bytes.toNat = copy.capacity.toNat ∧ copy.capacity.toNat < 2 ^ 63 ∨
      copy.bytes.toNat = (copy.capacity + 1).toNat) ∧
    (l.capacity < copy.size →
      (copy.size.toNat < copy.bytes.toNat ↔ (call.Appends → copy.size ≠ 1))) := by
  obtain ⟨-, hsize⟩ := Store.copyOf_size h hfit
  rw [UInt64.lt_iff_toNat_lt, ne_eq, ← UInt64.toNat_inj]
  obtain ⟨size, rfl, happends⟩ | ⟨size, rfl, happends⟩ := Store.copyOf_cases h
  · have hbytes : (size + 1).toNat = size.toNat + 1 := by
      simp only [assignCopy] at hsize
      rw [UInt64.toNat_add, UInt64.toNat_one]
      omega
    refine ⟨.inr rfl, fun _ => iff_of_true ?_ fun hcall => absurd hcall happends⟩
    exact hbytes ▸ Nat.lt_succ_self _
  · simp only [appendCopy] at hsize ⊢
    generalize l.size + size = total at hsize ⊢
    have hbytes : (total + total / 2).toNat = total.toNat + total.toNat / 2 := by
      rw [UInt64.toNat_add, UInt64.toNat_div, show (2 : UInt64).toNat = 2 from rfl]
      omega
    rw [hbytes]
    refine ⟨.inl ⟨trivial, by omega⟩, fun hlt => ?_⟩
    simp only [happends, forall_const, UInt64.toNat_one]
    omega

/-- The terminator of a copy that fits the capacity has room exactly under the condition. -/
theorem Sized.size_lt_iff {heap : Heap} {size : UInt64} (h : Sized heap l) (howned : l.Owned)
    (hle : size ≤ l.capacity) (hsize : size.toNat < 2 ^ 62) :
    size.toNat < heap.blockSize l.ptr ↔ l.capacity ≠ sizeMax ∧
      (size = l.capacity → heap.blockSize l.ptr ≠ l.capacity.toNat) := by
  have hmax : sizeMax.toNat = 2 ^ 64 - 1 := rfl
  rw [UInt64.le_iff_toNat_le] at hle
  rw [ne_eq, ← UInt64.toNat_inj, ← UInt64.toNat_inj, hmax]
  have hcapacity := l.capacity.toNat_lt
  obtain ⟨hblock, hlt⟩ | hblock := h howned
  · omega
  · rw [UInt64.toNat_add, UInt64.toNat_one] at hblock
    omega

/-- A buffer that is not owned needs no block. -/
theorem Sized.of_not_owned {heap : Heap} (h : ¬ b.Owned) : Sized heap b :=
  fun howned => absurd howned h

theorem not_owned_released : ¬ (⟨.null, 0, 0, 0⟩ : Buffer).Owned := by decide

/-- While ownership is exclusive, the pointers of two owned buffers differ unless they are null. -/
theorem Store.ptr_ne_of_exclusive (hexclusive : Exclusive s.holds s.heap.live) {other : Name}
    {b' : Buffer} (hname : other ≠ name) (hb : s.buffers name = some b) (howned : b.Owned)
    (hb' : s.buffers other = some b') (howned' : b'.Owned) (hnull : b'.ptr ≠ .null) :
    b'.ptr ≠ b.ptr := by
  intro heq
  have hheld : s.holds other = some b'.ptr :=
    Store.holds_eq_some_iff.mpr ⟨b', hb', howned', hnull, rfl⟩
  have hheld' : s.holds name = some b'.ptr :=
    Store.holds_eq_some_iff.mpr ⟨b, hb, howned, heq ▸ hnull, heq.symm⟩
  exact hname (hexclusive.unique hheld hheld')

/-- While ownership is exclusive, a fresh block is none of those that the other buffers own. -/
theorem Store.ptr_ne_of_fresh (hexclusive : Exclusive s.holds s.heap.live) {new : Ptr}
    (hnew : new ≠ .null) (hfresh : new ∉ s.heap.live) (hb : s.buffers name = some b)
    (howned : b.Owned) : b.ptr ≠ new := by
  rintro rfl
  exact hfresh (hexclusive.mem_live (Store.holds_eq_some_iff.mpr ⟨b, hb, howned, hnew, rfl⟩))

/-- The calls that copy nothing meet the condition. -/
theorem room_of_copyOf_eq_none (h : s.copyOf call = none) : Room s call := by
  intro lhs l copy hcopy
  rw [h] at hcopy
  cases hcopy

/-- What every state of a run on owned buffers satisfies. -/
structure Store.WellSized (s : Store Name) : Prop where
  exclusive : Exclusive s.holds s.heap.live
  releases : s.Releases
  sized : s.AllSized

/-- Before the first call there is nothing to size. -/
theorem Store.empty_wellSized (memory : Ptr → ℕ → UInt8) :
    (Store.empty memory : Store Name).WellSized := by
  obtain ⟨hexact, hreleases⟩ :=
    Store.ownershipSafe_iff.mp (@Store.empty_ownershipSafe Name memory)
  exact ⟨hexact.toExclusive, hreleases, by simp [Store.AllSized, Store.empty]⟩

/-- Before the first call nothing is written. -/
theorem Store.empty_inBounds (memory : Ptr → ℕ → UInt8) :
    (Store.empty memory : Store Name).InBounds := by
  simp [Store.InBounds, Store.empty, Heap.empty]

variable [DecidableEq Name]

/-- Filling a buffer stays in bounds exactly if the terminator has room. -/
theorem Store.fill_inBounds_iff {str : ℕ → UInt8} (hbounds : mid.InBounds)
    (hl : mid.buffers lhs = some l) (hend : copy.size.toNat = copy.offset.toNat + copy.count.toNat)
    (hfill : mid.fill lhs copy str = some s') :
    s'.InBounds ↔ copy.size.toNat < mid.heap.blockSize l.ptr := by
  rw [Store.fill, hl, Option.map_some, Option.some.injEq] at hfill
  subst hfill
  simp only [Store.InBounds, Store.put_heap, Heap.memcpy_trace, Heap.memcpy_blockSize,
    List.forall_mem_append, List.forall_mem_singleton, MemoryEvent.InBounds]
  constructor
  · rintro ⟨-, hlast⟩
    exact hlast 0 Nat.one_pos
  · intro hlt
    refine ⟨⟨hbounds, fun i hi => ?_⟩, fun i hi => ?_⟩
    · omega
    · omega

/-- Writing an object keeps the sizes if it has its size and the heap keeps the other ones. -/
theorem Store.allSized_put {heap : Heap} (hsized : s.AllSized) (hb : Sized heap b)
    (hother : ∀ other b', other ≠ name → s.buffers other = some b' → b'.Owned →
      heap.blockSize b'.ptr = s.heap.blockSize b'.ptr) : (s.put heap name b).AllSized := by
  intro other b' hb'
  by_cases hname : other = name
  · subst hname
    simp only [Store.put, Function.update_self, Option.some.injEq] at hb'
    exact hb' ▸ hb
  · simp only [Store.put, Function.update_of_ne hname] at hb'
    exact (hsized other b' hb').congr (hother other b' hname hb')

/-- Releasing an object keeps the sizes of the other ones. -/
theorem Store.allSized_free (hsized : s.AllSized)
    (hother : ∀ b, s.buffers name = some b → b.Owned → ∀ other b', other ≠ name →
      s.buffers other = some b' → b'.Owned → b'.ptr ≠ .null → b'.ptr ≠ b.ptr)
    (hfree : oakBufferFree s name = some s') : s'.AllSized := by
  obtain ⟨b, hb, rfl⟩ := Option.map_eq_some_iff.mp hfree
  refine Store.allSized_put hsized (.of_not_owned not_owned_released) ?_
  intro other b' hname hb' howned'
  split
  · rename_i howned
    by_cases hnull : b'.ptr = .null
    · rw [hnull]
      rfl
    · exact Heap.blockSize_free (hother b hb howned other b' hname hb' howned' hnull)
  · rfl

/-- Releasing an object writes nothing. -/
theorem Store.inBounds_free (hbounds : s.InBounds) (hfree : oakBufferFree s name = some s') :
    s'.InBounds := by
  obtain ⟨b, hb, rfl⟩ := Option.map_eq_some_iff.mp hfree
  rw [Store.InBounds, Store.put_heap]
  split
  · exact Heap.free_trace_inBounds.mpr hbounds
  · exact hbounds

/-- Moving keeps the sizes. -/
theorem Store.allSized_move (hsized : s.AllSized) (hexclusive : Exclusive s.holds s.heap.live)
    (hmove : oakBufferMove s lhs rhs = some s') : s'.AllSized := by
  simp only [oakBufferMove, Option.bind_eq_bind, Option.bind_eq_some_iff] at hmove
  obtain ⟨mid, hfree, r, hr, r', hr', hlast⟩ := hmove
  have hmid : mid.AllSized := Store.allSized_free hsized
    (fun b hb howned other b' hname => Store.ptr_ne_of_exclusive hexclusive hname hb howned) hfree
  have hmoved : (mid.put mid.heap lhs r).AllSized :=
    Store.allSized_put hmid (hmid rhs r hr) fun _ _ _ _ _ => rfl
  refine Store.allSized_free
    (Store.allSized_put hmoved (.of_not_owned r'.not_owned_cleared) fun _ _ _ _ _ => rfl) ?_ hlast
  intro b hb howned
  simp only [Store.put, Function.update_self, Option.some.injEq] at hb
  exact absurd howned (hb ▸ r'.not_owned_cleared)

/-- Growing and filling a buffer keeps the sizes. -/
theorem Store.allSized_copied {address : ℕ} {str : ℕ → UInt8} (hsized : s.AllSized)
    (hexclusive : Exclusive s.holds s.heap.live) (hfit : LengthsFit s call)
    (hcopy : s.copyOf call = some (lhs, l, copy)) (hl : s.buffers lhs = some l)
    (howned : l.Owned) (hgrow : s.grow lhs l copy address = some mid)
    (hfill : mid.fill lhs copy str = some s') : s'.AllSized := by
  have hmid : mid.AllSized := by
    obtain ⟨-, rfl⟩ | ⟨-, new, heap, hrealloc, rfl⟩ := Store.grow_eq_some hgrow
    · exact hsized
    obtain ⟨hfresh, hnull, -, hblock, hother, -⟩ := Heap.realloc_eq_some hrealloc
    refine Store.allSized_put hsized ?_ ?_
    · intro _
      rw [hblock]
      exact (Store.copyOf_bytes hcopy hfit).1
    · intro other b' hname hb' howned'
      by_cases hb'null : b'.ptr = .null
      · rw [hb'null]
        rfl
      have hne := Store.ptr_ne_of_exclusive hexclusive hname hl howned hb' howned' hb'null
      refine hother b'.ptr ?_ hne
      rintro rfl
      exact hfresh ⟨hexclusive.mem_live
        (Store.holds_eq_some_iff.mpr ⟨b', hb', howned', hb'null, rfl⟩), hne⟩
  obtain ⟨l', hl', rfl⟩ := Option.map_eq_some_iff.mp hfill
  exact Store.allSized_put hmid (hmid lhs l' hl') fun _ _ _ _ _ => rfl

/-- The calls on owned buffers keep the sizes. -/
theorem BufferStep.wellSized (h : BufferStep s call s') (hcall : call.OnOwned)
    (hfit : LengthsFit s call) (hwell : s.WellSized) : s'.WellSized := by
  have href : ∀ name str size, call ≠ .ref name str size := by
    rintro name str size rfl
    exact hcall
  obtain ⟨hexclusive, hreleases⟩ := h.exclusive href hwell.exclusive hwell.releases
  refine ⟨hexclusive, hreleases, ?_⟩
  cases h.shape with
  | initEmpty buffer address =>
    exact Store.allSized_put hwell.sized (fun _ => .inl ⟨rfl, by decide⟩) fun _ _ _ _ _ => rfl
  | @initBlock buffer capacity address ptr heap hmalloc =>
    obtain ⟨hfresh, hnull, -, hblock, hother, -⟩ := Heap.malloc_eq_some hmalloc
    refine Store.allSized_put hwell.sized (fun _ => .inr hblock) ?_
    intro other b' _ hb' howned'
    exact hother b'.ptr (Store.ptr_ne_of_fresh hwell.exclusive hnull hfresh hb' howned')
  | init2 | ref => exact hcall.elim
  | free hfree =>
    exact Store.allSized_free hwell.sized (fun b hb howned other b' hname =>
      Store.ptr_ne_of_exclusive hwell.exclusive hname hb howned) hfree
  | @clear buffer b hb =>
    have hb' : Sized s.heap { b with size := 0 } := hwell.sized buffer b hb
    exact Store.allSized_put hwell.sized hb' fun _ _ _ _ _ => rfl
  | move hmove => exact Store.allSized_move hwell.sized hwell.exclusive hmove
  | copied hcopy hl howned hgrow hfill =>
    exact Store.allSized_copied hwell.sized hwell.exclusive hfit hcopy hl howned hgrow hfill

/-- A copy stays in bounds exactly under the condition. -/
theorem Store.copied_inBounds_iff {address : ℕ} {str : ℕ → UInt8} (hsized : s.AllSized)
    (hbounds : s.InBounds) (hfit : LengthsFit s call)
    (hcopy : s.copyOf call = some (lhs, l, copy)) (hl : s.buffers lhs = some l)
    (howned : l.Owned) (hgrow : s.grow lhs l copy address = some mid)
    (hfill : mid.fill lhs copy str = some s') : s'.InBounds ↔ Room s call := by
  obtain ⟨hend, hsize⟩ := Store.copyOf_size hcopy hfit
  have hroom : Room s call ↔
      (copy.size ≤ l.capacity → l.capacity ≠ sizeMax ∧
        (copy.size = l.capacity → s.heap.blockSize l.ptr ≠ l.capacity.toNat)) ∧
      (call.Appends → l.capacity < copy.size → copy.size ≠ 1) := by
    simp [Room, hcopy]
  rw [hroom]
  obtain ⟨hle, rfl⟩ | ⟨hlt, new, heap, hrealloc, rfl⟩ := Store.grow_eq_some hgrow
  · rw [Store.fill_inBounds_iff hbounds hl hend hfill,
      (hsized lhs l hl).size_lt_iff howned hle hsize]
    simp [hle, UInt64.not_lt.mpr hle]
  · obtain ⟨-, -, -, hblock, -, htrace⟩ := Heap.realloc_eq_some hrealloc
    have hbounds' :
        (s.put heap lhs { l with ptr := new, capacity := copy.capacity }).InBounds := by
      rw [Store.InBounds, Store.put_heap, htrace]
      exact Heap.free_trace_inBounds.mpr hbounds
    rw [Store.fill_inBounds_iff hbounds' (Function.update_self ..) hend hfill, Store.put_heap,
      hblock, (Store.copyOf_bytes hcopy hfit).2 hlt]
    simp [hlt, UInt64.not_le.mpr hlt]

/-- A call on owned buffers stays in bounds exactly under the condition. -/
theorem BufferStep.inBounds_iff (h : BufferStep s call s') (hcall : call.OnOwned)
    (hfit : LengthsFit s call) (hwell : s.WellSized) (hbounds : s.InBounds) :
    s'.InBounds ↔ Room s call := by
  cases h.shape with
  | initEmpty | clear => exact iff_of_true hbounds (room_of_copyOf_eq_none rfl)
  | initBlock hmalloc =>
    obtain ⟨-, -, -, -, -, htrace⟩ := Heap.malloc_eq_some hmalloc
    refine iff_of_true ?_ (room_of_copyOf_eq_none rfl)
    rw [Store.InBounds, Store.put_heap, htrace]
    exact hbounds
  | init2 | ref => exact hcall.elim
  | free hfree =>
    exact iff_of_true (Store.inBounds_free hbounds hfree) (room_of_copyOf_eq_none rfl)
  | move hmove =>
    refine iff_of_true ?_ (room_of_copyOf_eq_none rfl)
    simp only [oakBufferMove, Option.bind_eq_bind, Option.bind_eq_some_iff] at hmove
    obtain ⟨mid, hfree, r, -, r', -, hlast⟩ := hmove
    have hmid : mid.InBounds := Store.inBounds_free hbounds hfree
    exact Store.inBounds_free (s := (mid.put mid.heap _ r).put mid.heap _ _) hmid hlast
  | copied hcopy hl howned hgrow hfill =>
    exact Store.copied_inBounds_iff hwell.sized hbounds hfit hcopy hl howned hgrow hfill

/-- The calls on owned buffers whose lengths fit. -/
def OwnedStep : Store Name → BufferCall Name → Store Name → Prop :=
  Guarded BufferStep fun s call => call.OnOwned ∧ LengthsFit s call

/-- Every byte is written inside its block along every sequence of calls on owned buffers that meet
the condition; and a call in a run without a write out of bounds makes none exactly if it meets
the condition. -/
theorem buffers_inBounds (memory : Ptr → ℕ → UInt8) :
    (∀ (calls : List (BufferCall Name)) (s : Store Name),
      Run (Guarded OwnedStep Room) (.empty memory) calls s → s.InBounds) ∧
    ∀ (calls : List (BufferCall Name)) (s s' : Store Name) (call : BufferCall Name),
      Run OwnedStep (.empty memory) calls s → s.InBounds → OwnedStep s call s' →
      (s'.InBounds ↔ Room s call) := by
  refine ⟨?_, ?_⟩
  · intro calls s hrun
    refine (hrun.invariant (I := fun _ s => s.WellSized ∧ s.InBounds)
      ⟨Store.empty_wellSized memory, Store.empty_inBounds memory⟩ ?_).2
    rintro calls s call s' ⟨hwell, hbounds⟩ ⟨⟨hstep, hcall, hfit⟩, hroom⟩
    exact ⟨hstep.wellSized hcall hfit hwell,
      (hstep.inBounds_iff hcall hfit hwell hbounds).mpr hroom⟩
  · rintro calls s s' call hrun hbounds ⟨hstep, hcall, hfit⟩
    have hwell : s.WellSized := by
      refine hrun.invariant (I := fun _ s => s.WellSized) (Store.empty_wellSized memory) ?_
      rintro calls s call s' hwell ⟨hstep, hcall, hfit⟩
      exact hstep.wellSized hcall hfit hwell
    exact hstep.inBounds_iff hcall hfit hwell hbounds

/-- A buffer is assigned to and appended to, with room to spare. -/
theorem buffers_inBounds_append :
    ∃ (calls : List (BufferCall ℕ)) (s : Store ℕ),
      Run (Guarded OwnedStep Room) (.empty fun _ _ => 0) calls s ∧
        s.heap.trace = [.wrote (.block 1) 0 3 9, .wrote (.block 1) 3 1 9,
          .wrote (.block 1) 3 5 9, .wrote (.block 1) 8 1 9] ∧ s.InBounds ∧
        ((s.put s.heap 2 ⟨.null, 0, oakBufferOwned, 0⟩).InBounds ↔ Room s (.init 2 0 0)) := by
  have hexec : (exec (guardedNext callNext fun s call =>
        (call.OnOwned ∧ LengthsFit s call) ∧ Room s call) (.empty fun _ _ => 0)
      [.init 0 8 1, .assignStr 0 (fun _ => 97) 3 0, .appendStr (0 : ℕ) (fun _ => 98) 5 0]).map
        (fun result => result.2.heap.trace) =
      some [.wrote (.block 1) 0 3 9, .wrote (.block 1) 3 1 9,
          .wrote (.block 1) 3 5 9, .wrote (.block 1) 8 1 9] := by
    decide +kernel
  obtain ⟨calls, s, hrun, htrace⟩ := exists_guarded_run_of_exec hexec
  have hguarded : Run (Guarded OwnedStep Room) (.empty fun _ _ => 0) calls s :=
    hrun.mono fun _ _ _ ⟨hstep, hcall, hroom⟩ => ⟨⟨hstep, hcall⟩, hroom⟩
  have howned : Run OwnedStep (.empty fun _ _ => 0) calls s :=
    hguarded.mono fun _ _ _ hstep => hstep.1
  have hinit : OwnedStep s (.init 2 0 0) (s.put s.heap 2 ⟨.null, 0, oakBufferOwned, 0⟩) :=
    ⟨bufferStep_iff.mpr rfl, trivial, fun _ _ _ hcopy => absurd hcopy (by simp [Store.copyOf])⟩
  have hbounds := (buffers_inBounds _).1 calls s hguarded
  exact ⟨calls, s, hguarded, htrace, hbounds,
    (buffers_inBounds _).2 calls s _ _ howned hbounds hinit⟩

/-- Appending three bytes and then one to an empty buffer puts the second terminator behind the
block. -/
theorem buffers_terminator_outside :
    ¬ ∀ (calls : List (BufferCall ℕ)) (s : Store ℕ),
      Run OwnedStep (.empty fun _ _ => 0) calls s → s.InBounds := by
  intro hall
  have hexec : (exec (guardedNext callNext fun s call => call.OnOwned ∧ LengthsFit s call)
      (.empty fun _ _ => 0)
      [.init 0 0 0, .appendStr 0 (fun _ => 97) 3 1, .appendStr (0 : ℕ) (fun _ => 98) 1 0]).map
        (fun result => decide (.wrote (.block 1) 4 1 4 ∈ result.2.heap.trace)) = some true := by
    decide +kernel
  obtain ⟨calls, s, hrun, hmem⟩ := exists_guarded_run_of_exec hexec
  have hbounds := hall calls s hrun _ (of_decide_eq_true hmem)
  exact absurd (hbounds 0 Nat.one_pos) (by decide)

end Demos.Oak
