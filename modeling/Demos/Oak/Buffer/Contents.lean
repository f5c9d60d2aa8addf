import Demos.Oak.Buffer.Bounds
import Demos.Oak.Text

/-!
# Buffers as byte lists

What the functions on owned buffers are for: each buffer is a byte list, which is replaced,
extended, emptied or handed over. The bytes in memory behind a buffer, up to its size, are that
list along every sequence of calls. A buffer with some capacity owns a block of its own, so that a
call never touches the bytes of a buffer it is not given to write.
-/

namespace Demos.Oak

open Demos.Lib

variable {Name : Type} {s s' mid : Store Name} {name lhs rhs : Name} {b l : Buffer} {copy : Copy}
  {call : BufferCall Name} {str : ℕ → UInt8}

/-- The bytes of a string of this length. -/
def strBytes (str : ℕ → UInt8) (size : UInt64) : Bytes := (List.range size.toNat).map str

/-- The first `size` bytes of a buffer. -/
def Buffer.bytes (b : Buffer) (heap : Heap) : Bytes := strBytes (heap.memory b.ptr) b.size

/-- The byte list of every initialised buffer. -/
abbrev Contents (Name : Type) := Name → Option Bytes

/-- The byte lists that the memory contains. -/
def Store.byteLists (s : Store Name) : Contents Name :=
  fun name => (s.buffers name).map fun b => b.bytes s.heap

/-- The buffers that a call may write. -/
def BufferCall.targets : BufferCall Name → List Name
  | .init buffer _ _ | .init2 buffer _ _ | .free buffer | .clear buffer | .ref buffer _ _ =>
    [buffer]
  | .move lhs rhs => [lhs, rhs]
  | .assign lhs _ _ | .assignStr lhs _ _ _ | .append lhs _ _ | .appendStr lhs _ _ _ => [lhs]

/-- The two buffers of a call are two objects. -/
def BufferCall.Distinct : BufferCall Name → Prop
  | .move lhs rhs | .assign lhs rhs _ | .append lhs rhs _ => lhs ≠ rhs
  | _ => True

instance [DecidableEq Name] : (call : BufferCall Name) → Decidable call.Distinct
  | .move lhs rhs | .assign lhs rhs _ | .append lhs rhs _ => inferInstanceAs (Decidable (lhs ≠ rhs))
  | .init _ _ _ | .init2 _ _ _ | .free _ | .clear _ | .ref _ _ _ | .assignStr _ _ _ _
  | .appendStr _ _ _ _ => isTrue trivial

/-- A buffer is no longer than its capacity, and has a block of its own if that is not zero. -/
structure Buffer.Filled (b : Buffer) : Prop where
  size_le : b.size ≤ b.capacity
  owns : b.capacity ≠ 0 → b.Owned ∧ b.ptr ≠ .null

/-- All buffers are filled up to their sizes. -/
def Store.AllFilled (s : Store Name) : Prop := ∀ name b, s.buffers name = some b → b.Filled

/-- A buffer and the bytes within its capacity are the same in both states. -/
structure Store.Keeps (s s' : Store Name) (name : Name) : Prop where
  buffers_eq : s'.buffers name = s.buffers name
  memory_eq : ∀ b, s.buffers name = some b → ∀ i < b.capacity.toNat,
    s'.heap.memory b.ptr i = s.heap.memory b.ptr i

section Abstract

variable [DecidableEq Name]

/-- What a call on owned buffers does to the byte lists. -/
def Contents.apply (c : Contents Name) : BufferCall Name → Option (Contents Name)
  | .init buffer _ _ => some (Function.update c buffer (some []))
  | .free buffer | .clear buffer => (c buffer).map fun _ => Function.update c buffer (some [])
  | .move lhs rhs => do
    let _ ← c lhs
    let r ← c rhs
    some (Function.update (Function.update c lhs (some r)) rhs (some []))
  | .assign lhs rhs _ => do
    let _ ← c lhs
    let r ← c rhs
    some (Function.update c lhs (some r))
  | .assignStr lhs str size _ =>
    (c lhs).map fun _ => Function.update c lhs (some (strBytes str size))
  | .append lhs rhs _ => do
    let l ← c lhs
    let r ← c rhs
    some (Function.update c lhs (some (l ++ r)))
  | .appendStr lhs str size _ =>
    (c lhs).map fun l => Function.update c lhs (some (l ++ strBytes str size))
  | .init2 _ _ _ | .ref _ _ _ => none

end Abstract

theorem Buffer.owned_init (ptr : Ptr) (capacity : UInt64) :
    (⟨ptr, 0, oakBufferOwned, capacity⟩ : Buffer).Owned :=
  show oakBufferOwned &&& oakBufferOwned ≠ 0 by decide

theorem strBytes_congr {str' : ℕ → UInt8} {size : UInt64}
    (h : ∀ i < size.toNat, str i = str' i) : strBytes str size = strBytes str' size :=
  List.map_congr_left fun i hi => h i (List.mem_range.mp hi)

theorem strBytes_append {str' : ℕ → UInt8} {first second total : UInt64}
    (htotal : total.toNat = first.toNat + second.toNat) (htail : ∀ i < second.toNat,
      str (first.toNat + i) = str' i) :
    strBytes str total = strBytes str first ++ strBytes str' second := by
  rw [strBytes, htotal, List.range_add, List.map_append, List.map_map]
  exact congrArg _ (List.map_congr_left fun i hi => htail i (List.mem_range.mp hi))

/-- A kept buffer keeps its byte list. -/
theorem Store.Keeps.byteLists_eq (h : s.Keeps s' name) (hfilled : s.AllFilled) :
    s'.byteLists name = s.byteLists name := by
  rw [Store.byteLists, Store.byteLists, h.buffers_eq]
  cases hb : s.buffers name with
  | none => rfl
  | some b =>
    refine congrArg some (strBytes_congr fun i hi => h.memory_eq b hb i ?_)
    exact lt_of_lt_of_le hi (UInt64.le_iff_toNat_le.mp (hfilled name b hb).size_le)

theorem Store.Keeps.trans (h : s.Keeps mid name) (h' : mid.Keeps s' name) : s.Keeps s' name where
  buffers_eq := h'.buffers_eq.trans h.buffers_eq
  memory_eq b hb i hi :=
    (h'.memory_eq b (h.buffers_eq.trans hb) i hi).trans (h.memory_eq b hb i hi)

theorem Store.Keeps.filled (h : s.Keeps s' name) (hfilled : s.AllFilled)
    (hb : s'.buffers name = some b) : b.Filled :=
  hfilled name b (h.buffers_eq.symm.trans hb)

/-- A buffer with a byte within its capacity has some capacity. -/
theorem Buffer.capacity_ne_zero {i : ℕ} (h : i < b.capacity.toNat) : b.capacity ≠ 0 := by
  intro hzero
  rw [hzero] at h
  exact absurd h (Nat.not_lt_zero i)

theorem Buffer.filled_of_capacity_eq_zero (hsize : b.size = 0) (hcapacity : b.capacity = 0) :
    b.Filled where
  size_le := by rw [hsize]; exact UInt64.zero_le
  owns h := absurd hcapacity h

/-- While ownership is exclusive, a block of one buffer is not the block of another. -/
theorem Store.ptr_ne_of_filled (hexclusive : Exclusive s.holds s.heap.live)
    (hfilled : s.AllFilled) {other : Name} {b' : Buffer} (hname : other ≠ name)
    (hb : s.buffers name = some b) (howned : b.Owned) (hb' : s.buffers other = some b')
    (hcapacity : b'.capacity ≠ 0) : b'.ptr ≠ b.ptr := by
  obtain ⟨howned', hnull⟩ := (hfilled other b' hb').owns hcapacity
  exact Store.ptr_ne_of_exclusive hexclusive hname hb howned hb' howned' hnull

/-- A copy is no longer than the capacity and the memory that it asks for. -/
theorem Store.copyOf_size_le (h : s.copyOf call = some (lhs, l, copy)) (hfit : LengthsFit s call) :
    copy.size ≤ copy.capacity ∧ copy.size.toNat ≤ copy.bytes.toNat := by
  obtain ⟨-, hsize⟩ := Store.copyOf_size h hfit
  obtain ⟨size, rfl, -⟩ | ⟨size, rfl, -⟩ := Store.copyOf_cases h
  · simp only [assignCopy] at hsize ⊢
    refine ⟨UInt64.le_refl _, ?_⟩
    rw [UInt64.toNat_add, UInt64.toNat_one]
    omega
  · simp only [appendCopy] at hsize ⊢
    generalize l.size + size = total at hsize ⊢
    have hbytes : (total + total / 2).toNat = total.toNat + total.toNat / 2 := by
      rw [UInt64.toNat_add, UInt64.toNat_div, show (2 : UInt64).toNat = 2 from rfl]
      omega
    rw [UInt64.le_iff_toNat_le, hbytes]
    omega

/-- The bytes of a buffer that grows are inside its old block. -/
theorem Sized.size_le_blockSize {heap : Heap} (h : Sized heap l) (howned : l.Owned)
    (hfilled : l.Filled) (hgrows : l.capacity < copy.size) :
    l.size.toNat ≤ heap.blockSize l.ptr := by
  have hle := UInt64.le_iff_toNat_le.mp hfilled.size_le
  have hlt := UInt64.lt_iff_toNat_lt.mp hgrows
  have hmax := copy.size.toNat_lt
  obtain ⟨hblock, -⟩ | hblock := h howned
  · omega
  · rw [UInt64.toNat_add, UInt64.toNat_one] at hblock
    omega

/-- The source of a copy is what it was before the reallocation. -/
theorem Store.Keeps.contents_eq (h : s.Keeps mid rhs) (hfilled : s.AllFilled) {r : Buffer}
    (hr : s.buffers rhs = some r) (hstr : mid.contents rhs = some str) :
    strBytes str r.size = r.bytes s.heap := by
  rw [Store.contents, h.buffers_eq, hr, Option.map_some, Option.some.injEq] at hstr
  subst hstr
  refine strBytes_congr fun i hi => h.memory_eq r hr i ?_
  exact lt_of_lt_of_le hi (UInt64.le_iff_toNat_le.mp (hfilled rhs r hr).size_le)

variable [DecidableEq Name]

/-- Writing an object keeps the other ones if the heap keeps their bytes. -/
theorem Store.keeps_put {heap : Heap} {other : Name} (hname : other ≠ name)
    (hmemory : ∀ b', s.buffers other = some b' → ∀ i < b'.capacity.toNat,
      heap.memory b'.ptr i = s.heap.memory b'.ptr i) :
    s.Keeps (s.put heap name b) other where
  buffers_eq := Function.update_of_ne hname ..
  memory_eq := hmemory

/-- The byte lists after a call that writes one buffer. -/
theorem Store.byteLists_eq_update (hfilled : s.AllFilled)
    (hkeeps : ∀ other, other ≠ lhs → s.Keeps s' other) (hb : s'.buffers lhs = some b) :
    s'.byteLists = Function.update s.byteLists lhs (some (b.bytes s'.heap)) := by
  funext other
  by_cases hname : other = lhs
  · subst hname
    rw [Function.update_self, Store.byteLists, hb, Option.map_some]
  · rw [Function.update_of_ne hname, (hkeeps other hname).byteLists_eq hfilled]

/-- Growing a buffer keeps its bytes and all other buffers. -/
theorem Store.grow_keeps {address : ℕ} (hwell : s.WellSized) (hfilled : s.AllFilled)
    (hfit : LengthsFit s call) (hcopy : s.copyOf call = some (lhs, l, copy))
    (hl : s.buffers lhs = some l) (howned : l.Owned)
    (hgrow : s.grow lhs l copy address = some mid) :
    (∀ other, other ≠ lhs → s.Keeps mid other) ∧
      ∃ l', mid.buffers lhs = some l' ∧ l'.Owned ∧ copy.size ≤ l'.capacity ∧
        (l'.capacity ≠ 0 → l'.ptr ≠ .null) ∧
        (∀ i < l.size.toNat, mid.heap.memory l'.ptr i = s.heap.memory l.ptr i) ∧
        ∀ other b, other ≠ lhs → s.buffers other = some b → b.capacity ≠ 0 → b.ptr ≠ l'.ptr := by
  have hother : ∀ other b, other ≠ lhs → s.buffers other = some b → b.capacity ≠ 0 →
      b.ptr ≠ l.ptr := fun other b hname hb =>
    Store.ptr_ne_of_filled hwell.exclusive hfilled hname hl howned hb
  obtain ⟨hle, rfl⟩ | ⟨hgrows, new, heap, hrealloc, rfl⟩ := Store.grow_eq_some hgrow
  · exact ⟨fun _ _ => ⟨rfl, fun _ _ _ _ => rfl⟩, l, hl, howned, hle,
      fun hcapacity => ((hfilled lhs l hl).owns hcapacity).2, fun _ _ => rfl, hother⟩
  obtain ⟨hfresh, hnull, -⟩ := Heap.realloc_eq_some hrealloc
  obtain ⟨hkept, hmemory⟩ := Heap.realloc_memory hrealloc
  obtain ⟨hcapacity, hbytes⟩ := Store.copyOf_size_le hcopy hfit
  have hne : ∀ other b, other ≠ lhs → s.buffers other = some b → b.capacity ≠ 0 →
      b.ptr ≠ new := by
    intro other b hname hb hcapacity heq
    obtain ⟨howned', hnull'⟩ := (hfilled other b hb).owns hcapacity
    have hlive := hwell.exclusive.mem_live
      (Store.holds_eq_some_iff.mpr ⟨b, hb, howned', hnull', rfl⟩)
    exact hfresh (heq ▸ ⟨hlive, hother other b hname hb hcapacity⟩)
  refine ⟨?_, _, Function.update_self .., howned, hcapacity, fun _ => hnull, ?_, hne⟩
  · intro other hname
    refine Store.keeps_put hname fun b hb i hi => ?_
    rw [hmemory b.ptr (hne other b hname hb (Buffer.capacity_ne_zero hi))]
  · intro i hi
    have hblock := (hwell.sized lhs l hl).size_le_blockSize howned (hfilled lhs l hl) hgrows
    have hlt := UInt64.lt_iff_toNat_lt.mp hgrows
    have hle := UInt64.le_iff_toNat_le.mp (hfilled lhs l hl).size_le
    exact hkept i (lt_min (lt_of_lt_of_le hi hblock) (by omega))

/-- Filling a buffer replaces its bytes from the offset on and keeps all other buffers. -/
theorem Store.fill_keeps (hl : mid.buffers lhs = some l)
    (hother : ∀ other b, other ≠ lhs → mid.buffers other = some b → b.capacity ≠ 0 →
      b.ptr ≠ l.ptr)
    (hend : copy.size.toNat = copy.offset.toNat + copy.count.toNat)
    (hfill : mid.fill lhs copy str = some s') :
    (∀ other, other ≠ lhs → mid.Keeps s' other) ∧
      s'.buffers lhs = some { l with size := copy.size } ∧
      { l with size := copy.size }.bytes s'.heap =
        strBytes (mid.heap.memory l.ptr) copy.offset ++ strBytes str copy.count := by
  rw [Store.fill, hl, Option.map_some, Option.some.injEq] at hfill
  subst hfill
  refine ⟨?_, Function.update_self .., ?_⟩
  · intro other hname
    refine Store.keeps_put hname fun b hb i hi => ?_
    have hne := hother other b hname hb (Buffer.capacity_ne_zero hi)
    rw [Heap.memcpy_memory_of_ne hne, Heap.memcpy_memory_of_ne hne]
  · rw [Buffer.bytes, Store.put_heap, strBytes_append hend]
    · refine congrArg (· ++ _) (strBytes_congr fun i hi => ?_)
      rw [Heap.memcpy_memory_self, if_neg (by omega), Heap.memcpy_memory_self, if_neg (by omega)]
    · intro i hi
      rw [Heap.memcpy_memory_self, if_neg (by omega), Heap.memcpy_memory_self,
        if_pos (by omega), Nat.add_sub_cancel_left]

/-- The copying functions put the source behind the bytes before the offset. -/
theorem Store.copyInto_byteLists {copyOf : Buffer → Copy}
    {source : Store Name → Option (ℕ → UInt8)} {address : ℕ} (hwell : s.WellSized)
    (hfilled : s.AllFilled) (hfit : LengthsFit s call)
    (hcopy : ∀ l, s.buffers lhs = some l → s.copyOf call = some (lhs, l, copyOf l))
    (hoffset : ∀ l, (copyOf l).offset ≤ l.size)
    (h : s.copyInto lhs copyOf source address = some s') :
    (∀ other, other ≠ lhs → s.Keeps s' other) ∧
      ∃ l mid str b, s.buffers lhs = some l ∧ (∀ other, other ≠ lhs → s.Keeps mid other) ∧
        source mid = some str ∧ s'.buffers lhs = some b ∧ b.Filled ∧
        b.bytes s'.heap =
          strBytes (s.heap.memory l.ptr) (copyOf l).offset ++ strBytes str (copyOf l).count := by
  obtain ⟨l, mid, str, hl, howned, hgrow, hstr, hfill⟩ := Store.copyInto_eq_some h
  obtain ⟨hgrown, l', hl', howned', hle, hnull, hmemory, hother⟩ :=
    Store.grow_keeps hwell hfilled hfit (hcopy l hl) hl howned hgrow
  have hother' : ∀ other b, other ≠ lhs → mid.buffers other = some b → b.capacity ≠ 0 →
      b.ptr ≠ l'.ptr := fun other b hname hb =>
    hother other b hname ((hgrown other hname).buffers_eq.symm.trans hb)
  obtain ⟨hkept, hb, hbytes⟩ :=
    Store.fill_keeps hl' hother' (Store.copyOf_size (hcopy l hl) hfit).1 hfill
  refine ⟨fun other hname => (hgrown other hname).trans (hkept other hname), l, mid, str, _, hl,
    hgrown, hstr, hb, ⟨hle, fun hcapacity => ⟨howned', hnull hcapacity⟩⟩, ?_⟩
  rw [hbytes]
  refine congrArg (· ++ _) (strBytes_congr fun i hi => hmemory i ?_)
  exact lt_of_lt_of_le hi (UInt64.le_iff_toNat_le.mp (hoffset l))

/-- A release empties the buffer and keeps the bytes of all others. -/
theorem oakBufferFree_buffers (h : oakBufferFree s name = some s') :
    (∃ b, s.buffers name = some b) ∧
      s'.buffers = Function.update s.buffers name (some ⟨.null, 0, 0, 0⟩) ∧
      s'.heap.memory = s.heap.memory := by
  obtain ⟨b, hb, rfl⟩ := Option.map_eq_some_iff.mp h
  refine ⟨⟨b, hb⟩, rfl, ?_⟩
  rw [Store.put_heap]
  split
  · exact Heap.free_memory _ _
  · rfl

/-- A move hands the buffer over and keeps all bytes. -/
theorem oakBufferMove_buffers (hname : lhs ≠ rhs) (h : oakBufferMove s lhs rhs = some s') :
    (∃ l, s.buffers lhs = some l) ∧ ∃ r, s.buffers rhs = some r ∧
      s'.buffers = Function.update (Function.update s.buffers lhs (some r)) rhs
        (some ⟨.null, 0, 0, 0⟩) ∧
      s'.heap.memory = s.heap.memory := by
  simp only [oakBufferMove, Option.bind_eq_bind, Option.bind_eq_some_iff] at h
  obtain ⟨mid, hfree, r, hr, r', -, hlast⟩ := h
  obtain ⟨hl, hbuffers, hmemory⟩ := oakBufferFree_buffers hfree
  obtain ⟨-, hbuffers', hmemory'⟩ := oakBufferFree_buffers hlast
  rw [hbuffers, Function.update_of_ne hname.symm] at hr
  refine ⟨hl, r, hr, ?_, hmemory'.trans hmemory⟩
  rw [hbuffers', Store.put, Store.put, Function.update_idem, hbuffers, Function.update_idem]

/-- What a call on owned buffers does to the bytes: the buffers it may not write are kept, the
byte lists change as they should, and every buffer stays filled. -/
structure Store.Refines (s : Store Name) (call : BufferCall Name) (s' : Store Name) : Prop where
  keeps : ∀ name, name ∉ call.targets → s.Keeps s' name
  byteLists_eq : s.byteLists.apply call = some s'.byteLists
  filled : s'.AllFilled

/-- Every buffer stays filled if the written one is. -/
theorem Store.allFilled_of_keeps (hfilled : s.AllFilled)
    (hkeeps : ∀ other, other ≠ lhs → s.Keeps s' other) (hb : s'.buffers lhs = some b)
    (hfilled' : b.Filled) : s'.AllFilled := by
  intro other b' hb'
  by_cases hname : other = lhs
  · subst hname
    exact Option.some.inj (hb.symm.trans hb') ▸ hfilled'
  · exact (hkeeps other hname).filled hfilled hb'

/-- A call that writes one buffer refines the byte lists. -/
theorem Store.Refines.of_keeps (htargets : call.targets = [lhs]) (hfilled : s.AllFilled)
    (hkeeps : ∀ other, other ≠ lhs → s.Keeps s' other) (hb : s'.buffers lhs = some b)
    (hfilled' : b.Filled)
    (happly : s.byteLists.apply call =
      some (Function.update s.byteLists lhs (some (b.bytes s'.heap)))) :
    s.Refines call s' where
  keeps other hother := hkeeps other fun heq => hother (by simp [htargets, heq])
  byteLists_eq := by rw [happly, Store.byteLists_eq_update hfilled hkeeps hb]
  filled := Store.allFilled_of_keeps hfilled hkeeps hb hfilled'

/-- Assigning refines the byte lists. -/
theorem BufferStep.refines_assign {address : ℕ} (h : BufferStep s (.assign lhs rhs address) s')
    (hdistinct : lhs ≠ rhs) (hfit : LengthsFit s (.assign lhs rhs address))
    (hwell : s.WellSized) (hfilled : s.AllFilled) : s.Refines (.assign lhs rhs address) s' := by
  obtain ⟨r, hr, h⟩ := Option.bind_eq_some_iff.mp (bufferStep_iff.mp h)
  obtain ⟨hkeeps, l, mid, str, b, hl, hmid, hstr, hb, hfilled', hbytes⟩ :=
    Store.copyInto_byteLists hwell hfilled hfit (fun l hl => by simp [Store.copyOf, hl, hr])
      (fun l => UInt64.zero_le) h
  refine .of_keeps rfl hfilled hkeeps hb hfilled' ?_
  have hr' := (hmid rhs hdistinct.symm).contents_eq hfilled hr hstr
  simp [Contents.apply, Store.byteLists, hl, hr, hbytes, assignCopy, hr']
  rfl

/-- Appending refines the byte lists. -/
theorem BufferStep.refines_append {address : ℕ} (h : BufferStep s (.append lhs rhs address) s')
    (hdistinct : lhs ≠ rhs) (hfit : LengthsFit s (.append lhs rhs address))
    (hwell : s.WellSized) (hfilled : s.AllFilled) : s.Refines (.append lhs rhs address) s' := by
  obtain ⟨r, hr, h⟩ := Option.bind_eq_some_iff.mp (bufferStep_iff.mp h)
  obtain ⟨hkeeps, l, mid, str, b, hl, hmid, hstr, hb, hfilled', hbytes⟩ :=
    Store.copyInto_byteLists hwell hfilled hfit (fun l hl => by simp [Store.copyOf, hl, hr])
      (fun l => UInt64.le_refl _) h
  refine .of_keeps rfl hfilled hkeeps hb hfilled' ?_
  have hr' := (hmid rhs hdistinct.symm).contents_eq hfilled hr hstr
  simp [Contents.apply, Store.byteLists, hl, hr, hbytes, appendCopy, hr']
  rfl

/-- A new buffer holds no byte. -/
theorem BufferStep.refines_init {capacity : UInt64} {address : ℕ}
    (h : BufferStep s (.init name capacity address) s') (hfilled : s.AllFilled) :
    s.Refines (.init name capacity address) s' := by
  generalize hcall : BufferCall.init name capacity address = call at h
  cases h.shape with
  | initEmpty buffer address =>
    obtain ⟨rfl, rfl, rfl⟩ := BufferCall.init.inj hcall
    exact .of_keeps rfl hfilled (fun other hname => Store.keeps_put hname fun _ _ _ _ => rfl)
      (Function.update_self ..) (Buffer.filled_of_capacity_eq_zero rfl rfl) rfl
  | initBlock hmalloc =>
    obtain ⟨rfl, rfl, rfl⟩ := BufferCall.init.inj hcall
    obtain ⟨-, hnull, -⟩ := Heap.malloc_eq_some hmalloc
    have hmemory := Heap.malloc_memory hmalloc
    refine .of_keeps rfl hfilled (fun other hname => Store.keeps_put hname fun _ _ _ _ => ?_)
      (Function.update_self ..) ⟨UInt64.zero_le, fun _ => ⟨Buffer.owned_init _ _, hnull⟩⟩ rfl
    rw [hmemory]
  | copied hcopy =>
    rw [← hcall] at hcopy
    cases hcopy
  | init2 | free | clear | ref | move => cases hcall

/-- A released buffer holds no byte. -/
theorem BufferStep.refines_free (h : BufferStep s (.free name) s') (hfilled : s.AllFilled) :
    s.Refines (.free name) s' := by
  obtain ⟨⟨b, hb⟩, hbuffers, hmemory⟩ := oakBufferFree_buffers (bufferStep_iff.mp h)
  have hself : s'.buffers name = some ⟨.null, 0, 0, 0⟩ := by rw [hbuffers, Function.update_self]
  refine .of_keeps rfl hfilled (fun other hname => ⟨?_, fun _ _ _ _ => ?_⟩) hself
    (Buffer.filled_of_capacity_eq_zero rfl rfl) ?_
  · rw [hbuffers, Function.update_of_ne hname]
  · rw [hmemory]
  · rw [Contents.apply, Store.byteLists, hb]
    rfl

/-- A cleared buffer holds no byte. -/
theorem BufferStep.refines_clear (h : BufferStep s (.clear name) s') (hfilled : s.AllFilled) :
    s.Refines (.clear name) s' := by
  obtain ⟨b, hb, rfl⟩ := Option.map_eq_some_iff.mp (bufferStep_iff.mp h)
  refine .of_keeps rfl hfilled (fun other hname => Store.keeps_put hname fun _ _ _ _ => rfl)
    (Function.update_self ..) ⟨UInt64.zero_le, (hfilled name b hb).owns⟩ ?_
  rw [Contents.apply, Store.byteLists, hb]
  rfl

/-- A moved buffer holds what the other one held. -/
theorem BufferStep.refines_move (h : BufferStep s (.move lhs rhs) s') (hdistinct : lhs ≠ rhs)
    (hfilled : s.AllFilled) : s.Refines (.move lhs rhs) s' := by
  obtain ⟨⟨l, hl⟩, r, hr, hbuffers, hmemory⟩ :=
    oakBufferMove_buffers hdistinct (bufferStep_iff.mp h)
  refine ⟨?_, ?_, ?_⟩
  · intro other hother
    obtain ⟨hlhs, hrhs⟩ : other ≠ lhs ∧ other ≠ rhs := by simpa [BufferCall.targets] using hother
    refine ⟨?_, fun _ _ _ _ => by rw [hmemory]⟩
    rw [hbuffers, Function.update_of_ne hrhs, Function.update_of_ne hlhs]
  · have hlists : s'.byteLists = Function.update
        (Function.update s.byteLists lhs (s.byteLists rhs)) rhs (some []) := by
      funext other
      simp only [Store.byteLists, hbuffers, Function.update_apply, Buffer.bytes, hmemory]
      split
      · rfl
      · split
        · rw [hr]
        · rfl
    simp [Contents.apply, hlists, Store.byteLists, hl, hr]
  · intro other b hb
    rw [hbuffers, Function.update_apply, Function.update_apply] at hb
    split at hb
    · exact Option.some.inj hb ▸ Buffer.filled_of_capacity_eq_zero rfl rfl
    · split at hb
      · exact Option.some.inj hb ▸ hfilled rhs r hr
      · exact hfilled other b hb

/-- Every call on owned buffers refines the byte lists. -/
theorem BufferStep.refines (h : BufferStep s call s') (hcall : call.OnOwned)
    (hdistinct : call.Distinct) (hfit : LengthsFit s call) (hwell : s.WellSized)
    (hfilled : s.AllFilled) : s.Refines call s' := by
  cases call with
  | init buffer capacity address => exact h.refines_init hfilled
  | init2 | ref => exact hcall.elim
  | free buffer => exact h.refines_free hfilled
  | clear buffer => exact h.refines_clear hfilled
  | move lhs rhs => exact h.refines_move hdistinct hfilled
  | assign lhs rhs address => exact h.refines_assign hdistinct hfit hwell hfilled
  | append lhs rhs address => exact h.refines_append hdistinct hfit hwell hfilled
  | assignStr lhs str size address =>
    obtain ⟨hkeeps, l, mid, str, b, hl, -, hstr, hb, hfilled', hbytes⟩ :=
      Store.copyInto_byteLists hwell hfilled hfit (fun l hl => by simp [Store.copyOf, hl])
        (fun l => UInt64.zero_le) (bufferStep_iff.mp h)
    refine .of_keeps rfl hfilled hkeeps hb hfilled' ?_
    cases hstr
    rw [hbytes, Contents.apply, Store.byteLists, hl]
    rfl
  | appendStr lhs str size address =>
    obtain ⟨hkeeps, l, mid, str, b, hl, -, hstr, hb, hfilled', hbytes⟩ :=
      Store.copyInto_byteLists hwell hfilled hfit (fun l hl => by simp [Store.copyOf, hl])
        (fun l => UInt64.le_refl _) (bufferStep_iff.mp h)
    refine .of_keeps rfl hfilled hkeeps hb hfilled' ?_
    cases hstr
    rw [hbytes, Contents.apply, Store.byteLists, hl]
    rfl

/-- The calls on owned buffers whose lengths fit and whose operands are distinct. -/
def DistinctStep : Store Name → BufferCall Name → Store Name → Prop :=
  Guarded OwnedStep fun _ call => call.Distinct

/-- A call on owned buffers keeps what every state of a run satisfies. -/
theorem DistinctStep.wellSized (h : DistinctStep s call s') (hwell : s.WellSized)
    (hfilled : s.AllFilled) : s'.WellSized ∧ s.Refines call s' := by
  obtain ⟨⟨hstep, hcall, hfit⟩, hdistinct⟩ := h
  exact ⟨hstep.wellSized hcall hfit hwell, hstep.refines hcall hdistinct hfit hwell hfilled⟩

/-- After every sequence of calls on owned buffers the bytes in memory are the lists that the
operations compute, every owned buffer is within its capacity, and a further call keeps every
buffer that it may not write, with all bytes within its capacity. -/
theorem buffers_refine_byteLists (memory : Ptr → ℕ → UInt8) (calls : List (BufferCall Name))
    (s : Store Name) (hrun : Run DistinctStep (.empty memory) calls s) :
    calls.foldlM Contents.apply (fun _ => none) = some s.byteLists ∧
      (∀ name b, s.buffers name = some b → b.Owned → b.size ≤ b.capacity) ∧
      ∀ (call : BufferCall Name) (s' : Store Name), DistinctStep s call s' →
        ∀ name, name ∉ call.targets → s.Keeps s' name := by
  have hinv : calls.foldlM Contents.apply (fun _ => none) = some s.byteLists ∧
      s.WellSized ∧ s.AllFilled := by
    refine hrun.invariant (I := fun calls s =>
      calls.foldlM Contents.apply (fun _ => none) = some s.byteLists ∧ s.WellSized ∧ s.AllFilled)
      ⟨rfl, Store.empty_wellSized memory, by simp [Store.AllFilled, Store.empty]⟩ ?_
    rintro calls s call s' ⟨hlists, hwell, hfilled⟩ hstep
    obtain ⟨hwell', hrefines⟩ := hstep.wellSized hwell hfilled
    refine ⟨?_, hwell', hrefines.filled⟩
    rw [List.foldlM_append, hlists]
    simpa using hrefines.byteLists_eq
  obtain ⟨hlists, hwell, hfilled⟩ := hinv
  refine ⟨hlists, fun name b hb _ => (hfilled name b hb).size_le, ?_⟩
  intro call s' hstep
  exact (hstep.wellSized hwell hfilled).2.keeps

/-- Two strings are put together in a second buffer, which is then moved over the first one; what
is cleared after that leaves the result alone. -/
theorem buffers_refine_byteLists_move :
    ∃ (calls : List (BufferCall ℕ)) (s : Store ℕ),
      Run DistinctStep (.empty fun _ _ => 0) calls s ∧
        s.byteLists 0 = some [97, 97, 97, 98] ∧ s.byteLists 1 = some [] ∧
        calls.foldlM Contents.apply (fun _ => none) = some s.byteLists ∧
        ∀ s', s.call (.clear 1) = some s' → s.Keeps s' 0 := by
  have hexec : (exec (guardedNext callNext fun s call =>
        (call.OnOwned ∧ LengthsFit s call) ∧ call.Distinct) (.empty fun _ _ => 0)
      [.init 0 8 1, .assignStr 0 (fun _ => 97) 3 0, .init 1 0 0, .append 1 0 2,
        .appendStr 1 (fun _ => 98) 1 3, .move (0 : ℕ) 1]).map
        (fun result => (result.2.byteLists 0, result.2.byteLists 1)) =
      some (some [97, 97, 97, 98], some []) := by
    decide +kernel
  obtain ⟨calls, s, hrun, hlists⟩ := exists_guarded_run_of_exec hexec
  have hrun : Run DistinctStep (.empty fun _ _ => 0) calls s :=
    hrun.mono fun _ _ _ ⟨hstep, hcall, hdistinct⟩ => ⟨⟨hstep, hcall⟩, hdistinct⟩
  obtain ⟨hfirst, hsecond⟩ := Prod.mk.inj hlists
  obtain ⟨hfold, -, hkeeps⟩ := buffers_refine_byteLists _ calls s hrun
  refine ⟨calls, s, hrun, hfirst, hsecond, hfold, fun s' hclear => ?_⟩
  refine hkeeps (.clear 1) s' ⟨⟨bufferStep_iff.mpr hclear, trivial, ?_⟩, trivial⟩ 0 (by decide)
  intro _ _ _ hcopy
  cases hcopy

end Demos.Oak
