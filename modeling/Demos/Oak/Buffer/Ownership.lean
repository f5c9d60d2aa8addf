import Demos.Oak.Buffer.Calls
import Mathlib.Order.BooleanAlgebra.Set

/-!
# Ownership of the heap blocks

Every live block belongs to exactly one owned buffer as long as no buffer that owns a block is
initialised again and no owned buffer is made to refer to other memory. The second is what the
assertion of `oak_buffer_ref` lets through: it looks at every flag but `OAK_BUFFER_OWNED`.
-/

namespace Demos.Oak

open Demos.Lib

variable {Name : Type} {s s' mid : Store Name} {name lhs rhs : Name} {b l : Buffer}

/-- The block that a buffer owns. -/
def Buffer.held (buffer : Buffer) : Option Ptr :=
  if buffer.Owned ∧ buffer.ptr ≠ .null then some buffer.ptr else none

/-- The block that each object owns. -/
def Store.holds (s : Store Name) (name : Name) : Option Ptr := (s.buffers name).bind Buffer.held

/-- Only live blocks were released. -/
def Store.Releases (s : Store Name) : Prop := ∀ e ∈ s.heap.trace, e.LiveRelease

/-- Every live block is the pointer of exactly one owned buffer, every owned pointer but null is a
live block, and only live blocks were released. -/
def Store.OwnershipSafe (s : Store Name) : Prop :=
  (∀ ptr ∈ s.heap.live, ∃! name, ∃ b, s.buffers name = some b ∧ b.Owned ∧ b.ptr = ptr) ∧
    (∀ name b, s.buffers name = some b → b.Owned → b.ptr ≠ .null → b.ptr ∈ s.heap.live) ∧
    s.Releases

/-- An object that owns a block is not initialised again, and an owned buffer is not made to refer
to other memory than its own. -/
def KeepsBlock (s : Store Name) : BufferCall Name → Prop
  | .init name _ _ => ∀ b, s.buffers name = some b → b.Owned → b.ptr = .null
  | .init2 name _ _ => ∀ b, s.buffers name = some b → b.Owned → b.ptr = .null
  | .ref name str _ => ∀ b, s.buffers name = some b → b.Owned → b.ptr = str
  | _ => True

instance (s : Store Name) : (call : BufferCall Name) → Decidable (KeepsBlock s call)
  | .init name _ _ =>
    inferInstanceAs (Decidable (∀ b ∈ s.buffers name, b.Owned → b.ptr = .null))
  | .init2 name _ _ =>
    inferInstanceAs (Decidable (∀ b ∈ s.buffers name, b.Owned → b.ptr = .null))
  | .ref name str _ =>
    inferInstanceAs (Decidable (∀ b ∈ s.buffers name, b.Owned → b.ptr = str))
  | .free _ | .clear _ | .move _ _ | .assign _ _ _ | .assignStr _ _ _ _ | .append _ _ _
  | .appendStr _ _ _ _ => isTrue trivial

/-- The pointer that a buffer holds. -/
theorem Buffer.held_eq_some_iff {ptr : Ptr} :
    b.held = some ptr ↔ b.Owned ∧ b.ptr ≠ .null ∧ b.ptr = ptr := by
  unfold Buffer.held
  split <;> simp_all

/-- An owned buffer holds nothing exactly if its pointer is null. -/
theorem Buffer.held_eq_none_iff : b.held = none ↔ (b.Owned → b.ptr = .null) := by
  unfold Buffer.held
  split <;> simp_all

theorem Buffer.held_init {ptr : Ptr} (h : ptr ≠ .null) (capacity : UInt64) :
    (⟨ptr, 0, oakBufferOwned, capacity⟩ : Buffer).held = some ptr :=
  Buffer.held_eq_some_iff.mpr ⟨show oakBufferOwned &&& oakBufferOwned ≠ 0 by decide, h, rfl⟩

/-- A buffer that refers to other memory holds nothing. -/
theorem Buffer.held_init2 (str : Ptr) (len : UInt64) :
    (⟨str, len, 0, len⟩ : Buffer).held = none :=
  Buffer.held_eq_none_iff.mpr fun howned => absurd howned
    (show ¬ (0 : UInt32) &&& oakBufferOwned ≠ 0 by decide)

/-- A buffer holds the same block whatever its size. -/
theorem Buffer.held_resize (b : Buffer) (size : UInt64) :
    { b with size := size }.held = b.held := rfl

/-- Replacing the pointer of a buffer keeps what it holds if the buffer is not owned or the pointer
is the same. -/
theorem Buffer.held_ref_iff (b : Buffer) (str : Ptr) (size : UInt64) :
    { b with ptr := str, size := size }.held = b.held ↔ (b.Owned → b.ptr = str) := by
  have howned : { b with ptr := str, size := size }.Owned ↔ b.Owned := Iff.rfl
  by_cases hb : b.Owned
  · simp only [Buffer.held, howned, hb, true_and, forall_const]
    split <;> split <;> simp_all [eq_comm]
  · simp [Buffer.held, howned, hb]

/-- The pointer that an object holds. -/
theorem Store.holds_eq_some_iff {ptr : Ptr} :
    s.holds name = some ptr ↔
      ∃ b, s.buffers name = some b ∧ b.Owned ∧ b.ptr ≠ .null ∧ b.ptr = ptr := by
  simp only [Store.holds, Option.bind_eq_some_iff, Buffer.held_eq_some_iff]

/-- An object holds nothing exactly if it owns no block. -/
theorem Store.holds_eq_none_iff :
    s.holds name = none ↔ ∀ b, s.buffers name = some b → b.Owned → b.ptr = .null := by
  simp only [Store.holds, Option.bind_eq_none_iff, Buffer.held_eq_none_iff]

/-- The object of a buffer holds what the buffer holds. -/
theorem Store.holds_of_eq (h : s.buffers name = some b) : s.holds name = b.held := by
  rw [Store.holds, h, Option.bind_some]

/-- The safety property says that ownership is exact. -/
theorem Store.ownershipSafe_iff :
    s.OwnershipSafe ↔ Exact s.holds s.heap.live ∧ s.Releases := by
  have hne : ∀ {ptr : Ptr}, ptr ∈ s.heap.live → ptr ≠ .null := by
    rintro ptr hptr rfl
    exact Heap.null_notMem_live hptr
  have hholds : ∀ {ptr : Ptr} {name : Name}, ptr ∈ s.heap.live →
      ((∃ b, s.buffers name = some b ∧ b.Owned ∧ b.ptr = ptr) ↔ s.holds name = some ptr) := by
    intro ptr name hptr
    rw [Store.holds_eq_some_iff]
    refine exists_congr fun b => ⟨?_, ?_⟩
    · rintro ⟨hb, howned, rfl⟩
      exact ⟨hb, howned, hne hptr, rfl⟩
    · rintro ⟨hb, howned, -, rfl⟩
      exact ⟨hb, howned, rfl⟩
  constructor
  · rintro ⟨hunique, hlive, hreleases⟩
    have hmem : ∀ {name : Name} {ptr : Ptr}, s.holds name = some ptr → ptr ∈ s.heap.live := by
      intro name ptr hname
      obtain ⟨b, hb, howned, hnull, rfl⟩ := Store.holds_eq_some_iff.mp hname
      exact hlive name b hb howned hnull
    refine ⟨⟨⟨hmem, ?_⟩, ?_⟩, hreleases⟩
    · intro n m ptr hn hm
      have hptr := hmem hn
      exact (hunique ptr hptr).unique ((hholds hptr).mpr hn) ((hholds hptr).mpr hm)
    · intro ptr hptr
      obtain ⟨name, hname, -⟩ := hunique ptr hptr
      exact ⟨name, (hholds hptr).mp hname⟩
  · rintro ⟨hexact, hreleases⟩
    refine ⟨?_, ?_, hreleases⟩
    · intro ptr hptr
      obtain ⟨name, hname⟩ := hexact.complete hptr
      refine ⟨name, (hholds hptr).mpr hname, ?_⟩
      intro other hother
      exact hexact.unique ((hholds hptr).mp hother) hname
    · intro name b hb howned hnull
      exact hexact.mem_live (Store.holds_eq_some_iff.mpr ⟨b, hb, howned, hnull, rfl⟩)

/-- An owned buffer has its block taken from the live ones. -/
theorem sdiff_heldBy (hb : s.buffers name = some b) (howned : b.Owned) :
    s.heap.live \ heldBy s.holds name = s.heap.live \ {b.ptr} := by
  ext ptr
  simp only [Set.mem_sdiff, Set.mem_singleton_iff, heldBy, Set.mem_ofPred_eq,
    Store.holds_of_eq hb, Buffer.held_eq_some_iff]
  refine and_congr_right fun hptr => not_congr ⟨?_, ?_⟩
  · rintro ⟨-, -, rfl⟩
    rfl
  · rintro rfl
    refine ⟨howned, ?_, rfl⟩
    intro hnull
    exact Heap.null_notMem_live (hnull ▸ hptr)

/-- While ownership is exclusive, an owned pointer may be released. -/
theorem free_liveRelease (hb : s.buffers name = some b) (howned : b.Owned)
    (hexclusive : Exclusive s.holds s.heap.live) (hreleases : s.Releases) :
    ∀ e ∈ (s.heap.free b.ptr).trace, e.LiveRelease := by
  apply Heap.free_trace_liveRelease hreleases
  by_cases hnull : b.ptr = .null
  · exact .inl hnull
  · exact .inr (hexclusive.mem_live (Store.holds_eq_some_iff.mpr ⟨b, hb, howned, hnull, rfl⟩))

/-- The copying functions replace no pointer behind the back of the heap. -/
theorem keepsBlock_of_copyOf {call : BufferCall Name} {target : Name × Buffer × Copy}
    (h : s.copyOf call = some target) : KeepsBlock s call := by
  cases call <;> trivial

/-- Before the first call nothing is owned. -/
theorem Store.empty_ownershipSafe (memory : Ptr → ℕ → UInt8) :
    (Store.empty memory : Store Name).OwnershipSafe := by
  refine ⟨?_, ?_, ?_⟩
  · simp [Store.empty]
  · simp [Store.empty]
  · simp [Store.empty, Store.Releases, Heap.empty]

variable [DecidableEq Name]

@[simp]
theorem Store.put_holds (s : Store Name) (heap : Heap) (name : Name) (b : Buffer) :
    (s.put heap name b).holds = Function.update s.holds name b.held := by
  funext other
  by_cases hother : other = name
  · subst hother
    simp [Store.holds, Store.put]
  · simp [Store.holds, Store.put, hother]

/-- Writing an object with what it held before changes nothing. -/
theorem Store.put_holds_self (heap : Heap) {b' : Buffer} (h : s.buffers name = some b)
    (hheld : b'.held = b.held) : (s.put heap name b').holds = s.holds := by
  rw [Store.put_holds, hheld, ← Store.holds_of_eq h, Function.update_eq_self]

/-- What releasing an object does. -/
theorem oakBufferFree_eq_some (h : oakBufferFree s name = some s') :
    s'.holds = Function.update s.holds name none ∧
      s'.heap.live = s.heap.live \ heldBy s.holds name ∧
      (Exclusive s.holds s.heap.live → s.Releases → s'.Releases) := by
  obtain ⟨b, hb, rfl⟩ := Option.map_eq_some_iff.mp h
  have hheld : (⟨.null, 0, 0, 0⟩ : Buffer).held = none := by decide
  refine ⟨by rw [Store.put_holds, hheld], ?_⟩
  rw [Store.put, Store.Releases]
  by_cases howned : b.Owned
  · simp only [if_pos howned, Heap.live_free]
    exact ⟨(sdiff_heldBy hb howned).symm, free_liveRelease hb howned⟩
  · simp only [if_neg howned]
    refine ⟨?_, fun _ hreleases => hreleases⟩
    simp [heldBy, Store.holds_of_eq hb, Buffer.held_eq_some_iff, howned]

/-- Clearing the flag leaves a buffer that owns nothing. -/
theorem Buffer.not_owned_cleared (b : Buffer) :
    ¬ { b with flags := b.flags &&& ~~~oakBufferOwned }.Owned := by
  simp only [Buffer.Owned, ne_eq, not_not]
  rw [UInt32.and_assoc, show ~~~oakBufferOwned &&& oakBufferOwned = 0 by decide, UInt32.and_zero]

/-- What moving between two objects does: the left one is released, then takes over. -/
theorem oakBufferMove_eq_some (h : oakBufferMove s lhs rhs = some s') :
    let holds := Function.update s.holds lhs none
    s'.holds = Function.update (Function.update holds lhs (holds rhs)) rhs none ∧
      s'.heap.live = s.heap.live \ heldBy s.holds lhs ∧
      (Exclusive s.holds s.heap.live → s.Releases → s'.Releases) := by
  simp only [oakBufferMove, Option.bind_eq_bind, Option.bind_eq_some_iff] at h
  obtain ⟨mid, hfree, r, hr, r', hr', hlast⟩ := h
  have hcleared : { r' with flags := r'.flags &&& ~~~oakBufferOwned }.held = none :=
    Buffer.held_eq_none_iff.mpr fun howned => absurd howned r'.not_owned_cleared
  generalize hmoved : (mid.put mid.heap lhs r).put _ rhs _ = moved at hlast
  have hheap : moved.heap = mid.heap := by rw [← hmoved]; rfl
  have hmovedHolds : moved.holds =
      Function.update (Function.update mid.holds lhs (mid.holds rhs)) rhs none := by
    rw [← hmoved, Store.put_holds, hcleared, Store.put_holds, Store.holds_of_eq hr]
  have hempty : heldBy moved.holds rhs = ∅ := by
    ext ptr
    simp [heldBy, hmovedHolds]
  obtain ⟨hholds, hlive, hreleases⟩ := oakBufferFree_eq_some hfree
  obtain ⟨hholds', hlive', hreleases'⟩ := oakBufferFree_eq_some hlast
  refine ⟨?_, ?_, ?_⟩
  · rw [hholds', hmovedHolds, ← hholds, Function.update_idem]
  · rw [hlive', hempty, hheap, ← hlive, Set.sdiff_empty]
  · intro hexclusive hreleased
    have hmid : Exclusive mid.holds mid.heap.live := by
      rw [hholds, hlive]
      exact hexclusive.release
    apply hreleases'
    · rw [hmovedHolds, hheap]
      exact hmid.transfer
    · rw [Store.Releases, hheap]
      exact hreleases hexclusive hreleased

/-- Growing replaces the block of the buffer, if at all. -/
theorem Store.grow_holds {copy : Copy} {address : ℕ} (hl : s.buffers lhs = some l)
    (howned : l.Owned) (h : s.grow lhs l copy address = some mid) :
    mid = s ∨ ∃ new, new ∉ s.heap.live \ heldBy s.holds lhs ∧
      mid.holds = Function.update (Function.update s.holds lhs none) lhs (some new) ∧
      mid.heap.live = insert new (s.heap.live \ heldBy s.holds lhs) ∧
      (Exclusive s.holds s.heap.live → s.Releases → mid.Releases) := by
  obtain ⟨-, rfl⟩ | ⟨-, new, heap, hrealloc, rfl⟩ := Store.grow_eq_some h
  · exact .inl rfl
  obtain ⟨hfresh, hnull, hlive, -, -, htrace⟩ := Heap.realloc_eq_some hrealloc
  rw [← sdiff_heldBy hl howned] at hfresh hlive
  refine .inr ⟨new, hfresh, ?_, hlive, ?_⟩
  · rw [Store.put_holds, Function.update_idem]
    exact congrArg _ (Buffer.held_eq_some_iff.mpr ⟨howned, hnull, rfl⟩)
  · intro hexclusive hreleases
    rw [Store.Releases, Store.put, htrace]
    exact free_liveRelease hl howned hexclusive hreleases

/-- Filling a buffer changes neither the blocks nor their owners. -/
theorem Store.fill_holds {copy : Copy} {str : ℕ → UInt8} (h : mid.fill lhs copy str = some s') :
    s'.holds = mid.holds ∧ s'.heap.live = mid.heap.live ∧ (mid.Releases → s'.Releases) := by
  obtain ⟨l, hl, rfl⟩ := Option.map_eq_some_iff.mp h
  refine ⟨Store.put_holds_self _ hl (l.held_resize copy.size), ?_, ?_⟩
  · rw [Store.put_heap, Heap.memcpy_live, Heap.memcpy_live]
  intro hreleases
  simp only [Store.Releases, Store.put_heap, Heap.memcpy_trace, List.forall_mem_append,
    List.forall_mem_singleton]
  exact ⟨⟨hreleases, trivial⟩, trivial⟩

/-- What every call but `oak_buffer_ref` does to the ownership of the blocks. -/
theorem BufferStep.ownershipChange {call : BufferCall Name} (h : BufferStep s call s')
    (href : ∀ name str size, call ≠ .ref name str size) :
    ∃ safe, OwnershipChange s.holds s.heap.live safe s'.holds s'.heap.live ∧
      (safe ↔ KeepsBlock s call) ∧ (Exclusive s.holds s.heap.live → s.Releases → s'.Releases) := by
  cases h.shape with
  | initEmpty buffer address =>
    refine ⟨_, ?_, Store.holds_eq_none_iff, fun _ hreleases => hreleases⟩
    rw [Store.put_holds]
    exact .forget buffer
  | @initBlock buffer capacity address ptr heap hmalloc =>
    obtain ⟨hfresh, hnull, hlive, -, -, htrace⟩ := Heap.malloc_eq_some hmalloc
    refine ⟨_, ?_, Store.holds_eq_none_iff, fun _ hreleases => ?_⟩
    · rw [Store.put_holds, Buffer.held_init hnull, Store.put_heap, hlive]
      exact .acquire buffer hfresh
    · rwa [Store.Releases, Store.put_heap, htrace]
  | init2 buffer str len =>
    refine ⟨_, ?_, Store.holds_eq_none_iff, fun _ hreleases => hreleases⟩
    rw [Store.put_holds, Buffer.held_init2]
    exact .forget buffer
  | @free buffer _ hfree =>
    obtain ⟨hholds, hlive, hreleases⟩ := oakBufferFree_eq_some hfree
    rw [hholds, hlive]
    exact ⟨_, .release buffer, Iff.rfl, hreleases⟩
  | @clear buffer b hb =>
    rw [Store.put_holds_self s.heap hb (b.held_resize 0)]
    exact ⟨_, .keep, Iff.rfl, fun _ hreleases => hreleases⟩
  | ref str size hb => exact absurd rfl (href _ str size)
  | @move lhs rhs _ hmove =>
    obtain ⟨hholds, hlive, hreleases⟩ := oakBufferMove_eq_some hmove
    rw [hholds, hlive]
    exact ⟨_, .takeOver lhs rhs, Iff.rfl, hreleases⟩
  | @copied _ lhs l copy address str mid _ hcopy hl howned hgrow hfill =>
    have hkeeps : True ↔ KeepsBlock s call := iff_of_true trivial (keepsBlock_of_copyOf hcopy)
    obtain ⟨hholds, hlive, hfilled⟩ := Store.fill_holds hfill
    rw [hholds, hlive]
    obtain rfl | ⟨new, hfresh, hholds, hlive, hreleases⟩ := Store.grow_holds hl howned hgrow
    · exact ⟨_, .keep, hkeeps, fun _ => hfilled⟩
    · rw [hholds, hlive]
      exact ⟨_, .exchange lhs hfresh, hkeeps,
        fun hexclusive hbefore => hfilled (hreleases hexclusive hbefore)⟩

/-- Ownership stays exclusive under every call but `oak_buffer_ref`. -/
theorem BufferStep.exclusive {call : BufferCall Name} (h : BufferStep s call s')
    (href : ∀ name str size, call ≠ .ref name str size)
    (hexclusive : Exclusive s.holds s.heap.live) (hreleases : s.Releases) :
    Exclusive s'.holds s'.heap.live ∧ s'.Releases := by
  obtain ⟨safe, hchange, -, hreleases'⟩ := h.ownershipChange href
  exact ⟨hchange.exclusive hexclusive, hreleases' hexclusive hreleases⟩

/-- Referring to other memory keeps ownership exact exactly under the condition. -/
theorem BufferStep.ref_ownershipSafe_iff {str : Ptr} {size : UInt64}
    (h : BufferStep s (.ref name str size) s') (hexact : Exact s.holds s.heap.live)
    (hreleases : s.Releases) :
    Exact s'.holds s'.heap.live ∧ s'.Releases ↔ KeepsBlock s (.ref name str size) := by
  cases h.shape with
  | @ref _ b _ _ hb =>
    rw [and_iff_left (show (s.put _ _ _).Releases from hreleases), Store.put_holds,
      Store.put_heap, hexact.update_iff, Store.holds_of_eq hb, Buffer.held_ref_iff]
    simp [KeepsBlock, hb]
  | copied hcopy => cases hcopy

/-- Ownership stays exact exactly under the condition. -/
theorem BufferStep.ownershipSafe_iff {call : BufferCall Name} (h : BufferStep s call s')
    (hsafe : s.OwnershipSafe) : s'.OwnershipSafe ↔ KeepsBlock s call := by
  rw [Store.ownershipSafe_iff] at hsafe ⊢
  obtain ⟨hexact, hreleases⟩ := hsafe
  by_cases href : ∃ name str size, call = .ref name str size
  · obtain ⟨name, str, size, rfl⟩ := href
    exact h.ref_ownershipSafe_iff hexact hreleases
  · push Not at href
    obtain ⟨safe, hchange, hiff, hreleases'⟩ := h.ownershipChange href
    rw [and_iff_left (hreleases' hexact.toExclusive hreleases), hchange.exact_iff hexact, hiff]

/-- Every live block has exactly one owner, and only live blocks are released, along every
sequence of calls that meet the condition; and a call in a state that is safe keeps it safe
exactly if it meets the condition. -/
theorem buffers_ownershipSafe (memory : Ptr → ℕ → UInt8) :
    (∀ (calls : List (BufferCall Name)) (s : Store Name),
      Run (Guarded BufferStep KeepsBlock) (.empty memory) calls s → s.OwnershipSafe) ∧
    ∀ (s s' : Store Name) (call : BufferCall Name), s.OwnershipSafe → BufferStep s call s' →
      (s'.OwnershipSafe ↔ KeepsBlock s call) := by
  refine ⟨?_, fun s s' call hsafe hstep => hstep.ownershipSafe_iff hsafe⟩
  intro calls s hrun
  refine hrun.invariant (I := fun _ s => s.OwnershipSafe) (Store.empty_ownershipSafe memory) ?_
  rintro calls s call s' hsafe ⟨hstep, hkeeps⟩
  exact (hstep.ownershipSafe_iff hsafe).mpr hkeeps

/-- A buffer is filled, moved to an object that refers to foreign memory, and released. -/
theorem buffers_ownershipSafe_move :
    ∃ (calls : List (BufferCall ℕ)) (s : Store ℕ),
      Run (Guarded BufferStep KeepsBlock) (.empty fun _ _ => 0) calls s ∧
        s.heap.trace = [.wrote (.block 1) 0 3 4, .wrote (.block 1) 3 1 4,
          .released (.block 1) true] ∧
        s.OwnershipSafe ∧
        ((s.put s.heap 2 ⟨.null, 0, oakBufferOwned, 0⟩).OwnershipSafe ↔
          KeepsBlock s (.init 2 0 0)) := by
  have hexec : (exec (guardedNext callNext KeepsBlock) (.empty fun _ _ => 0)
      [.init 0 0 0, .appendStr 0 (fun _ => 97) 3 1, .init2 1 (.foreign 5) 3,
        .ref 1 (.foreign 6) 4, .move 1 0, .free (1 : ℕ)]).map (fun result =>
          result.2.heap.trace) = some [.wrote (.block 1) 0 3 4, .wrote (.block 1) 3 1 4,
            .released (.block 1) true] := by
    decide +kernel
  obtain ⟨calls, s, hrun, htrace⟩ := exists_guarded_run_of_exec hexec
  have hsafe := (buffers_ownershipSafe _).1 calls s hrun
  exact ⟨calls, s, hrun, htrace, hsafe,
    (buffers_ownershipSafe fun _ _ => 0).2 s _ (.init 2 0 0) hsafe (bufferStep_iff.mpr rfl)⟩

/-- An owned buffer that was made to refer to foreign memory releases that memory. -/
theorem buffers_release_foreign :
    ¬ ∀ (calls : List (BufferCall ℕ)) (s : Store ℕ),
      Run BufferStep (.empty fun _ _ => 0) calls s → s.OwnershipSafe := by
  intro hall
  have hexec : (exec callNext (.empty fun _ _ => 0)
      [.init 0 100 1, .ref 0 (.foreign 7) 3, .free (0 : ℕ)]).map (fun result =>
        result.2.heap.trace) = some [.released (.foreign 7) false] := by
    decide +kernel
  obtain ⟨calls, s, hrun, htrace⟩ := exists_run_of_exec hexec
  have hreleases := (hall calls s hrun).2.2
  rw [Store.Releases, show s.heap.trace = _ from htrace] at hreleases
  exact absurd (hreleases _ List.mem_cons_self) Bool.false_ne_true

end Demos.Oak
