import Demos.Lib.Holders
import Demos.Oak.Loader.Model

/-!
# What the loader's steps do

The steps of the loader by their effect. A library is held by the threads that are in a factory or a
destructor and by the handles in the slots; what `unique_ptr` does with handles only exchanges what
its thread and a slot hold.
-/

namespace Demos.Oak

open Demos.Lib

/-- The factory goes on to `dlopen`: the module has a name, and its path is empty or one of a
shared object. -/
def FactoryCall.Identified (call : FactoryCall) : Prop :=
  call.module.name ≠ [] ∧ (call.module.path = [] ∨ contains call.module.path (ascii ".so"))

/-- The checks of a factory between `dlsym` and `init`. -/
structure OakModule.Fits (handle : OakModule) (type : ModuleType) : Prop where
  flags : handle.flags = type.value
  version : handle.version / 2 ^ 16 = oakVersionMajor

/-- The thread is about to call `reset` on a slot: in a factory that has made a handle, behind
`release`, or to destroy the handle in the slot. -/
inductive LoadPc.Stores : LoadPc → Slot → Option CppHandle →
    Caller → Prop
  | made (call : FactoryCall) (handle : OakModule) (context : ℕ) :
      Stores (.made call handle context) ⟨call.type, call.index⟩
        (some (cppHandle call handle context)) (some (call, handle))
  | released (object : Option CppHandle) (target : Slot) :
      Stores (.released object target) target object none
  | idle (slot : Slot) : Stores .idle slot none none

/-- A step shows nothing, or that the factory that waits for it returns zero. -/
def LoaderEvent.ReturnsTo (caller : Caller) (label : LoaderEvent) : Prop :=
  label = .silent ∨ ∃ call handle, (call, handle) ∈ caller ∧
    label = .returned call (.loaded handle.flags handle.version 0 ()) 0

/-- A step in which a thread only goes on. -/
inductive LoadPc.Goes (s : Loader) : LoadPc → LoaderEvent → LoadPc → Prop
  | enter {call : FactoryCall} : call.Identified → Goes s .idle .silent (.opening call)
  | openFailed {call : FactoryCall} : s.opens call.dlHandle = 0 →
      Goes s (.opening call) (.returned call .dlopenFailed (-1)) .idle
  | notFound {call : FactoryCall} : s.dlsym call.dlHandle call.module.name = none →
      Goes s (.opened call) .silent (.failed call .dlsymFailed)
  | unfit {call : FactoryCall} {handle : OakModule} :
      s.dlsym call.dlHandle call.module.name = some handle → ¬handle.Fits call.type →
      Goes s (.opened call) .silent (.failed call (.loaded handle.flags handle.version 0 ()))
  | checked {call : FactoryCall} {handle : OakModule} :
      s.dlsym call.dlHandle call.module.name = some handle → handle.Fits call.type →
      Goes s (.opened call) .silent (.checked call handle)
  | initFailed {call : FactoryCall} {handle : OakModule} {order : List (Bytes × Bytes)} {ret : ℤ}
      (context : ℕ) : order.Perm call.module.config.toList → ret ≠ 0 →
      Goes s (.checked call handle) (.init call handle (configDict order) ret context)
        (.failed call (.loaded handle.flags handle.version ret ()))
  | made {call : FactoryCall} {handle : OakModule} {order : List (Bytes × Bytes)} (context : ℕ) :
      order.Perm call.module.config.toList →
      Goes s (.checked call handle) (.init call handle (configDict order) 0 context)
        (.made call handle context)
  | close (object : CppHandle) (caller : Caller) :
      Goes s (.closing object caller) (.close object) (.closed object caller)

namespace Loader

/-- A step by what it does. -/
inductive Move (s : Loader) : LoaderEvent → Loader → Prop
  | fault : Move s .faulted { s with fault := true }
  | refuse {call : FactoryCall} : call.module.name ≠ [] → ¬call.Identified →
      Move s (.returned call .dlopenFailed (-1)) s
  | goes {t : ℕ} {label : LoaderEvent} {pc : LoadPc} : LoadPc.Goes s (s.threads t) label pc →
      Move s label (s.setThread t pc)
  | opened {t : ℕ} {call : FactoryCall} (image : DlHandle → Library) (scope : List DlHandle) :
      s.threads t = .opening call → (∀ dl, 0 < s.opens dl → image dl = s.image dl) →
      Move s .silent ({ s with
        image := image
        opens := Function.update s.opens call.dlHandle (s.opens call.dlHandle + 1)
        scope := scope }.setThread t (.opened call))
  | failed {t : ℕ} {call : FactoryCall} (met : LoadOutcome Unit) : s.threads t = .failed call met →
      Move s (.returned call met (-1)) ((s.dlclose call.dlHandle).setThread t .idle)
  | reset {t : ℕ} {slot : Slot} {object : Option CppHandle}
      {caller : Caller} : (s.threads t).Stores slot object caller →
      Move s (s.reset t slot object caller).1 (s.reset t slot object caller).2
  | released {t : ℕ} {slot : Slot} (target : ℕ) : s.threads t = .idle →
      Move s .silent ((s.setSlot slot none).setThread t
        (.released (s.slots slot) ⟨slot.type, target⟩))
  | closed {t : ℕ} {object : CppHandle} (caller : Caller) :
      s.threads t = .closed object caller →
      Move s ((s.dlclose object.dlHandle).leave t caller).1
        ((s.dlclose object.dlHandle).leave t caller).2
  | called {slot : Slot} {object : CppHandle} (callback : Callback) :
      s.slots slot = some object → slot.type = callback.type →
      Move s (.called object callback) s
  | skipped : Move s .silent s

variable {s s' : Loader} {label : LoaderEvent} {call : FactoryCall} {handle : OakModule}
  {object : CppHandle} {t : ℕ} {slot : Slot}

/-- A step whose result is one of these. -/
theorem Move.of_eq {result : LoaderEvent × Loader} (hmove : Move s result.1 result.2)
    (h : some result = some (label, s')) : Move s label s' := by
  rw [Option.some.inj h] at hmove
  exact hmove

/-- The first step of a factory. -/
theorem handleFactory_move (hidle : s.threads t = .idle) (call : FactoryCall) :
    Move s (s.handleFactory t call).1 (s.handleFactory t call).2 := by
  unfold handleFactory
  split
  next => exact .fault
  next hname =>
    split
    next hpath => exact .goes (hidle ▸ .enter ⟨hname, hpath⟩)
    next hpath => exact .refuse hname fun hcall => hpath hcall.2

/-- The steps of a thread that is in no factory and in no destructor. -/
theorem begin_move (hidle : s.threads t = .idle) {action : Action}
    (h : s.begin t action = some (label, s')) : Move s label s' := by
  cases action with
  | source | parser | sink | event => exact (handleFactory_move hidle _).of_eq h
  | advance answer => simp [begin] at h
  | destroy slot => exact (Move.reset (hidle ▸ .idle slot)).of_eq h
  | release type source target =>
    cases h
    exact @Move.released s t ⟨type, source⟩ target hidle
  | use callback index =>
    cases hslot : s.slots ⟨callback.type, index⟩ with
    | none => simp [begin, hslot] at h
    | some object =>
      simp only [begin, hslot] at h
      split at h <;> cases h
      · exact .called callback hslot rfl
      · exact .skipped

/-- `dlopen` reads no library that is open. -/
theorem dlopen_eq {dl : DlHandle} {file : Option Library} (h : s.dlopen dl file = some s') :
    ∃ image scope, (∀ dl, 0 < s.opens dl → image dl = s.image dl) ∧
      s' = { s with
        image := image
        opens := Function.update s.opens dl (s.opens dl + 1)
        scope := scope } := by
  unfold dlopen at h
  split at h
  next => exact ⟨s.image, s.scope, fun _ _ => rfl, (Option.some.inj h).symm⟩
  next hclosed =>
    obtain ⟨library, -, rfl⟩ := Option.map_eq_some_iff.mp h
    refine ⟨Function.update s.image dl library, s.scope ++ [dl], fun other hopen => ?_, rfl⟩
    have hne : other ≠ dl := by
      rintro rfl
      exact hclosed hopen
    exact Function.update_of_ne hne _ _

/-- `dlopen` fails only for a library that is not open. -/
theorem opens_of_dlopen {dl : DlHandle} {file : Option Library} (h : s.dlopen dl file = none) :
    s.opens dl = 0 := by
  unfold dlopen at h
  split at h
  next => cases h
  next hclosed => exact Nat.eq_zero_of_not_pos hclosed

/-- The step of a factory between `dlopen` and `init`. -/
theorem lookUp_move (hpc : s.threads t = .opened call) : Move s .silent (s.lookUp t call) := by
  unfold lookUp
  cases hsym : s.dlsym call.dlHandle call.module.name with
  | none => exact .goes (hpc ▸ .notFound hsym)
  | some handle =>
    dsimp only
    split
    next hflags => exact .goes (hpc ▸ .unfit hsym fun hfits => hflags hfits.flags)
    next hflags =>
      split
      next hversion => exact .goes (hpc ▸ .unfit hsym fun hfits => hversion hfits.version)
      next hversion =>
        exact .goes (hpc ▸ .checked hsym ⟨not_not.mp hflags, not_not.mp hversion⟩)

/-- The steps of a thread in a factory or in a destructor. -/
theorem advance_move {answer : Answer} (h : s.advance t answer = some (label, s')) :
    Move s label s' := by
  cases hpc : s.threads t with
  | idle => simp [advance, hpc] at h
  | opening call =>
    cases hopen : s.dlopen call.dlHandle answer.file with
    | none =>
      simp only [advance, hpc, hopen] at h
      cases h
      exact .goes (hpc ▸ .openFailed (opens_of_dlopen hopen))
    | some s₁ =>
      simp only [advance, hpc, hopen] at h
      cases h
      obtain ⟨image, scope, himage, rfl⟩ := dlopen_eq hopen
      exact .opened image scope hpc himage
  | opened call =>
    simp only [advance, hpc] at h
    cases h
    exact lookUp_move hpc
  | checked call handle =>
    simp only [advance, hpc, Option.ite_none_right_eq_some] at h
    obtain ⟨horder, h⟩ := h
    split at h <;> cases h
    next hret => exact .goes (hpc ▸ .initFailed answer.context horder hret)
    next hret =>
      rw [not_not.mp hret]
      exact .goes (hpc ▸ .made answer.context horder)
  | failed call met =>
    simp only [advance, hpc] at h
    cases h
    exact .failed met hpc
  | made call handle context =>
    simp only [advance, hpc] at h
    exact (Move.reset (hpc ▸ .made call handle context)).of_eq h
  | released object target =>
    simp only [advance, hpc] at h
    exact (Move.reset (hpc ▸ .released object target)).of_eq h
  | closing object caller =>
    simp only [advance, hpc] at h
    cases h
    exact .goes (hpc ▸ .close object caller)
  | closed object caller =>
    simp only [advance, hpc] at h
    exact (Move.closed caller hpc).of_eq h

/-- Every step is one of these. -/
theorem Step.move (h : Step s label s') : Move s label s' := by
  obtain ⟨⟨t, action⟩, h⟩ := h
  unfold next at h
  split at h
  next => cases h
  next =>
    dsimp only at h
    split at h
    next hidle => exact begin_move hidle h
    next => exact advance_move h
    next => cases h

/-- A destructor that returns leaves its thread idle. -/
theorem leave_eq (s : Loader) (t : ℕ) (caller : Caller) :
    (s.leave t caller).2 = s.setThread t .idle := by
  rcases caller with _ | ⟨call, handle⟩ <;> rfl

/-- A destructor that returns shows what its caller shows. -/
theorem leave_label (s : Loader) (t : ℕ) (caller : Caller) :
    LoaderEvent.ReturnsTo caller (s.leave t caller).1 := by
  rcases caller with _ | ⟨call, handle⟩
  · exact .inl rfl
  · exact .inr ⟨call, handle, rfl, rfl⟩

/-- `reset` stores its handle, and its thread is idle or goes on to destroy the one that was
there. -/
theorem reset_eq (s : Loader) (t : ℕ) (slot : Slot) (object : Option CppHandle) (caller : Caller) :
    ∃ pc, (s.reset t slot object caller).2 = (s.setSlot slot object).setThread t pc ∧
      (pc = .idle ∨ ∃ old, s.slots slot = some old ∧ pc = .closing old caller) := by
  unfold reset
  cases hslot : s.slots slot with
  | some old => exact ⟨_, rfl, .inr ⟨old, rfl, rfl⟩⟩
  | none => exact ⟨_, leave_eq .., .inl rfl⟩

/-- `reset` shows nothing, or what the caller shows. -/
theorem reset_label (s : Loader) (t : ℕ) (slot : Slot) (object : Option CppHandle)
    (caller : Caller) : LoaderEvent.ReturnsTo caller (s.reset t slot object caller).1 := by
  unfold reset
  cases s.slots slot with
  | some old => exact .inl rfl
  | none => exact leave_label ..

/-- Who may hold something: the process itself, the slots and the threads. -/
inductive Keeper where
  | process
  | slot (slot : Slot)
  | thread (t : ℕ)
deriving DecidableEq

/-- Something that threads and handles hold. -/
structure Holding (X : Type*) where
  process : Option X
  ofPc : LoadPc → Option X
  ofHandle : CppHandle → X
  idle : ofPc .idle = none
  made (call : FactoryCall) (handle : OakModule) (context : ℕ) :
    ofPc (.made call handle context) = some (ofHandle (cppHandle call handle context))
  released (object : Option CppHandle) (target : Slot) :
    ofPc (.released object target) = object.map ofHandle
  closing (object : CppHandle) (caller : Caller) :
    ofPc (.closing object caller) = some (ofHandle object)

section View

variable {X : Type*} (holding : Holding X)

/-- Who holds what. -/
def view (holding : Holding X) (s : Loader) : Keeper → Option X
  | .process => holding.process
  | .slot slot => (s.slots slot).map holding.ofHandle
  | .thread t => holding.ofPc (s.threads t)

/-- Only a thread has changed. -/
theorem view_setThread (s : Loader) (t : ℕ) (pc : LoadPc) :
    view holding (s.setThread t pc) =
      Function.update (view holding s) (.thread t) (holding.ofPc pc) := by
  funext keeper
  cases keeper with
  | process | slot => rfl
  | thread u =>
    by_cases hu : u = t
    · subst hu
      simp [view, setThread]
    · simp [view, setThread, hu]

/-- Only a slot has changed. -/
theorem view_setSlot (s : Loader) (slot : Slot) (object : Option CppHandle) :
    view holding (s.setSlot slot object) =
      Function.update (view holding s) (.slot slot) (object.map holding.ofHandle) := by
  funext keeper
  cases keeper with
  | process | thread => rfl
  | slot other =>
    by_cases hother : other = slot
    · subst hother
      simp [view, setSlot]
    · simp [view, setSlot, hother]

/-- A thread that goes on with what it holds changes nothing. -/
theorem view_setThread_of_eq {pc : LoadPc} (h : holding.ofPc pc = holding.ofPc (s.threads t)) :
    view holding (s.setThread t pc) = view holding s := by
  rw [view_setThread, h]
  exact Function.update_eq_self (Keeper.thread t) (view holding s)

/-- A destructor that returns leaves its thread without anything. -/
theorem view_leave (s : Loader) (t : ℕ) (caller : Caller) :
    view holding (s.leave t caller).2 =
      Function.update (view holding s) (.thread t) none := by
  rw [leave_eq, view_setThread, holding.idle]

/-- A thread that is about to call `reset` holds what it stores. -/
theorem Holding.ofPc_stores {pc : LoadPc} {object : Option CppHandle}
    {caller : Caller} (h : pc.Stores slot object caller) :
    holding.ofPc pc = object.map holding.ofHandle := by
  cases h with
  | made call handle context => exact holding.made call handle context
  | released => exact holding.released object slot
  | idle => exact holding.idle

/-- `unique_ptr::reset` exchanges what the thread and the slot hold. -/
theorem view_reset {object : Option CppHandle} {caller : Caller}
    (h : (s.threads t).Stores slot object caller) :
    view holding (s.reset t slot object caller).2 =
      view holding s ∘ Equiv.swap (.thread t) (.slot slot) := by
  have hthread := holding.ofPc_stores h
  rw [comp_swap_eq_update]
  unfold reset
  cases hslot : s.slots slot with
  | none => simp [view_leave, view_setSlot, hthread, view, hslot]
  | some old => simp [view_setThread, view_setSlot, hthread, view, hslot, holding.closing]

/-- `unique_ptr::release` exchanges what the thread and the slot hold. -/
theorem view_release (hidle : s.threads t = .idle) (target : Slot) :
    view holding ((s.setSlot slot none).setThread t (.released (s.slots slot) target)) =
      view holding s ∘ Equiv.swap (.thread t) (.slot slot) := by
  rw [comp_swap_eq_update, view_setThread, view_setSlot, holding.released]
  simp [view, hidle, holding.idle]

end View

end Loader

end Demos.Oak
