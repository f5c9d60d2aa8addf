import Demos.Oak.Loader.Moves

/-!
# Libraries stay open as long as they are used

The dynamic loader counts the threads and the handles that hold a library, however the calls of the
factories and destructors interleave: a factory that fails gives its library back, and a library is
unloaded when the last handle is destroyed. So the code of a module runs only while its library is
loaded, only behind the checks of the factory of its type, and between an `init` that succeeds and
the one `close` that belongs to it.
-/

namespace Demos.Oak

open Demos.Lib

variable {s s' : Loader} {label : LoaderEvent} {labels : List LoaderEvent} {t : ℕ} {slot : Slot}
  {program : Library} {pc pc' : LoadPc} {dl : DlHandle}

/-- The library that a thread holds open. -/
def LoadPc.library : LoadPc → Option DlHandle
  | .idle | .opening _ => none
  | .opened call | .checked call _ | .failed call _ | .made call _ _ => some call.dlHandle
  | .released object _ => object.map CppHandle.dlHandle
  | .closing object _ | .closed object _ => some object.dlHandle

/-- What a successful `init` sets up: a context of a module of a library. -/
structure ModuleContext where
  dlHandle : DlHandle
  name : Bytes
  context : ℕ
deriving DecidableEq

/-- The context of a handle. -/
def CppHandle.moduleContext (object : CppHandle) : ModuleContext :=
  ⟨object.dlHandle, object.name, object.context⟩

/-- The context that a thread is to store or to close. -/
def LoadPc.moduleContext : LoadPc → Option ModuleContext
  | .made call _ context => some ⟨call.dlHandle, call.module.name, context⟩
  | .released object _ => object.map CppHandle.moduleContext
  | .closing object _ => some object.moduleContext
  | _ => none

/-- The code of a module: the symbol of a library, used as a module of a type. -/
structure ModuleCode where
  type : ModuleType
  dlHandle : DlHandle
  name : Bytes
  handle : OakModule

/-- The code behind a handle. -/
def CppHandle.code (object : CppHandle) : ModuleCode :=
  ⟨object.type, object.dlHandle, object.name, object.handle⟩

/-- The code that a thread is to call or to store. -/
def LoadPc.code : LoadPc → Option ModuleCode
  | .checked call handle | .made call handle _ =>
    some ⟨call.type, call.dlHandle, call.module.name, handle⟩
  | .released object _ => object.map CppHandle.code
  | .closing object _ => some object.code
  | _ => none

/-- The library exports the code under its name. What the program does not export a handle for the
program may have found in any library that was open. -/
def ModuleCode.Exported (s : Loader) (code : ModuleCode) : Prop :=
  (code.dlHandle = none → s.image none code.name ≠ none) →
    s.image code.dlHandle code.name = some code.handle

/-- What `dlsym` has found is exported. -/
theorem ModuleCode.exported_of_dlsym {code : ModuleCode}
    (h : s.dlsym code.dlHandle code.name = some code.handle) : code.Exported s := by
  intro hown
  cases hdl : code.dlHandle with
  | some path => simpa only [Loader.dlsym, hdl] using h
  | none =>
    obtain ⟨handle, hhandle⟩ := Option.ne_none_iff_exists'.mp (hown hdl)
    simpa only [Loader.dlsym, hdl, List.findSome?_cons, hhandle] using h

/-- What `dlsym` has not found the library does not export. -/
theorem Loader.image_of_dlsym {name : Bytes} (h : s.dlsym dl name = none) :
    s.image dl name = none := by
  cases dl with
  | some path => exact h
  | none => exact List.findSome?_eq_none_iff.mp h none List.mem_cons_self

/-- Code is exported as long as its library stays. -/
theorem ModuleCode.Exported.of_image {code : ModuleCode} (h : code.Exported s)
    (himage : s'.image code.dlHandle = s.image code.dlHandle) : code.Exported s' := by
  intro hown
  rw [himage]
  refine h fun hdl => ?_
  rw [hdl] at himage
  rw [← himage]
  exact hown hdl

/-- A thread that has code at hand holds its library. -/
theorem LoadPc.library_of_code {code : ModuleCode} (h : pc.code = some code) :
    pc.library = some code.dlHandle := by
  cases pc with
  | released object target =>
    obtain ⟨object, rfl, rfl⟩ := Option.map_eq_some_iff.mp h
    rfl
  | _ => cases h <;> rfl

/-- A thread that goes on keeps its library. -/
theorem LoadPc.Goes.library (h : pc.Goes s label pc') : pc'.library = pc.library := by
  cases h <;> rfl

/-- A thread that goes on has the code that it had or that it has just found. -/
theorem LoadPc.Goes.code (h : pc.Goes s label pc') {code : ModuleCode}
    (hcode : pc'.code = some code) :
    pc.code = some code ∨ s.dlsym code.dlHandle code.name = some code.handle := by
  cases h with
  | checked hsym =>
    cases hcode
    exact .inr hsym
  | made => exact .inl hcode
  | _ => cases hcode

/-- The code that a step runs. -/
def LoaderEvent.code : LoaderEvent → Option ModuleCode
  | .init call handle _ _ _ => some ⟨call.type, call.dlHandle, call.module.name, handle⟩
  | .called object callback =>
    some ⟨callback.type, object.dlHandle, object.name, object.handle⟩
  | .close object => some object.code
  | _ => none

/-- The context that a step sets up. -/
def LoaderEvent.created : LoaderEvent → Option ModuleContext
  | .init call _ _ ret context =>
    if ret = 0 then some ⟨call.dlHandle, call.module.name, context⟩ else none
  | _ => none

/-- The context that a step closes. -/
def LoaderEvent.ended : LoaderEvent → Option ModuleContext
  | .close object => some object.moduleContext
  | _ => none

namespace Loader

/-- The libraries that are held open. -/
def libraries : Holding DlHandle where
  process := some none
  ofPc := LoadPc.library
  ofHandle := CppHandle.dlHandle
  idle := rfl
  made _ _ _ := rfl
  released _ _ := rfl
  closing _ _ := rfl

/-- The contexts that are not closed yet. -/
def contexts : Holding ModuleContext where
  process := none
  ofPc := LoadPc.moduleContext
  ofHandle := CppHandle.moduleContext
  idle := rfl
  made _ _ _ := rfl
  released _ _ := rfl
  closing _ _ := rfl

/-- The code that is at hand. -/
def codes : Holding ModuleCode where
  process := none
  ofPc := LoadPc.code
  ofHandle := CppHandle.code
  idle := rfl
  made _ _ _ := rfl
  released _ _ := rfl
  closing _ _ := rfl

section Invariants

variable {keeper : Keeper} {code : ModuleCode}

/-- `reset` leaves the libraries alone. -/
theorem reset_libraries (s : Loader) (t : ℕ) (slot : Slot) (object : Option CppHandle)
    (caller : Caller) :
    (s.reset t slot object caller).2.opens = s.opens ∧
      (s.reset t slot object caller).2.image = s.image := by
  obtain ⟨pc, hreset, -⟩ := reset_eq s t slot object caller
  rw [hreset]
  exact ⟨rfl, rfl⟩

/-- A thread that closes its library gives it back. -/
theorem counted_dlclose (h : Counted (view libraries s) s.opens)
    (hpc : (s.threads t).library = some dl) :
    Counted (Function.update (view libraries s) (.thread t) none) (s.dlclose dl).opens :=
  h.release hpc

/-- Every step keeps the counts of the libraries. -/
theorem counted_step (h : Counted (view libraries s) s.opens) (hstep : Step s label s') :
    Counted (view libraries s') s'.opens := by
  cases hstep.move with
  | fault | refuse | called | skipped => exact h
  | goes hgoes =>
    rw [view_setThread_of_eq libraries hgoes.library]
    exact h
  | @opened t call image scope hpc =>
    have hnone : view libraries s (.thread t) = none := by
      simp [view, libraries, hpc, LoadPc.library]
    rw [view_setThread]
    exact h.acquire hnone call.dlHandle
  | failed _ hpc =>
    rw [view_setThread]
    exact counted_dlclose h (by simp [hpc, LoadPc.library])
  | reset hpc =>
    rw [view_reset libraries hpc, (reset_libraries ..).1]
    exact h.comp_equiv _
  | released target hpc =>
    rw [view_release libraries hpc]
    exact h.comp_equiv _
  | closed _ hpc =>
    rw [leave_eq, view_setThread]
    exact counted_dlclose h (by simp [hpc, LoadPc.library])

/-- At the start the process holds itself. -/
theorem counted_start (program : Library) :
    Counted (view libraries (start program)) (start program).opens := by
  intro dl
  by_cases hdl : dl = none
  · subst hdl
    have hone : holders (view libraries (start program)) none = {Keeper.process} := by
      ext keeper
      cases keeper <;> simp [holders, view, libraries, start, LoadPc.library]
    rw [hone, Set.encard_singleton]
    rfl
  · have hnone : holders (view libraries (start program)) dl = ∅ := by
      ext keeper
      cases keeper <;> simp [holders, view, libraries, start, LoadPc.library, Ne.symm hdl]
    rw [hnone, Set.encard_empty]
    simp [start, hdl]

/-- The counts of the libraries hold along every run. -/
theorem counted_run (h : Run Step (start program) labels s) :
    Counted (view libraries s) s.opens :=
  h.invariant (I := fun _ s => Counted (view libraries s) s.opens) (counted_start program)
    fun _ _ _ _ => counted_step

/-- Who has code at hand holds its library. -/
theorem library_of_code (h : view codes s keeper = some code) :
    view libraries s keeper = some code.dlHandle := by
  cases keeper with
  | process => simp [view, codes] at h
  | slot slot =>
    obtain ⟨object, hslot, rfl⟩ := Option.map_eq_some_iff.mp h
    simp [view, libraries, hslot, codes, CppHandle.code]
  | thread t => exact LoadPc.library_of_code h

/-- A library that is open stays as it is. -/
theorem image_step (hstep : Step s label s') (hopen : 0 < s.opens dl) :
    s'.image dl = s.image dl := by
  cases hstep.move with
  | opened image scope hpc himage => exact himage dl hopen
  | reset => rw [(reset_libraries ..).2]
  | closed =>
    rw [leave_eq]
    rfl
  | _ => rfl

/-- What is at hand when only a thread has changed. -/
theorem code_of_update {new : Option ModuleCode}
    (h : Function.update (view codes s) (.thread t) new keeper = some code) :
    new = some code ∨ ∃ keeper, view codes s keeper = some code := by
  by_cases hkeeper : keeper = .thread t
  · subst hkeeper
    rw [Function.update_self] at h
    exact .inl h
  · rw [Function.update_of_ne hkeeper] at h
    exact .inr ⟨keeper, h⟩

/-- Code that is at hand after a step was at hand before, or it has just been found. -/
theorem code_step (hstep : Step s label s') (h : view codes s' keeper = some code) :
    (∃ keeper, view codes s keeper = some code) ∨
      s.dlsym code.dlHandle code.name = some code.handle ∧ s'.image = s.image := by
  cases hstep.move with
  | @goes t _ pc hgoes =>
    rw [view_setThread] at h
    obtain hpc | hold := code_of_update h
    · exact (hgoes.code hpc).imp (⟨.thread t, ·⟩) (⟨·, rfl⟩)
    · exact .inl hold
  | opened | failed =>
    rw [view_setThread] at h
    exact .inl ((code_of_update h).resolve_left nofun)
  | closed =>
    rw [view_leave] at h
    exact .inl ((code_of_update h).resolve_left nofun)
  | reset hpc =>
    rw [view_reset codes hpc] at h
    exact .inl ⟨_, h⟩
  | released _ hpc =>
    rw [view_release codes hpc] at h
    exact .inl ⟨_, h⟩
  | _ => exact .inl ⟨keeper, h⟩

/-- The code at hand is what its library exports. -/
def Exported (s : Loader) : Prop :=
  ∀ keeper code, view codes s keeper = some code → code.Exported s

/-- Every step keeps code and libraries together. -/
theorem exported_step (hcounted : Counted (view libraries s) s.opens) (h : s.Exported)
    (hstep : Step s label s') : s'.Exported := by
  intro keeper code hcode
  obtain ⟨keeper', hold⟩ | ⟨hsym, himage⟩ := code_step hstep hcode
  · have hopen : 0 < s.opens code.dlHandle := hcounted.pos (library_of_code hold)
    exact (h keeper' code hold).of_image (image_step hstep hopen)
  · exact (ModuleCode.exported_of_dlsym hsym).of_image (congrFun himage _)

theorem exported_start (program : Library) : (start program).Exported := by
  intro keeper code hcode
  cases keeper <;> simp [view, codes, start, LoadPc.code] at hcode

/-- Code and libraries stay together along every run. -/
theorem exported_run (h : Run Step (start program) labels s) : s.Exported := by
  have hboth : Counted (view libraries s) s.opens ∧ s.Exported :=
    h.invariant (I := fun _ s => Counted (view libraries s) s.opens ∧ s.Exported)
      ⟨counted_start program, exported_start program⟩
      fun _ _ _ _ h hstep => ⟨counted_step h.1 hstep, exported_step h.1 h.2 hstep⟩
  exact hboth.2

end Invariants

end Loader

end Demos.Oak
