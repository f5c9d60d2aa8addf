import Demos.Lib.Locks
import Demos.Oak.Handles.Model

/-!
# Steps on the shared handles

Everything a step of the main thread and of a parser thread can do, once for all of its branches.
-/

namespace Demos.Oak

open Demos.Lib

namespace Shared

variable {dir : Bytes} {n i : ℕ} {s s' : Shared} {event : HandleEvent} {e : IncomingEvent}
  {load : LoadOutcome Unit}

/-- The job that an event asks for. -/
inductive Asks (dir : Bytes) (e : IncomingEvent) : Job → Prop
  | install {module : ModuleConfig} (hsubtype : e.subtype = .add ∨ e.subtype = .update)
      (hmodule : eventToParserModuleConfig dir e = .ok module) : Asks dir e (.install module)
  | remove {module : ModuleConfig} (hsubtype : e.subtype = .remove)
      (hmodule : eventToParserModuleConfig dir e = .ok module) : Asks dir e (.remove module)
  | clear (hsubtype : e.subtype = .clear) : Asks dir e .clear

/-- Nothing is asked for. -/
def Inert : Option IncomingEvent → Prop
  | none => True
  | some e => e.type = .parser → ∃ subtype, e.subtype = .unknown subtype

/-- The moves of the main thread. -/
inductive MainMove (dir : Bytes) (n : ℕ) (s : Shared) : HandleEvent → Shared → Prop
  | ignored {received : Option IncomingEvent} (hmain : s.main = .idle) (hinert : Inert received) :
      MainMove dir n s (.handled received) s
  | receives {e : IncomingEvent} {job : Job} (hmain : s.main = .idle) (htype : e.type = .parser)
      (hasks : Asks dir e job) : MainMove dir n s .silent { s with main := .next e job 0 }
  | locks {e : IncomingEvent} {job : Job} {i : ℕ} (hmain : s.main = .next e job i) (hlt : i < n)
      (hfree : s.locks i = none) :
      MainMove dir n s .silent { s.setLock i (some .main) with main := .inside e job i }
  | finishes {e : IncomingEvent} {job : Job} {i : ℕ} (hmain : s.main = .next e job i)
      (hge : n ≤ i) : MainMove dir n s .silent { s with main := .commit e job }
  | fails {e : IncomingEvent} {module : ModuleConfig} {i : ℕ} {tag : ProtocolTag}
      {load : LoadOutcome ℕ} (hmain : s.main = .inside e (.install module) i)
      (htag : protocolTag module.config = .ok tag)
      (hfactory : parserHandleFactory module load = .ok none) :
      MainMove dir n s .silent { s with main := .alarming e module tag i }
  | waits {e : IncomingEvent} {module : ModuleConfig} {tag : ProtocolTag} {i : ℕ}
      (hmain : s.main = .alarming e module tag i) (hreports : inReport (s.parsers i) = true) :
      MainMove dir n s .silent s
  | alarms {e : IncomingEvent} {module : ModuleConfig} {tag : ProtocolTag} {i : ℕ}
      (hmain : s.main = .alarming e module tag i) :
      MainMove dir n s .silent { s.setContext i ((s.contexts i).openFailed module tag) with
        main := .leave e (.install module) i false }
  | opens {e : IncomingEvent} {module : ModuleConfig} {i : ℕ} {tag : ProtocolTag}
      {load : LoadOutcome ℕ} (hmain : s.main = .inside e (.install module) i)
      (htag : protocolTag module.config = .ok tag)
      (hfactory : parserHandleFactory module load = .ok (some s.objects.next)) :
      MainMove dir n s (.opened s.objects.next) { s with
        objects := s.objects.create (), main := .opened e module tag s.objects.next i }
  | tags {e : IncomingEvent} {module : ModuleConfig} {tag : ProtocolTag} {object i : ℕ}
      (hmain : s.main = .opened e module tag object i) :
      MainMove dir n s .silent
        { s.setContext i
            { s.contexts i with tags := (s.contexts i).tags.insert module.id tag } with
          main := .tagged e module tag object i }
  | installs {e : IncomingEvent} {module : ModuleConfig} {tag : ProtocolTag} {object i : ℕ}
      {event : HandleEvent} {s' : Shared} (hmain : s.main = .tagged e module tag object i)
      (hclose : (event, s') = { s.setContext i { s.contexts i with
          handles := (s.contexts i).handles.insert module.id object } with
        main := .leave e (.install module) i true }.close (s.contexts i).handles[module.id]?) :
      MainMove dir n s event s'
  | removes {e : IncomingEvent} {module : ModuleConfig} {i : ℕ} {event : HandleEvent} {s' : Shared}
      (hmain : s.main = .inside e (.remove module) i)
      (hclose : (event, s') = { s.setContext i { s.contexts i with
          handles := (s.contexts i).handles.erase module.id } with
        main := .erased e (.remove module) i }.close (s.contexts i).handles[module.id]?) :
      MainMove dir n s event s'
  | clears {e : IncomingEvent} {i object : ℕ} {id : UInt64} (hmain : s.main = .inside e .clear i)
      (hobject : (s.contexts i).handles[id]? = some object) :
      MainMove dir n s (.closed object)
        { s.setContext i { s.contexts i with handles := (s.contexts i).handles.erase id } with
          objects := s.objects.destroy object }
  | cleared {e : IncomingEvent} {i : ℕ} (hmain : s.main = .inside e .clear i)
      (hempty : (s.contexts i).handles.isEmpty = true) :
      MainMove dir n s .silent { s with main := .erased e .clear i }
  | untags {e : IncomingEvent} {module : ModuleConfig} {i : ℕ}
      (hmain : s.main = .erased e (.remove module) i) :
      MainMove dir n s .silent { s.setContext i { s.contexts i with
          tags := (s.contexts i).tags.erase module.id } with
        main := .leave e (.remove module) i true }
  | untagsAll {e : IncomingEvent} {job : Job} {i : ℕ} (hmain : s.main = .erased e job i)
      (hjob : ∀ module, job ≠ .remove module) :
      MainMove dir n s .silent { s.setContext i { s.contexts i with tags := ∅ } with
        main := .leave e job i true }
  | unlocks {e : IncomingEvent} {job : Job} {i : ℕ} (hmain : s.main = .leave e job i true) :
      MainMove dir n s .silent { s.setLock i none with main := .next e job (i + 1) }
  | givesUp {e : IncomingEvent} {job : Job} {i : ℕ} (hmain : s.main = .leave e job i false) :
      MainMove dir n s (.handled (some e)) { s.setLock i none with main := .idle }
  | commits {e : IncomingEvent} {job : Job} (hmain : s.main = .commit e job) :
      MainMove dir n s (.handled (some e)) { s with
        config := commitJob s.config job, written := commitJob s.config job, main := .idle }

/-- The places of a parser thread before the lock. -/
def Outside : UsePc → Prop
  | .loop | .reporting _ | .polling | .popped _ => True
  | _ => False

/-- The moves of a parser thread. -/
inductive UseMove (s : Shared) (p : ℕ) : HandleEvent → Shared → Prop
  | goes {pc : UsePc} (hfrom : Outside (s.parsers p)) (hto : Outside pc) :
      UseMove s p .silent (s.setParser p pc)
  | reports {id : UInt64} {ids : List UInt64} (hpc : s.parsers p = .reporting (id :: ids)) :
      UseMove s p .silent
        ((s.setContext p ((s.contexts p).reportTag id)).setParser p (.reporting ids))
  | locks {record : Metadata} (hpc : s.parsers p = .popped record) (hfree : s.locks p = none) :
      UseMove s p .silent ((s.setLock p (some (.parser p))).setParser p (.inside record))
  | misses {record : Metadata} (hpc : s.parsers p = .inside record) :
      UseMove s p .silent (s.setParser p .leave)
  | finds {record : Metadata} {object : ℕ} (hpc : s.parsers p = .inside record)
      (hobject : (s.contexts p).handles[record.protocolType]? = some object) :
      UseMove s p .silent (s.setParser p (.found record object))
  | parses {record : Metadata} {object : ℕ} {res : ℤ} (hpc : s.parsers p = .found record object) :
      UseMove s p (.parsed p object) (s.setParser p (.parsed record res))
  | accounts {record : Metadata} {res : ℤ} (hpc : s.parsers p = .parsed record res) :
      UseMove s p .silent
        ((s.setContext p ((s.contexts p).account record res)).setParser p .leave)
  | unlocks (hpc : s.parsers p = .leave) :
      UseMove s p .silent ((s.setLock p none).setParser p .loop)

/-- The loader answers with the object that is allocated. -/
theorem cppParserHandleFactory_allocate {object : ℕ} {x : ℕ}
    (h : cppParserHandleFactory (load.allocate object) = some x) : x = object := by
  cases load with
  | dlopenFailed | dlsymFailed => cases h
  | loaded flags version initResult u =>
    simp only [LoadOutcome.allocate, cppParserHandleFactory] at h
    split_ifs at h
    exact (Option.some.inj h).symm

/-- The factory gives out the object that it allocates. -/
theorem parserHandleFactory_allocate {module : ModuleConfig} {object x : ℕ}
    (h : parserHandleFactory module (load.allocate object) = .ok (some x)) : x = object := by
  unfold parserHandleFactory at h
  cases hassert : assert (module.name ≠ []) "Invalid module name" with
  | error fault =>
    rw [hassert] at h
    cases h
  | ok _ =>
    rw [hassert] at h
    have hopen : openParser module (load.allocate object) = some x := Except.ok.inj h
    unfold openParser at hopen
    split_ifs at hopen
    exact cppParserHandleFactory_allocate hopen

/-- A parser event that arrives. -/
theorem dispatch_cases (hmain : s.main = .idle) (htype : e.type = .parser)
    (h : s.dispatch dir e = (event, s')) : (event, s') = s.stopped ∨ MainMove dir n s event s' := by
  cases hsubtype : e.subtype with
  | unknown subtype =>
    simp only [dispatch, hsubtype] at h
    cases h
    exact .inr (.ignored hmain fun _ => ⟨subtype, hsubtype⟩)
  | clear =>
    simp only [dispatch, hsubtype] at h
    cases h
    exact .inr (.receives hmain htype (.clear hsubtype))
  | remove =>
    simp only [dispatch, hsubtype] at h
    split at h
    next => exact .inl h.symm
    next hmodule =>
      cases h
      exact .inr (.receives hmain htype (.remove hsubtype hmodule))
  | add =>
    simp only [dispatch, hsubtype] at h
    split at h
    next => exact .inl h.symm
    next hmodule =>
      cases h
      exact .inr (.receives hmain htype (.install (.inl hsubtype) hmodule))
  | update =>
    simp only [dispatch, hsubtype] at h
    split at h
    next => exact .inl h.symm
    next hmodule =>
      cases h
      exact .inr (.receives hmain htype (.install (.inr hsubtype) hmodule))

/-- A module that is opened. -/
theorem openModule_cases {module : ModuleConfig} (hmain : s.main = .inside e (.install module) i)
    (h : s.openModule e module i load = (event, s')) :
    (event, s') = s.stopped ∨ MainMove dir n s event s' := by
  unfold openModule at h
  split at h
  next => exact .inl h.symm
  next tag htag =>
    split at h
    next => exact .inl h.symm
    next hfactory =>
      cases h
      exact .inr (.fails hmain htag hfactory)
    next object hfactory =>
      cases h
      obtain rfl := parserHandleFactory_allocate hfactory
      exact .inr (.opens hmain htag hfactory)

/-- A statement under the lock. -/
theorem underLock_cases {job : Job} {choice : UpdateChoice} (hmain : s.main = .inside e job i)
    (h : s.underLock e job i choice = some (event, s')) :
    (event, s') = s.stopped ∨ MainMove dir n s event s' := by
  cases job with
  | install module => exact openModule_cases hmain (Option.some.inj h)
  | remove module => exact .inr (.removes hmain (Option.some.inj h).symm)
  | clear =>
    simp only [underLock] at h
    split at h
    next object hobject =>
      cases h
      exact .inr (.clears hmain hobject)
    next =>
      split at h
      next hempty =>
        cases h
        exact .inr (.cleared hmain hempty)
      next => cases h

/-- A change of the tags. -/
theorem setTags_cases {tags : Std.ExtTreeMap UInt64 ProtocolTag} {main : UpdatePc}
    (h : some (s.setTags i tags main) = some (event, s')) (hmove : MainMove dir n s .silent {
      s.setContext i { s.contexts i with tags := tags } with main := main }) :
    (event, s') = s.stopped ∨ MainMove dir n s event s' := by
  unfold setTags at h
  split at h
  next => exact .inl (Option.some.inj h).symm
  next =>
    cases h
    exact .inr hmove

/-- A step of the main thread ends the process or is one of its moves. -/
theorem mainNext_cases {choice : UpdateChoice} (h : s.mainNext dir n choice = some (event, s')) :
    (event, s') = s.stopped ∨ MainMove dir n s event s' := by
  cases hmain : s.main with
  | idle =>
    simp only [mainNext, hmain] at h
    split at h
    next =>
      cases h
      exact .inr (.ignored hmain trivial)
    next e hevent =>
      split at h
      next htype => exact dispatch_cases hmain htype (Option.some.inj h)
      next htype =>
        cases h
        exact .inr (.ignored hmain fun hparser => absurd hparser htype)
  | next e job i =>
    simp only [mainNext, hmain] at h
    split at h
    next hlt =>
      split at h
      next hfree =>
        cases h
        exact .inr (.locks hmain hlt hfree)
      next => cases h
    next hge =>
      cases h
      exact .inr (.finishes hmain (not_lt.mp hge))
  | inside e job i =>
    simp only [mainNext, hmain] at h
    exact underLock_cases hmain h
  | alarming e module tag i =>
    simp only [mainNext, hmain] at h
    split at h
    next hwaits =>
      cases h
      exact .inr (.waits hmain hwaits.2.2)
    next =>
      cases h
      exact .inr (.alarms hmain)
  | opened e module tag object i =>
    simp only [mainNext, hmain] at h
    exact setTags_cases h (.tags hmain)
  | tagged e module tag object i =>
    simp only [mainNext, hmain] at h
    exact .inr (.installs hmain (Option.some.inj h).symm)
  | erased e job i =>
    cases job with
    | remove module =>
      simp only [mainNext, hmain] at h
      exact setTags_cases h (.untags hmain)
    | _ =>
      simp only [mainNext, hmain] at h
      exact setTags_cases h (.untagsAll hmain (by simp))
  | leave e job i success =>
    simp only [mainNext, hmain] at h
    cases success with
    | true =>
      cases h
      exact .inr (.unlocks hmain)
    | false =>
      cases h
      exact .inr (.givesUp hmain)
  | commit e job =>
    simp only [mainNext, hmain] at h
    cases h
    exact .inr (.commits hmain)

/-- A step of a parser thread is one of its moves. -/
theorem parserNext_cases {p : ℕ} {choice : UseChoice}
    (h : s.parserNext p choice = some (event, s')) : UseMove s p event s' := by
  cases hpc : s.parsers p with
  | loop =>
    simp only [parserNext, hpc] at h
    split at h
    next =>
      split at h
      next =>
        cases h
        exact .goes (by rw [hpc]; trivial) trivial
      next => cases h
    next =>
      cases h
      exact .goes (by rw [hpc]; trivial) trivial
  | reporting ids =>
    cases ids with
    | nil =>
      simp only [parserNext, hpc] at h
      cases h
      exact .goes (by rw [hpc]; trivial) trivial
    | cons id ids =>
      simp only [parserNext, hpc] at h
      cases h
      exact .reports hpc
  | polling =>
    simp only [parserNext, hpc] at h
    split at h
    next =>
      cases h
      exact .goes (by rw [hpc]; trivial) trivial
    next =>
      cases h
      exact .goes (by rw [hpc]; trivial) trivial
  | popped record =>
    simp only [parserNext, hpc] at h
    split at h
    next hfree =>
      cases h
      exact .locks hpc hfree
    next => cases h
  | inside record =>
    simp only [parserNext, hpc] at h
    split at h
    next =>
      cases h
      exact .misses hpc
    next object hobject =>
      cases h
      exact .finds hpc hobject
  | found record object =>
    simp only [parserNext, hpc] at h
    cases h
    exact .parses hpc
  | parsed record res =>
    simp only [parserNext, hpc] at h
    cases h
    exact .accounts hpc
  | leave =>
    simp only [parserNext, hpc] at h
    cases h
    exact .unlocks hpc

/-- The moves of the process. -/
inductive Move (dir : Bytes) (n : ℕ) (s : Shared) : HandleEvent → Shared → Prop
  | fault : Move dir n s .faulted { s with fault := true }
  | main {event : HandleEvent} {s' : Shared} (h : MainMove dir n s event s') :
      Move dir n s event s'
  | parser {event : HandleEvent} {s' : Shared} {p : ℕ} (hlt : p < n) (h : UseMove s p event s') :
      Move dir n s event s'

/-- A step is a move of a process that goes on. -/
theorem Step.move (h : Step dir n s event s') : s.fault = false ∧ Move dir n s event s' := by
  obtain ⟨action, h⟩ := h
  unfold next at h
  split at h
  next => cases h
  next hfault =>
    refine ⟨by simpa using hfault, ?_⟩
    cases action with
    | main choice =>
      obtain hstopped | hmove := mainNext_cases h
      · cases hstopped
        exact .fault
      · exact .main hmove
    | parser p choice =>
      dsimp only at h
      split at h
      next hlt => exact .parser hlt (parserNext_cases h)
      next => cases h

end Shared

end Demos.Oak
