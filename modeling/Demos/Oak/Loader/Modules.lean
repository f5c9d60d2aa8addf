import Demos.Oak.Loader.Libraries

/-!
# Module code behind the factories

What the factories promise of the modules they open, over all runs of the loader: the code that is
called belongs to a library that is loaded and has passed the checks, an `init` that succeeds is
followed by one `close` of its context, and a factory returns what the sequential model of
`ParserHandleFactory` says for the answers it has met.
-/

namespace Demos.Oak

open Demos.Lib

variable {s s' : Loader} {label : LoaderEvent} {labels : List LoaderEvent} {t : ℕ} {slot : Slot}
  {program : Library} {call : FactoryCall} {handle : OakModule} {pc pc' : LoadPc}
  {object : Option CppHandle} {caller : Caller} {met : LoadOutcome Unit} {ret : ℤ}

/-- What the factories make of the answers that they meet. -/
def cppHandleFactory {Handle : Type} (type : ModuleType) : LoadOutcome Handle → Option Handle
  | .dlopenFailed => none
  | .dlsymFailed => none
  | .loaded flags version initResult object =>
    if flags ≠ type.value then none
    else if version / 2 ^ 16 ≠ oakVersionMajor then none
    else if initResult ≠ 0 then none
    else some object

/-- The factory for parsers is the one of its type. -/
theorem cppParserHandleFactory_eq {Handle : Type} (met : LoadOutcome Handle) :
    cppParserHandleFactory met = cppHandleFactory .parser met := by
  cases met <;> rfl

/-- A module that does not pass the checks is not opened. -/
theorem cppHandleFactory_unfit (h : ¬handle.Fits call.type) (ret : ℤ) :
    cppHandleFactory call.type (.loaded handle.flags handle.version ret ()) = none := by
  unfold cppHandleFactory
  by_cases hflags : handle.flags = call.type.value
  · have hversion : handle.version / 2 ^ 16 ≠ oakVersionMajor := fun heq => h ⟨hflags, heq⟩
    simp only [hflags, ne_eq, not_true_eq_false, if_false, if_pos hversion]
  · simp only [ne_eq, if_pos hflags]

/-- A module whose `init` fails is not opened. -/
theorem cppHandleFactory_initFailed (type : ModuleType) {flags version : ℤ} (h : ret ≠ 0) :
    cppHandleFactory type (.loaded flags version ret ()) = none := by
  simp [cppHandleFactory, h]

/-- A module that passes the checks and whose `init` succeeds is opened. -/
theorem cppHandleFactory_fits (h : handle.Fits call.type) :
    cppHandleFactory call.type (.loaded handle.flags handle.version 0 ()) = some () := by
  have hversion : ¬handle.version / 2 ^ 16 ≠ oakVersionMajor := not_not.mpr h.version
  simp only [cppHandleFactory, h.flags, ne_eq, not_true_eq_false, if_false, if_neg hversion]

/-- The handle is one of this type, and its module has passed the checks. -/
def CppHandle.Passed (object : CppHandle) (type : ModuleType) : Prop :=
  object.handle.Fits type ∧ object.type = type

/-- What a thread knows of the calls and the handles that it works on. -/
def LoadPc.Valid : LoadPc → Prop
  | .idle => True
  | .opening call | .opened call => call.Identified
  | .checked call handle | .made call handle _ => call.Identified ∧ handle.Fits call.type
  | .failed call met => call.Identified ∧ cppHandleFactory call.type met = none
  | .released object target => ∀ o ∈ object, o.Passed target.type
  | .closing object caller | .closed object caller =>
    object.handle.Fits object.type ∧ ∀ c ∈ caller, c.1.Identified ∧ c.2.Fits c.1.type

/-- The step of a run that called the `init` of a module. -/
def Initialized (labels : List LoaderEvent) (call : FactoryCall) (handle : OakModule) (ret : ℤ) :
    Prop :=
  ∃ dict context, .init call handle dict ret context ∈ labels

/-- What the answers in a run have told a factory when it returns or gives up: its library is not
open and does not open, or it is open and does not export the module, or it has found a module,
whose `init` it has called if the module passes the checks. -/
def FactoryCall.Met (labels : List LoaderEvent) (s : Loader) (call : FactoryCall) :
    LoadOutcome Unit → Prop
  | .dlopenFailed => call.Identified → s.opens call.dlHandle = 0
  | .dlsymFailed =>
    0 < s.opens call.dlHandle ∧ s.image call.dlHandle call.module.name = none
  | .loaded flags version ret _ => ∃ handle : OakModule,
    handle.flags = flags ∧ handle.version = version ∧
      (handle.Fits call.type ∧ Initialized labels call handle ret ∨
        ¬handle.Fits call.type ∧ 0 < s.opens call.dlHandle ∧
          ModuleCode.Exported s ⟨call.type, call.dlHandle, call.module.name, handle⟩)

/-- What the answers in a run have told a thread. -/
def LoadPc.Met (labels : List LoaderEvent) (s : Loader) : LoadPc → Prop
  | .failed call met => call.Met labels s met
  | .made call handle _ => Initialized labels call handle 0
  | .closing _ caller | .closed _ caller => ∀ c ∈ caller, Initialized labels c.1 c.2 0
  | _ => True

/-- A thread keeps what it has met as long as its library stays. -/
theorem LoadPc.Met.concat (h : pc.Met labels s) (label : LoaderEvent)
    (hopen : ∀ dl, pc.library = some dl → 0 < s.opens dl ∧ 0 < s'.opens dl)
    (himage : ∀ dl, pc.library = some dl → s'.image dl = s.image dl) :
    pc.Met (labels ++ [label]) s' := by
  have hinit {call handle ret} (h : Initialized labels call handle ret) :
      Initialized (labels ++ [label]) call handle ret :=
    h.imp fun _ => Exists.imp fun _ => List.mem_append_left _
  cases pc with
  | failed call met =>
    obtain ⟨hbefore, hafter⟩ := hopen call.dlHandle rfl
    specialize himage call.dlHandle rfl
    cases met with
    | dlopenFailed => exact fun hcall => absurd (h hcall) hbefore.ne'
    | dlsymFailed => exact ⟨hafter, himage ▸ h.2⟩
    | loaded flags version ret object =>
      obtain ⟨handle, hflags, hversion, ⟨hfits, hcalled⟩ | ⟨hunfit, -, hexported⟩⟩ := h
      · exact ⟨handle, hflags, hversion, .inl ⟨hfits, hinit hcalled⟩⟩
      · exact ⟨handle, hflags, hversion, .inr ⟨hunfit, hafter, hexported.of_image himage⟩⟩
  | made => exact hinit h
  | closing | closed => exact fun c hc => hinit (h c hc)
  | _ => trivial

/-- A thread that is about to store a handle for a factory has called `init`. -/
theorem LoadPc.Met.of_stores (h : pc.Met labels s) (hstores : pc.Stores slot object caller) :
    ∀ c ∈ caller, Initialized labels c.1 c.2 0 := by
  cases hstores with
  | made call handle context =>
    rintro c ⟨⟩
    exact h
  | _ => nofun

/-- A thread that goes on has met what its step shows. -/
theorem LoadPc.Goes.met_after (h : pc.Goes s label pc') (hvalid : pc.Valid) (hpc : pc.Met labels s)
    (hopen : ∀ dl, pc.library = some dl → 0 < s.opens dl) : pc'.Met (labels ++ [label]) s := by
  cases h with
  | notFound hsym => exact ⟨hopen _ rfl, Loader.image_of_dlsym hsym⟩
  | @unfit call handle hsym hunfit =>
    exact ⟨handle, rfl, rfl, .inr ⟨hunfit, hopen _ rfl, ModuleCode.exported_of_dlsym hsym⟩⟩
  | initFailed => exact ⟨_, rfl, rfl, .inl ⟨hvalid.2, _, _, List.mem_concat_self⟩⟩
  | made => exact ⟨_, _, List.mem_concat_self⟩
  | close => exact LoadPc.Met.concat hpc _ (fun dl h => ⟨hopen dl h, hopen dl h⟩) fun _ _ => rfl
  | _ => trivial

/-- A thread that goes on knows what it needs. -/
theorem LoadPc.Goes.valid (h : pc.Goes s label pc') (hpc : pc.Valid) : pc'.Valid := by
  cases h with
  | enter hcall => exact hcall
  | openFailed call => trivial
  | notFound => exact ⟨hpc, rfl⟩
  | unfit _ hunfit => exact ⟨hpc, cppHandleFactory_unfit hunfit 0⟩
  | checked _ hfits => exact ⟨hpc, hfits⟩
  | initFailed _ _ hret => exact ⟨hpc.1, cppHandleFactory_initFailed _ hret⟩
  | made | close => exact hpc

/-- A thread that calls module code has it at hand and has checked it. -/
theorem LoadPc.Goes.calls (h : pc.Goes s label pc') (hpc : pc.Valid) {code : ModuleCode}
    (hcode : label.code = some code) : pc.code = some code ∧ code.handle.Fits code.type := by
  cases h with
  | initFailed | made =>
    cases hcode
    exact ⟨rfl, hpc.2⟩
  | close =>
    cases hcode
    exact ⟨rfl, hpc.1⟩
  | _ => cases hcode

namespace Loader

section Valid

/-- What threads and slots hold has passed the factory of its type. -/
structure Valid (s : Loader) : Prop where
  threads (t : ℕ) : (s.threads t).Valid
  slots {slot : Slot} {object : CppHandle} :
    s.slots slot = some object → object.Passed slot.type

/-- A thread goes on. -/
theorem Valid.setThread (h : s.Valid) (hpc : pc.Valid) : (s.setThread t pc).Valid where
  threads u := by
    by_cases hu : u = t
    · subst hu
      simpa [Loader.setThread] using hpc
    · simpa [Loader.setThread, hu] using h.threads u
  slots := h.slots

/-- A slot gets a handle of its type, or none. -/
theorem Valid.setSlot (h : s.Valid) (hobject : ∀ o ∈ object, o.Passed slot.type) :
    (s.setSlot slot object).Valid where
  threads := h.threads
  slots := by
    intro other o ho
    by_cases hother : other = slot
    · subst hother
      exact hobject o (by simpa [Loader.setSlot] using ho)
    · exact h.slots (by simpa [Loader.setSlot, hother] using ho)

theorem Valid.at_pc (h : s.Valid) (hpc : s.threads t = pc) : pc.Valid :=
  hpc ▸ h.threads t

/-- What a thread is about to store, and to whom it returns. -/
theorem Valid.stores (hpc : pc.Valid) (h : pc.Stores slot object caller) :
    (∀ o ∈ object, o.Passed slot.type) ∧ ∀ c ∈ caller, c.1.Identified ∧ c.2.Fits c.1.type := by
  cases h with
  | made call handle context =>
    refine ⟨?_, ?_⟩
    · rintro o ⟨⟩
      exact ⟨hpc.2, rfl⟩
    · rintro c ⟨⟩
      exact hpc
  | released => exact ⟨hpc, by simp⟩
  | idle => exact ⟨by simp, by simp⟩

/-- `reset` keeps what is known. -/
theorem Valid.reset (h : s.Valid) (hpc : (s.threads t).Stores slot object caller) :
    (s.reset t slot object caller).2.Valid := by
  obtain ⟨hobject, hcaller⟩ := Valid.stores (h.threads t) hpc
  obtain ⟨pc, hreset, hpc'⟩ := reset_eq s t slot object caller
  rw [hreset]
  obtain rfl | ⟨old, hslot, rfl⟩ := hpc'
  · exact (h.setSlot hobject).setThread trivial
  · obtain ⟨hfits, htype⟩ := h.slots hslot
    exact (h.setSlot hobject).setThread ⟨htype ▸ hfits, hcaller⟩

/-- Every step keeps what is known. -/
theorem Valid.step (h : s.Valid) (hstep : Step s label s') : s'.Valid := by
  cases hstep.move with
  | fault => exact ⟨h.threads, h.slots⟩
  | refuse | called | skipped => exact h
  | goes hgoes => exact h.setThread (hgoes.valid (h.threads _))
  | opened image scope hpc =>
    have hcall : FactoryCall.Identified _ := h.at_pc hpc
    refine Valid.setThread ?_ hcall
    exact ⟨h.threads, h.slots⟩
  | failed => exact Valid.setThread (s := s.dlclose _) ⟨h.threads, h.slots⟩ trivial
  | reset hpc => exact h.reset hpc
  | released =>
    have hsame {slot : Slot} (o : CppHandle) (ho : o ∈ s.slots slot) : o.Passed slot.type :=
      h.slots ho
    exact (h.setSlot (by simp)).setThread hsame
  | closed =>
    rw [leave_eq]
    exact Valid.setThread (s := s.dlclose _) ⟨h.threads, h.slots⟩ trivial

theorem valid_start (program : Library) : (start program).Valid where
  threads _ := trivial
  slots := by simp [start]

theorem valid_run (h : Run Step (start program) labels s) : s.Valid :=
  h.invariant (I := fun _ s => s.Valid) (valid_start program) fun _ _ _ _ h hstep => h.step hstep

end Valid

section Contexts

variable {live : ModuleContext → ℕ}

/-- A factory that returns runs no module code. -/
theorem quiet_of_returnsTo (h : label.ReturnsTo caller) :
    label.code = none ∧ label.created = none ∧ label.ended = none := by
  obtain rfl | ⟨call, handle, -, rfl⟩ := h <;> exact ⟨rfl, rfl, rfl⟩

/-- After the step the contexts that were held are closed by it or held, and those that it sets up
are held. -/
def Balanced (live : ModuleContext → ℕ) (label : LoaderEvent) (s' : Loader) : Prop :=
  ∃ live', Counted (view contexts s') live' ∧ ∀ key,
    label.ended.toList.count key + live' key = live key + label.created.toList.count key

/-- Contexts that nobody closes and nobody sets up stay with those who hold them. -/
theorem contexts_of_comp (h : Counted (view contexts s) live) (e : Keeper ≃ Keeper)
    (hview : view contexts s' = view contexts s ∘ e) (hcreated : label.created = none)
    (hended : label.ended = none) : Balanced live label s' :=
  ⟨live, hview ▸ h.comp_equiv e, fun key => by simp [hcreated, hended]⟩

/-- A thread that goes on without a context. -/
theorem contexts_of_eq (h : Counted (view contexts s) live)
    (hview : view contexts s' = view contexts s) (hcreated : label.created = none)
    (hended : label.ended = none) : Balanced live label s' :=
  contexts_of_comp h (.refl _) hview hcreated hended

/-- A thread that goes on closes its context, or sets one up. -/
theorem contexts_goes (h : Counted (view contexts s) live) (hthread : s.threads t = pc)
    (hgoes : pc.Goes s label pc') : Balanced live label (s.setThread t pc') := by
  have hview : view contexts s (.thread t) = pc.moduleContext :=
    congrArg LoadPc.moduleContext hthread
  have hquiet (hpc : pc'.moduleContext = pc.moduleContext) :
      view contexts (s.setThread t pc') = view contexts s :=
    view_setThread_of_eq contexts (hpc.trans (congrArg LoadPc.moduleContext hthread.symm))
  cases hgoes with
  | @made call handle order context =>
    let key₀ : ModuleContext := ⟨call.dlHandle, call.module.name, context⟩
    refine ⟨Function.update live key₀ (live key₀ + 1), ?_, fun key => ?_⟩
    · rw [view_setThread]
      exact h.acquire hview key₀
    · by_cases hkey : key = key₀
      · simp [hkey, key₀, LoaderEvent.created, LoaderEvent.ended]
      · simp [hkey, Ne.symm hkey, key₀, LoaderEvent.created, LoaderEvent.ended]
  | close object caller =>
    let key₀ : ModuleContext := object.moduleContext
    have hpos : 0 < live object.moduleContext := h.pos hview
    refine ⟨Function.update live key₀ (live key₀ - 1), ?_, fun key => ?_⟩
    · rw [view_setThread]
      exact h.release hview
    · by_cases hkey : key = key₀
      · simp [hkey, key₀, LoaderEvent.created, LoaderEvent.ended]
        omega
      · simp [hkey, Ne.symm hkey, key₀, LoaderEvent.created, LoaderEvent.ended]
  | initFailed _ _ hret =>
    exact contexts_of_eq h (hquiet rfl) (by simp [LoaderEvent.created, hret]) rfl
  | _ => exact contexts_of_eq h (hquiet rfl) rfl rfl

/-- A step closes a context that is held, or sets up one that is held from then on. -/
theorem contexts_step (h : Counted (view contexts s) live) (hstep : Step s label s') :
    Balanced live label s' := by
  cases hstep.move with
  | goes hgoes => exact contexts_goes h rfl hgoes
  | opened image scope hpc =>
    refine contexts_of_eq h ?_ rfl rfl
    exact view_setThread_of_eq contexts (by simp [hpc, contexts, LoadPc.moduleContext])
  | failed _ hpc =>
    refine contexts_of_eq h ?_ rfl rfl
    exact view_setThread_of_eq contexts (s := s.dlclose _)
      (by simp [dlclose, hpc, contexts, LoadPc.moduleContext])
  | reset hpc =>
    obtain ⟨-, hcreated, hended⟩ := quiet_of_returnsTo (reset_label s _ _ _ _)
    exact contexts_of_comp h _ (view_reset contexts hpc) hcreated hended
  | released _ hpc => exact contexts_of_comp h _ (view_release contexts hpc _) rfl rfl
  | closed _ hpc =>
    obtain ⟨-, hcreated, hended⟩ := quiet_of_returnsTo (leave_label (s.dlclose _) _ _)
    refine contexts_of_eq h ?_ hcreated hended
    rw [leave_eq]
    exact view_setThread_of_eq contexts (s := s.dlclose _)
      (by simp [dlclose, hpc, contexts, LoadPc.moduleContext])
  | _ => exact contexts_of_eq h rfl rfl rfl

/-- In every run the contexts that are held are those that were set up and not closed. -/
theorem contexts_run (h : Run Step (start program) labels s) :
    ∃ live, Counted (view contexts s) live ∧ ∀ key,
      (labels.filterMap LoaderEvent.ended).count key + live key =
        (labels.filterMap LoaderEvent.created).count key := by
  induction h with
  | nil =>
    refine ⟨fun _ => 0, fun key => ?_, fun key => rfl⟩
    have hnone : holders (view contexts (start program)) key = ∅ := by
      ext keeper
      cases keeper <;> simp [holders, view, contexts, start, LoadPc.moduleContext]
    rw [hnone, Set.encard_empty]
    rfl
  | @snoc labels s s' label _ hstep ih =>
    obtain ⟨live, hcounted, hcounts⟩ := ih
    obtain ⟨live', hcounted', hone⟩ := contexts_step hcounted hstep
    refine ⟨live', hcounted', fun key => ?_⟩
    have hended : [label].filterMap LoaderEvent.ended = label.ended.toList := by
      cases hlabel : label.ended <;> simp [hlabel]
    have hcreated : [label].filterMap LoaderEvent.created = label.created.toList := by
      cases hlabel : label.created <;> simp [hlabel]
    rw [List.filterMap_append, List.filterMap_append, List.count_append, List.count_append,
      hended, hcreated]
    have h₁ := hcounts key
    have h₂ := hone key
    omega

end Contexts

section Returns

/-- Every thread has met what its place says. -/
def Met (labels : List LoaderEvent) (s : Loader) : Prop := ∀ t, (s.threads t).Met labels s

/-- A step of one thread leaves what the others have met. -/
theorem met_of_thread (hcounted : Counted (view libraries s) s.opens) (h : s.Met labels)
    (hstep : Step s label s') (hothers : ∀ u, u ≠ t → s'.threads u = s.threads u)
    (ht : s'.threads t ≠ s.threads t → (s'.threads t).Met (labels ++ [label]) s') :
    s'.Met (labels ++ [label]) := by
  intro u
  by_cases hu : s'.threads u = s.threads u
  · rw [hu]
    have hopen (dl) (hdl : (s.threads u).library = some dl) : 0 < s.opens dl ∧ 0 < s'.opens dl :=
      ⟨hcounted.pos (show view libraries s (.thread u) = some dl from hdl),
        (counted_step hcounted hstep).pos
          (show view libraries s' (.thread u) = some dl from (congrArg _ hu).trans hdl)⟩
    exact (h u).concat label hopen fun dl hdl => image_step hstep (hopen dl hdl).1
  · obtain rfl : u = t := by_contra fun hne => hu (hothers u hne)
    exact ht hu

/-- Every step keeps what the threads have met. -/
theorem met_step (hcounted : Counted (view libraries s) s.opens) (hvalid : s.Valid)
    (h : s.Met labels) (hstep : Step s label s') : s'.Met (labels ++ [label]) := by
  have hset {r : Loader} {t : ℕ} {pc : LoadPc} (hs' : s' = r.setThread t pc)
      (hthreads : r.threads = s.threads) (hpc : pc.Met (labels ++ [label]) s') :
      s'.Met (labels ++ [label]) := by
    refine met_of_thread (t := t) hcounted h hstep (fun u hu => ?_) fun _ => ?_
    · rw [hs', ← hthreads]
      exact Function.update_of_ne hu _ _
    · rw [hs'] at hpc ⊢
      simpa [setThread] using hpc
  have hmove := hstep.move
  cases hmove with
  | @goes t _ pc hgoes =>
    have hopen (dl) (hdl : (s.threads t).library = some dl) : 0 < s.opens dl :=
      hcounted.pos (show view libraries s (.thread t) = some dl from hdl)
    exact hset rfl rfl (hgoes.met_after (hvalid.threads t) (h t) hopen)
  | opened => exact hset rfl rfl trivial
  | failed => exact hset (r := s.dlclose _) rfl rfl trivial
  | reset hpc =>
    obtain ⟨pc, hreset, rfl | ⟨old, -, rfl⟩⟩ := reset_eq s _ _ _ _
    · exact hset hreset rfl trivial
    · exact hset hreset rfl fun c hc =>
        (((h _).of_stores hpc) c hc).imp fun _ => Exists.imp fun _ => List.mem_append_left _
  | released => exact hset (r := s.setSlot _ _) rfl rfl trivial
  | closed => exact hset (r := s.dlclose _) (leave_eq ..) rfl trivial
  | _ => exact met_of_thread (t := 0) hcounted h hstep (fun _ _ => rfl) (absurd rfl)

/-- What the threads have met holds along every run. -/
theorem met_run (h : Run Step (start program) labels s) : s.Met labels := by
  induction h with
  | nil => exact fun _ => trivial
  | snoc hrun hstep ih => exact met_step (counted_run hrun) (valid_run hrun) ih hstep

/-- A factory returns zero for a module that it opens, and `-1` for every other. -/
structure Answers (labels : List LoaderEvent) (s : Loader) (call : FactoryCall)
    (met : LoadOutcome Unit) (ret : ℤ) : Prop where
  named : call.module.name ≠ []
  answered : call.Met labels s met
  range : ret = 0 ∨ ret = -1
  success : ret = 0 ↔ call.Identified ∧ cppHandleFactory call.type met = some ()

/-- A factory that gives up returns `-1`. -/
theorem answers_failed (hname : call.module.name ≠ []) (hmet : call.Met labels s met)
    (h : call.Identified → cppHandleFactory call.type met = none) :
    Answers labels s call met (-1) where
  named := hname
  answered := hmet
  range := .inr rfl
  success := by
    refine iff_of_false (by decide) ?_
    rintro ⟨hcall, hsome⟩
    rw [h hcall] at hsome
    cases hsome

/-- A factory that has stored its handle returns zero, behind the destructor that it runs. -/
theorem answers_of_returnsTo (h : label.ReturnsTo caller)
    (hcaller : ∀ c ∈ caller, c.1.Identified ∧ c.2.Fits c.1.type)
    (hinit : ∀ c ∈ caller, Initialized labels c.1 c.2 0) (hlabel : label = .returned call met ret) :
    Answers labels s call met ret := by
  obtain rfl | ⟨call, handle, hmem, rfl⟩ := h
  · cases hlabel
  · cases hlabel
    obtain ⟨hcall, hfits⟩ := hcaller _ hmem
    exact ⟨hcall.1, ⟨handle, rfl, rfl, .inl ⟨hfits, hinit _ hmem⟩⟩, .inl rfl,
      iff_of_true rfl ⟨hcall, cppHandleFactory_fits hfits⟩⟩

/-- What the step of a factory that returns says. -/
theorem returned_of_step (hvalid : s.Valid) (hmet : s.Met labels) (hstep : Step s label s')
    (hlabel : label = .returned call met ret) : Answers labels s call met ret := by
  cases hstep.move with
  | refuse hname hcall =>
    cases hlabel
    exact answers_failed hname (fun h => absurd h hcall) fun h => absurd h hcall
  | @goes t _ _ hgoes =>
    have hpc := hvalid.threads t
    subst hlabel
    generalize s.threads t = pc at hgoes hpc
    cases hgoes with
    | openFailed hclosed => exact answers_failed hpc.1 (fun _ => hclosed) fun _ => rfl
  | @failed t _ _ hpc =>
    cases hlabel
    obtain ⟨hcall, hnone⟩ := hvalid.at_pc hpc
    have hthread := hmet t
    rw [hpc] at hthread
    exact answers_failed hcall.1 hthread fun _ => hnone
  | @reset t _ _ _ hpc =>
    have hcaller := (Valid.stores (hvalid.threads t) hpc).2
    exact answers_of_returnsTo (reset_label ..) hcaller ((hmet t).of_stores hpc) hlabel
  | @closed t _ _ hpc =>
    have hthread := hmet t
    rw [hpc] at hthread
    exact answers_of_returnsTo (leave_label ..) (hvalid.at_pc hpc).2 hthread hlabel
  | _ => cases hlabel

/-- What a factory for parsers returns is the result of the sequential factory. -/
theorem Answers.parserHandleFactory_eq (h : Answers labels s call met ret)
    (htype : call.type = .parser) :
    Oak.parserHandleFactory call.module met = .ok (if ret = 0 then some () else none) := by
  have hopen : openParser call.module met = if ret = 0 then some () else none := by
    unfold openParser
    rw [cppParserHandleFactory_eq, ← htype]
    by_cases hret : ret = 0
    · obtain ⟨hcall, hsome⟩ := h.success.mp hret
      rw [if_pos hcall.2, if_pos hret, hsome]
    · rw [if_neg hret]
      split
      next hpath =>
        cases hmet : cppHandleFactory call.type met with
        | none => rfl
        | some object => exact absurd (h.success.mpr ⟨⟨h.named, hpath⟩, hmet⟩) hret
      next => rfl
  simp only [Oak.parserHandleFactory, assert, if_pos h.named, hopen]
  rfl

end Returns

section Results

/-- A library with one parser. -/
def parserLibrary : Library := fun name =>
  if name = ascii "http" then some { version := 2 ^ 16, flags := 2 } else none

/-- The module in that library. -/
def httpModule : ModuleConfig where
  name := ascii "http"
  path := ascii "http.so"
  config := ({} : Dict).insert (ascii "port") (ascii "80")

/-- A module that the library does not export. -/
def ftpModule : ModuleConfig := { httpModule with name := ascii "ftp" }

/-- A thread opens the module. -/
def openHttp (t index : ℕ) : List (ℕ × Action) :=
  [(t, .parser httpModule index), (t, .advance { file := some parserLibrary }), (t, .advance {}),
    (t, .advance { order := [(ascii "port", ascii "80")], context := 7 }), (t, .advance {})]

/-- **Libraries are counted by their users.** In every run, a library is open as often as threads
and handles hold it, and the program once more. When all factories and destructors have returned and
no handle is left, nothing is open but the program: no path through a factory leaks a library. -/
theorem libraries_counted (h : Run Step (start program) labels s) :
    Counted (view libraries s) s.opens ∧
      ((∀ t, s.threads t = .idle) → (∀ slot, s.slots slot = none) →
        s.opens = (start program).opens) := by
  have hcounted := counted_run h
  refine ⟨hcounted, fun hthreads hslots => ?_⟩
  have hview : view libraries s = view libraries (start program) := by
    funext keeper
    cases keeper with
    | process => rfl
    | slot slot => simp [view, hslots, start]
    | thread t => simp [view, hthreads, start]
  have hstart := counted_start program
  rw [← hview] at hstart
  funext dl
  have heq := (hcounted dl).symm.trans (hstart dl)
  exact_mod_cast heq

/-- Two handles of one library. -/
theorem libraries_counted_twice : ∃ labels s, Run Step (start fun _ => none) labels s ∧
    s.opens (some (ascii "http.so")) = 2 ∧ Counted (view libraries s) s.opens := by
  have hexec : (exec next (start fun _ => none) (openHttp 0 0 ++ openHttp 1 1)).map
      (fun r => r.2.opens (some (ascii "http.so"))) = some 2 := by decide +kernel
  obtain ⟨labels, s, hrun, hopens⟩ := exists_run_of_exec hexec
  exact ⟨labels, s, hrun, hopens, (libraries_counted hrun).1⟩

/-- **Module code and its library.** In every run, whenever the `init`, a callback or the
`close` of a module is called, the library of its handle is loaded and exports the module under the
name that the handle was opened with, and the module has the flags of the type it is called as and
the major version of the program. A handle with an empty path holds the program alone, so that the
library is known to export the module only if the program does. -/
theorem module_code_loaded (h : Run Step (start program) labels s) (hstep : Step s label s')
    {code : ModuleCode} (hcode : label.code = some code) :
    0 < s.opens code.dlHandle ∧ code.Exported s ∧ code.handle.Fits code.type := by
  have hvalid := valid_run h
  -- whoever makes the call has the code at hand, and what it knows of it are the checks
  suffices hkeeper : (∃ keeper, view codes s keeper = some code) ∧ code.handle.Fits code.type by
    obtain ⟨⟨keeper, hview⟩, hfits⟩ := hkeeper
    exact ⟨(counted_run h).pos (library_of_code hview), exported_run h keeper code hview, hfits⟩
  cases hstep.move with
  | @goes t _ _ hgoes =>
    obtain ⟨hpc, hfits⟩ := hgoes.calls (hvalid.threads t) hcode
    exact ⟨⟨.thread t, hpc⟩, hfits⟩
  | @called slot object callback hslot htype =>
    cases hcode
    obtain ⟨hfits, hobject⟩ := hvalid.slots hslot
    have hcallback : object.type = callback.type := hobject.trans htype
    refine ⟨⟨.slot slot, ?_⟩, htype ▸ hfits⟩
    simp [view, codes, hslot, CppHandle.code, hcallback]
  | reset => exact absurd hcode (by simp [(quiet_of_returnsTo (reset_label ..)).1])
  | closed => exact absurd hcode (by simp [(quiet_of_returnsTo (leave_label ..)).1])
  | _ => cases hcode

/-- A parser is called. -/
theorem module_code_loaded_parse : ∃ labels s label s' code,
    Run Step (start fun _ => none) labels s ∧ Step s label s' ∧ label.code = some code ∧
      code.name = ascii "http" ∧ 0 < s.opens code.dlHandle := by
  have hexec : (exec next (start fun _ => none) (openHttp 0 0)).map
      (fun r => (next r.2 (1, .use .parse 0)).map fun x => x.1.code.map ModuleCode.name) =
        some (some (some (ascii "http"))) := by decide +kernel
  obtain ⟨labels, s, hrun, hnext⟩ := exists_run_of_exec hexec
  obtain ⟨⟨label, s'⟩, hnext, hcode⟩ := Option.map_eq_some_iff.mp hnext
  obtain ⟨code, hcode, hname⟩ := Option.map_eq_some_iff.mp hcode
  have hstep : Step s label s' := ⟨_, hnext⟩
  exact ⟨labels, s, label, s', code, hrun, hstep, hcode, hname,
    (module_code_loaded hrun hstep hcode).1⟩

/-- Without a path the parser is found in the library that is open, and it is called when the
library is closed. -/
example : (exec next (start fun _ => none) (openHttp 0 0 ++
    [(1, .parser { httpModule with path := [] } 1), (1, .advance {}), (1, .advance {}),
      (1, .advance { order := [(ascii "port", ascii "80")] }), (1, .advance {}),
      (0, .destroy ⟨.parser, 0⟩), (0, .advance {}), (0, .advance {}), (1, .use .parse 1)])).map
    (fun r => (r.1.getLast?.bind fun label => label.code.map ModuleCode.dlHandle,
      r.2.opens (some (ascii "http.so")))) = some (some none, 0) := by decide +kernel

/-- **Every `init` has its `close`.** In every run, for every context of a module the calls of
`init` that set it up and succeed are as many as the calls of `close` on it and the threads and
handles that still hold it: no context is closed twice, none is closed that was not set up, and
none that is set up gets lost. -/
theorem contexts_closed (h : Run Step (start program) labels s) (key : ModuleContext) :
    ((labels.filterMap LoaderEvent.ended).count key : ℕ∞) +
        (holders (view contexts s) key).encard =
      (labels.filterMap LoaderEvent.created).count key := by
  obtain ⟨live, hcounted, hcounts⟩ := contexts_run h
  rw [hcounted key, ← hcounts key]
  norm_cast

/-- A module that is opened twice, the second time in place of the first. -/
theorem contexts_closed_replaced : ∃ labels s key, Run Step (start fun _ => none) labels s ∧
    (labels.filterMap LoaderEvent.created).count key = 2 ∧
    (labels.filterMap LoaderEvent.ended).count key = 1 ∧
    ((labels.filterMap LoaderEvent.ended).count key : ℕ∞) +
        (holders (view contexts s) key).encard =
      (labels.filterMap LoaderEvent.created).count key := by
  let key : ModuleContext := ⟨some (ascii "http.so"), ascii "http", 7⟩
  have hexec : (exec next (start fun _ => none)
      (openHttp 0 0 ++ openHttp 0 0 ++ [(0, .advance {}), (0, .advance {})])).map
      (fun r => ((r.1.filterMap LoaderEvent.created).count key,
        (r.1.filterMap LoaderEvent.ended).count key)) = some (2, 1) := by decide +kernel
  obtain ⟨labels, s, hrun, hcounts⟩ := exists_run_of_exec hexec
  obtain ⟨hcreated, hended⟩ := Prod.mk.inj hcounts
  exact ⟨labels, s, key, hrun, hcreated, hended, contexts_closed hrun key⟩

/-- **Factories return what they meet.** In every run, however the calls of the threads interleave,
a factory returns zero if its module has a path of a shared object or none, the library opens, it
exports the module with the flags of the factory's type and the major version of the program, and
`init` returns zero; otherwise it returns `-1`. What it meets are the answers of the run: a library
that is not open, or that is open without the module or with one that does not pass the checks, or
the result of the module's `init`. For parsers this is the sequential factory of the event
handling. -/
theorem factory_returns (h : Run Step (start program) labels s) {met : LoadOutcome Unit} {ret : ℤ}
    (hstep : Step s (.returned call met ret) s') :
    Answers labels s call met ret ∧ (call.type = .parser →
      Oak.parserHandleFactory call.module met = .ok (if ret = 0 then some () else none)) := by
  have hanswers := returned_of_step (valid_run h) (met_run h) hstep rfl
  exact ⟨hanswers, hanswers.parserHandleFactory_eq⟩

/-- The module is not found. -/
theorem factory_returns_missing : ∃ labels s, Run Step (start fun _ => none) labels s ∧
    Answers labels s ⟨.sink, ftpModule, 0⟩ .dlsymFailed (-1) := by
  have hexec : (exec next (start fun _ => none)
      [(0, .sink ftpModule 0), (0, .advance { file := some parserLibrary }), (0, .advance {})]).map
      (fun r => (next r.2 (0, .advance {})).map Prod.fst) =
        some (some (.returned ⟨.sink, ftpModule, 0⟩ .dlsymFailed (-1))) := by decide +kernel
  obtain ⟨labels, s, hrun, hnext⟩ := exists_run_of_exec hexec
  obtain ⟨⟨label, s'⟩, hnext, rfl⟩ := Option.map_eq_some_iff.mp hnext
  exact ⟨labels, s, hrun, (factory_returns hrun ⟨_, hnext⟩).1⟩

end Results

end Loader

end Demos.Oak
