import Demos.Oak.Event.Consistency

/-!
# Recovery of past events

At start-up `main` pulls the events that happened while the process was down and applies them with
`RetrievalEvent`. It does so to a copy of the dictionary, which is then dropped: the configuration
that the workers are created from is the one that was read. The comparison is with the updates
that `HandleInputEvent` makes to the dictionary when every module opens.
-/

namespace Demos.Oak

open Demos.Lib

variable {Handle : Type} {dir name : Bytes} {events : List IncomingEvent}

/-- One event in the loop of `RetrievalEvent`. -/
def retrieve (dir : Bytes) (modules : ModuleConfigDict) (event : IncomingEvent) :
    Except Fault ModuleConfigDict := do
  let module ← eventToParserModuleConfig dir event
  let old := modules[module.name]?.getD {}
  return modules.insert module.name { old with
    config := module.config.foldl (fun config key value => config.insert key value) old.config
    enable := module.enable
    id := module.id
    path := module.path }

/-- `RetrievalEvent`. -/
def retrievalEvent (dir : Bytes) (modules : ModuleConfigDict) (events : List IncomingEvent) :
    Except Fault ModuleConfigDict :=
  events.foldlM (retrieve dir) modules

/-- The part of `main` that recovers the pulled batches: the local dictionary, and the
configuration that is passed to `InitRuntimeEnviron` and `WriteConfig`. -/
def recoverEvents (dir : Bytes) (config : Config) (batches : List (List IncomingEvent)) :
    Except Fault (ModuleConfigDict × Config) := do
  let parserModules ← batches.foldlM (retrievalEvent dir) config.parser.modules
  return (parserModules, config)

/-- What an event asks of the dictionary. -/
inductive ConfigUpdate where
  | put (module : ModuleConfig)
  | disable (name : Bytes)
  | disableAll
  | skip

/-- The update of the dictionary in the branches of `HandleInputEvent`. -/
def configUpdate (dir : Bytes) (event : IncomingEvent) : Except Fault ConfigUpdate :=
  match event.subtype with
  | .add => return .put (← eventToParserModuleConfig dir event)
  | .update => return .put (← eventToParserModuleConfig dir event)
  | .remove => return .disable (← eventToParserModuleConfig dir event).name
  | .clear => return .disableAll
  | .unknown _ => return .skip

/-- Carry out an update. -/
def ConfigUpdate.apply (modules : ModuleConfigDict) : ConfigUpdate → ModuleConfigDict
  | .put module => modules.insert module.name module
  | .disable name => ModuleConfigDict.disable modules name
  | .disableAll => ModuleConfigDict.disableAll modules
  | .skip => modules

/-- The dictionary after one event on the live path. -/
def liveEvent (dir : Bytes) (modules : ModuleConfigDict) (event : IncomingEvent) :
    Except Fault ModuleConfigDict := do
  return (← configUpdate dir event).apply modules

/-- The dictionary after a list of events on the live path. -/
def liveEvents (dir : Bytes) (modules : ModuleConfigDict) (events : List IncomingEvent) :
    Except Fault ModuleConfigDict :=
  events.foldlM (liveEvent dir) modules

/-- The live path is what `HandleInputEvent` does to the dictionary when every module opens. -/
theorem EventStep.liveEvent {s s' : Runtime Handle} {input : Input Handle} {event : IncomingEvent}
    (hstep : EventStep dir s input s') (hevent : input.event = some event)
    (htype : event.type = .parser) (hopen : AllOpen dir s input) :
    liveEvent dir s.modules event = .ok s'.modules := by
  have hdispatch : s.dispatch dir event input.loads = .ok s' := by
    simpa [EventStep, handleInputEvent, hevent, htype] using hstep
  unfold Runtime.dispatch at hdispatch
  unfold Oak.liveEvent configUpdate
  cases hsub : event.subtype with
  | add =>
    simp only [hsub, bind_eq_ok_iff] at hdispatch ⊢
    obtain ⟨module, hmodule, hinstall⟩ := hdispatch
    have hopens := hopen module ⟨event, hevent, htype, .inl hsub, hmodule⟩
    have hmodules := (Runtime.install_of_opens hopens hinstall).2
    exact ⟨.put module, ⟨module, hmodule, rfl⟩, congrArg Except.ok hmodules.symm⟩
  | update =>
    simp only [hsub, bind_eq_ok_iff] at hdispatch ⊢
    obtain ⟨module, hmodule, hinstall⟩ := hdispatch
    have hopens := hopen module ⟨event, hevent, htype, .inr hsub, hmodule⟩
    have hmodules := (Runtime.install_of_opens hopens hinstall).2
    exact ⟨.put module, ⟨module, hmodule, rfl⟩, congrArg Except.ok hmodules.symm⟩
  | remove =>
    simp only [hsub, bind_eq_ok_iff] at hdispatch ⊢
    obtain ⟨module, hmodule, hremove⟩ := hdispatch
    cases hremove
    exact ⟨.disable module.name, ⟨module, hmodule, rfl⟩, rfl⟩
  | clear | unknown =>
    simp only [hsub] at hdispatch ⊢
    cases hdispatch
    rfl

/-- A run of `HandleInputEvent` over parser events whose modules all open leaves the dictionary of
the live path. -/
theorem liveEvents_of_run {start s : Runtime Handle} {inputs : List (Input Handle)}
    (hrun : Run (Guarded (EventStep dir) (AllOpen dir)) start inputs s)
    (hevents : inputs.map Input.event = events.map some)
    (htype : ∀ event ∈ events, event.type = .parser) :
    liveEvents dir start.modules events = .ok s.modules := by
  induction hrun generalizing events with
  | nil =>
    obtain rfl : events = [] := by simpa using hevents.symm
    rfl
  | @snoc inputs s s' input _ hlast ih =>
    obtain ⟨hstep, hopen⟩ := hlast
    rw [List.map_append, List.map_singleton] at hevents
    obtain ⟨before, after, rfl, hbefore, hafter⟩ := List.map_eq_append_iff.mp hevents.symm
    obtain ⟨event, rfl, hevent⟩ := List.map_eq_singleton_iff.mp hafter
    have hfirst := ih hbefore.symm fun e he => htype e (by simp [he])
    have hnext := hstep.liveEvent hevent.symm (htype event (by simp)) hopen
    unfold liveEvents at hfirst ⊢
    rw [List.foldlM_append, hfirst]
    change [event].foldlM (Oak.liveEvent dir) s.modules = .ok s'.modules
    rw [List.foldlM_cons, hnext]
    rfl

/-- What an update does to the entry of one name. -/
def ConfigUpdate.entry (name : Bytes) (old : Option ModuleConfig) :
    ConfigUpdate → Option ModuleConfig
  | .put module => if module.name = name then some module else old
  | .disable other => if other = name then some { old.getD {} with enable := false } else old
  | .disableAll => old.map fun module => { module with enable := false }
  | .skip => old

/-- An update works on each entry by itself. -/
theorem ConfigUpdate.getElem?_apply (update : ConfigUpdate) (modules : ModuleConfigDict)
    (name : Bytes) : (update.apply modules)[name]? = update.entry name modules[name]? := by
  cases update with
  | put module => simp [apply, entry, Std.ExtTreeMap.getElem?_insert]
  | disable other =>
    by_cases hname : other = name
    · subst hname
      simp [apply, entry, ModuleConfigDict.disable]
    · simp [apply, entry, ModuleConfigDict.disable, Std.ExtTreeMap.getElem?_insert, hname]
  | disableAll => simp [apply, entry, ModuleConfigDict.disableAll]
  | skip => rfl

/-- A list of updates works on each entry by itself. -/
theorem ConfigUpdate.getElem?_foldl_apply (updates : List ConfigUpdate)
    (modules : ModuleConfigDict) (name : Bytes) :
    (updates.foldl apply modules)[name]? = updates.foldl (entry name) modules[name]? := by
  induction updates generalizing modules with
  | nil => rfl
  | cons update rest ih => rw [List.foldl_cons, List.foldl_cons, ih, getElem?_apply]

/-- The update disables the entry of the name. -/
def ConfigUpdate.disables (name : Bytes) : ConfigUpdate → Bool
  | .disable other => other = name
  | .disableAll => true
  | _ => false

/-- The module that the update records under the name. -/
def ConfigUpdate.puts (name : Bytes) : ConfigUpdate → Option ModuleConfig
  | .put module => if module.name = name then some module else none
  | _ => none

/-- The module as a list of updates without a new one for its name leaves it. -/
def disabledBy (name : Bytes) (updates : List ConfigUpdate) (module : ModuleConfig) :
    ModuleConfig :=
  if updates.any (ConfigUpdate.disables name) then { module with enable := false } else module

/-- The last module recorded under the name, disabled if a later update disables it. -/
def lastPut (name : Bytes) : List ConfigUpdate → Option ModuleConfig
  | [] => none
  | update :: rest =>
    match lastPut name rest with
    | some module => some module
    | none => (update.puts name).map (disabledBy name rest)

/-- The updates leave the entry of the name as it is: the last module recorded under the name is
the entry; without one, the name is removed only if it has a disabled entry, and cleared only if
it has no enabled one. -/
def Unmoved (name : Bytes) (old : Option ModuleConfig) (updates : List ConfigUpdate) : Prop :=
  match lastPut name updates with
  | some module => old = some module
  | none => (.disable name ∈ updates → ∃ module, old = some module ∧ module.enable = false) ∧
      (.disableAll ∈ updates → ∀ module, old = some module → module.enable = false)

/-- No update of a list without a last module records one. -/
theorem lastPut_cons_eq_none {update : ConfigUpdate} {rest : List ConfigUpdate}
    (h : lastPut name (update :: rest) = none) :
    update.puts name = none ∧ lastPut name rest = none := by
  unfold lastPut at h
  cases hrest : lastPut name rest with
  | none => simpa [hrest] using h
  | some module => simp [hrest] at h

/-- An update that records no module leaves an entry there, disabled or not. -/
theorem ConfigUpdate.entry_some {update : ConfigUpdate} (hputs : update.puts name = none)
    (module : ModuleConfig) :
    update.entry name (some module) =
      some (if update.disables name then { module with enable := false } else module) := by
  cases update with
  | put other =>
    have hname : other.name ≠ name := by simpa [puts] using hputs
    simp [entry, disables, hname]
  | disable other =>
    by_cases hname : other = name <;> simp [entry, disables, hname]
  | disableAll | skip => simp [entry, disables]

/-- Updates that record no module keep an entry, disabled if one of them disables it. -/
theorem foldl_entry_some {updates : List ConfigUpdate} (h : lastPut name updates = none)
    (module : ModuleConfig) :
    updates.foldl (ConfigUpdate.entry name) (some module) =
      some (disabledBy name updates module) := by
  induction updates generalizing module with
  | nil => rfl
  | cons update rest ih =>
    obtain ⟨hputs, hrest⟩ := lastPut_cons_eq_none h
    rw [List.foldl_cons, ConfigUpdate.entry_some hputs, ih hrest]
    cases hdisables : update.disables name with
    | true => cases hany : rest.any (ConfigUpdate.disables name) <;>
        simp [disabledBy, hdisables, hany]
    | false => simp [disabledBy, hdisables]

/-- Updates that record no module create an entry exactly by removing the name. -/
theorem foldl_entry_none {updates : List ConfigUpdate} (h : lastPut name updates = none) :
    updates.foldl (ConfigUpdate.entry name) none = none ↔ .disable name ∉ updates := by
  induction updates with
  | nil => simp
  | cons update rest ih =>
    obtain ⟨hputs, hrest⟩ := lastPut_cons_eq_none h
    rw [List.foldl_cons]
    cases update with
    | put other =>
      have hname : other.name ≠ name := by simpa [ConfigUpdate.puts] using hputs
      simpa [ConfigUpdate.entry, hname] using ih hrest
    | disable other =>
      by_cases hname : other = name
      · subst hname
        simp [ConfigUpdate.entry, foldl_entry_some hrest]
      · simpa [ConfigUpdate.entry, hname, Ne.symm hname] using ih hrest
    | disableAll | skip => simpa [ConfigUpdate.entry] using ih hrest

/-- The last recorded module decides the entry, whatever was there. -/
theorem foldl_entry_of_lastPut {updates : List ConfigUpdate} {module : ModuleConfig}
    (h : lastPut name updates = some module) (old : Option ModuleConfig) :
    updates.foldl (ConfigUpdate.entry name) old = some module := by
  induction updates generalizing old with
  | nil => simp [lastPut] at h
  | cons update rest ih =>
    rw [List.foldl_cons]
    cases hrest : lastPut name rest with
    | some later =>
      simp only [lastPut, hrest, Option.some.injEq] at h
      exact ih (h ▸ hrest) _
    | none =>
      simp only [lastPut, hrest, Option.map_eq_some_iff] at h
      obtain ⟨recorded, hputs, rfl⟩ := h
      cases update with
      | put other =>
        obtain ⟨hname, rfl⟩ : other.name = name ∧ other = recorded := by
          simpa [ConfigUpdate.puts] using hputs
        simpa [ConfigUpdate.entry, hname] using foldl_entry_some hrest other
      | disable | disableAll | skip => simp [ConfigUpdate.puts] at hputs

/-- Some update disables the entry of the name exactly when one removes it or clears them all. -/
theorem any_disables_iff {updates : List ConfigUpdate} :
    updates.any (ConfigUpdate.disables name) = true ↔
      .disable name ∈ updates ∨ .disableAll ∈ updates := by
  rw [List.any_eq_true]
  constructor
  · rintro ⟨update, hmem, hdisables⟩
    cases update with
    | put | skip => simp [ConfigUpdate.disables] at hdisables
    | disable other =>
      obtain rfl : other = name := by simpa [ConfigUpdate.disables] using hdisables
      exact .inl hmem
    | disableAll => exact .inr hmem
  · rintro (hmem | hmem)
    · exact ⟨_, hmem, by simp [ConfigUpdate.disables]⟩
    · exact ⟨_, hmem, rfl⟩

/-- An entry is kept by a disabling list exactly when it is already disabled. -/
theorem disabledBy_eq_self_iff {updates : List ConfigUpdate} {module : ModuleConfig} :
    disabledBy name updates module = module ↔
      (updates.any (ConfigUpdate.disables name) = true → module.enable = false) := by
  unfold disabledBy
  split
  · rename_i hany
    constructor
    · intro heq _
      rw [← heq]
    · intro henable
      cases module
      simp_all
  · rename_i hany
    simp [hany]

/-- The updates leave an entry as it is exactly under the condition. -/
theorem foldl_entry_eq_self_iff (name : Bytes) (old : Option ModuleConfig)
    (updates : List ConfigUpdate) :
    updates.foldl (ConfigUpdate.entry name) old = old ↔ Unmoved name old updates := by
  unfold Unmoved
  cases hlast : lastPut name updates with
  | some module => simp [foldl_entry_of_lastPut hlast, eq_comm]
  | none =>
    cases old with
    | none => simp [foldl_entry_none hlast]
    | some module =>
      rw [foldl_entry_some hlast, Option.some.injEq, disabledBy_eq_self_iff, any_disables_iff,
        or_imp]
      simp

/-- An event that the recovery path reads is one that the live path reads. -/
theorem exists_configUpdate_of_retrieve {modules modules' : ModuleConfigDict}
    {event : IncomingEvent} (h : retrieve dir modules event = .ok modules') :
    ∃ update, configUpdate dir event = .ok update := by
  simp only [retrieve, bind_eq_ok_iff] at h
  obtain ⟨module, hmodule, _⟩ := h
  unfold configUpdate
  cases event.subtype with
  | add | update => exact ⟨.put module, by simp only [hmodule]; rfl⟩
  | remove => exact ⟨.disable module.name, by simp only [hmodule]; rfl⟩
  | clear => exact ⟨.disableAll, rfl⟩
  | unknown code => exact ⟨.skip, rfl⟩

/-- The live path reads every event that the recovery path reads. -/
theorem exists_updates_of_retrievalEvent {modules modules' : ModuleConfigDict}
    (h : events.foldlM (retrieve dir) modules = .ok modules') :
    ∃ updates, events.mapM (configUpdate dir) = .ok updates := by
  induction events generalizing modules with
  | nil => exact ⟨[], rfl⟩
  | cons event rest ih =>
    rw [List.foldlM_cons, bind_eq_ok_iff] at h
    obtain ⟨next, hevent, hrest⟩ := h
    obtain ⟨update, hupdate⟩ := exists_configUpdate_of_retrieve hevent
    obtain ⟨updates, hupdates⟩ := ih hrest
    refine ⟨update :: updates, ?_⟩
    rw [List.mapM_cons, hupdate, hupdates]
    rfl

/-- The live path carries out the updates one after the other. -/
theorem liveEvents_eq {updates : List ConfigUpdate}
    (h : events.mapM (configUpdate dir) = .ok updates) (modules : ModuleConfigDict) :
    liveEvents dir modules events = .ok (updates.foldl ConfigUpdate.apply modules) := by
  unfold liveEvents
  induction events generalizing updates modules with
  | nil =>
    cases h
    rfl
  | cons event rest ih =>
    simp only [List.mapM_cons, bind_eq_ok_iff] at h
    obtain ⟨update, hupdate, updates', hrest, hresult⟩ := h
    cases hresult
    rw [List.foldlM_cons, liveEvent, hupdate]
    exact ih hrest _

/-- Pulling in batches is pulling the events one after the other. -/
theorem foldlM_retrievalEvent (modules : ModuleConfigDict) (batches : List (List IncomingEvent)) :
    batches.foldlM (retrievalEvent dir) modules =
      batches.flatten.foldlM (retrieve dir) modules := by
  induction batches generalizing modules with
  | nil => rfl
  | cons batch rest ih =>
    rw [List.flatten_cons, List.foldlM_append, List.foldlM_cons]
    exact congrArg _ (funext ih)

/-- The pulled events ask for no change of the dictionary. -/
def EventsUnmoved (dir : Bytes) (modules : ModuleConfigDict) (events : List IncomingEvent) : Prop :=
  ∀ updates, events.mapM (configUpdate dir) = .ok updates →
    ∀ name, Unmoved name modules[name]? updates

/-- For every configuration and all batches that `main` recovers, the dictionary it goes on with
is the one of the live path exactly when the events ask for no change. -/
theorem recoverEvents_eq_liveEvents_iff (dir : Bytes) (config config' : Config)
    (batches : List (List IncomingEvent)) (recovered : ModuleConfigDict)
    (h : recoverEvents dir config batches = .ok (recovered, config')) :
    liveEvents dir config.parser.modules batches.flatten = .ok config'.parser.modules ↔
      EventsUnmoved dir config.parser.modules batches.flatten := by
  simp only [recoverEvents, bind_eq_ok_iff, foldlM_retrievalEvent] at h
  obtain ⟨modules, hretrieve, hresult⟩ := h
  cases hresult
  obtain ⟨updates, hupdates⟩ := exists_updates_of_retrievalEvent hretrieve
  have hentries : updates.foldl ConfigUpdate.apply config.parser.modules = config.parser.modules ↔
      ∀ name, Unmoved name config.parser.modules[name]? updates := by
    rw [Std.ExtTreeMap.ext_getElem?_iff]
    refine forall_congr' fun name => ?_
    rw [ConfigUpdate.getElem?_foldl_apply, foldl_entry_eq_self_iff]
  rw [liveEvents_eq hupdates, Except.ok.injEq, hentries]
  constructor
  · intro hunmoved updates' hupdates'
    obtain rfl := Except.ok.inj (hupdates.symm.trans hupdates')
    exact hunmoved
  · intro hunmoved
    exact hunmoved updates hupdates

/-- A parser event for the module `http`. -/
def httpEvent (subtype : EventSubtype) : IncomingEvent where
  type := .parser
  subtype := subtype
  args := [(oakProtocolType, ascii "6"), (oakFileName, ascii "http.so"), (oakTaskId, ascii "1")]

/-- A configuration whose only parser module is disabled. -/
def httpDisabled : Config :=
  Config.setParserModules {} ((∅ : ModuleConfigDict).insert (ascii "http") { name := ascii "http" })

/-- Removing a module that is already disabled, and clearing, ask for no change. -/
theorem recoverEvents_eq_liveEvents_iff_disabled :
    liveEvents [] httpDisabled.parser.modules [httpEvent .remove, httpEvent .clear] =
        .ok httpDisabled.parser.modules ∧
      EventsUnmoved [] httpDisabled.parser.modules [httpEvent .remove, httpEvent .clear] := by
  obtain ⟨recovered, hrecover⟩ : ∃ recovered, recoverEvents [] httpDisabled
      [[httpEvent .remove], [httpEvent .clear]] = .ok (recovered, httpDisabled) := ⟨_, rfl⟩
  have hlive : liveEvents [] httpDisabled.parser.modules [httpEvent .remove, httpEvent .clear] =
      .ok httpDisabled.parser.modules := by
    decide +kernel
  exact ⟨hlive, (recoverEvents_eq_liveEvents_iff [] httpDisabled httpDisabled
    [[httpEvent .remove], [httpEvent .clear]] recovered hrecover).mp hlive⟩

/-- A module that was added while the process was down is not in the configuration that `main`
goes on with. -/
theorem recoverEvents_drops_added_module :
    ¬ ∀ (config config' : Config) (batches : List (List IncomingEvent))
      (recovered : ModuleConfigDict), (∀ event ∈ batches.flatten, event.type = .parser) →
      recoverEvents [] config batches = .ok (recovered, config') →
        liveEvents [] config.parser.modules batches.flatten = .ok config'.parser.modules := by
  intro hall
  obtain ⟨recovered, hrecover⟩ : ∃ recovered, recoverEvents [] {} [[httpEvent .add]] =
      .ok (recovered, {}) := ⟨_, rfl⟩
  have hlive := hall {} {} [[httpEvent .add]] recovered (by decide) hrecover
  have hadded : (liveEvents [] ∅ [httpEvent .add]).toOption.map
      (fun modules => modules.contains (ascii "http")) = some true := by
    decide +kernel
  have hempty : liveEvents [] ∅ [httpEvent .add] = .ok ∅ := hlive
  rw [hempty] at hadded
  simp [Except.toOption] at hadded

end Demos.Oak
