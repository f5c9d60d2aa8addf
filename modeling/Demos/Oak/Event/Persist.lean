import Demos.Lib.Assoc
import Demos.Oak.Config.RoundTrip
import Demos.Oak.Event.Consistency
import Demos.Oak.Event.Settings

/-!
# Module dictionaries that survive a restart

The writer files a module under its own name and puts its free-form entries next to the reserved
keys, so a dictionary is read back exactly if every module stands under its own name and has no
reserved key among its entries. Events can break both: an added module takes over every argument of
its event, and a removed module that is not in the dictionary leaves an entry without a name.
-/

namespace Demos.Oak

open Demos.Lib

variable {Handle R : Type} {dir : Bytes} {real : RealOps R} {module : ModuleConfig}
  {modules : ModuleConfigDict} {event : IncomingEvent} {s s' : Runtime Handle}
  {input : Input Handle}

/-- The dictionary is read back as it is written. -/
def ReadsBack (real : RealOps R) (modules : ModuleConfigDict) : Prop :=
  readModuleConfig real ∅ (writeModuleConfig modules) = .ok modules

/-- No argument of the event has a reserved key and a value. -/
def FreeArgs (event : IncomingEvent) : Prop :=
  ∀ arg ∈ event.args, arg.1 ∈ reservedKeys → arg.2 = []

/-- A module that is added in every context comes from an event without reserved keys; a module
that is removed is in the dictionary, or has no name. -/
def KeepsEntries (dir : Bytes) (s : Runtime Handle) (input : Input Handle) : Prop :=
  (∀ module, AddsModule dir input module → AllOpen dir s input →
    ∀ event, input.event = some event → FreeArgs event) ∧
    ∀ module, RemovesModule dir input module → module.name ∈ s.modules ∨ module.name = []

/-- A dictionary is read back exactly if its modules stand under their own names, without reserved
keys. -/
theorem readsBack_iff_modulesOk : ReadsBack real modules ↔ ModulesOk modules :=
  ⟨readModuleConfig_ok, readModuleConfig_writeModuleConfig⟩

/-- The module of an event has no reserved key exactly if no argument sets one. -/
theorem forall_reservedKeys_iff_freeArgs (h : eventToParserModuleConfig dir event = .ok module) :
    (∀ key ∈ reservedKeys, module.config[key]? = none) ↔ FreeArgs event := by
  obtain ⟨-, read, hloop, rfl⟩ := eventToParserModuleConfig_eq_ok_iff.mp h
  have hne : ∀ key ∈ reservedKeys, key ≠ [] := by
    intro key hkey
    simp only [reservedKeys, List.mem_cons, List.not_mem_nil, or_false] at hkey
    rcases hkey with rfl | rfl | rfl <;> decide
  simp only [getElem?_config_eq_none_iff hloop]
  constructor
  · intro hnone arg harg hreserved
    by_contra hvalue
    have hset : arg ∈ settings event.args :=
      List.mem_filter.mpr ⟨harg, decide_eq_true ⟨hne arg.1 hreserved, hvalue⟩⟩
    exact hnone arg.1 hreserved arg hset rfl
  · rintro hfree _ hkey arg harg rfl
    exact (isSetting_of_mem harg).2 (hfree arg (List.mem_filter.mp harg).1 hkey)

/-- An entry that is put into a dictionary is the only one that matters. -/
theorem ModulesOk.insert_iff (h : ModulesOk modules) (name : Bytes) :
    ModulesOk (modules.insert name module) ↔ ModuleOk name module := by
  rw [ModulesOk, forall_getElem?_insert, and_iff_left_iff_imp]
  intro _ key entry _ hentry
  exact h key entry hentry

/-- Disabling a name keeps a dictionary exactly if it has the name, or the name is empty. -/
theorem ModulesOk.disable_iff (h : ModulesOk modules) (name : Bytes) :
    ModulesOk (ModuleConfigDict.disable modules name) ↔ name ∈ modules ∨ name = [] := by
  rw [ModuleConfigDict.disable, h.insert_iff]
  cases hentry : modules[name]? with
  | none =>
    have hmem : name ∉ modules := by
      rw [Std.ExtTreeMap.mem_iff_isSome_getElem?, hentry]
      simp
    simp [ModuleOk, hmem, eq_comm]
  | some entry =>
    have hmem : name ∈ modules := by
      rw [Std.ExtTreeMap.mem_iff_isSome_getElem?, hentry]
      rfl
    exact iff_of_true (h name entry hentry) (.inl hmem)

/-- Disabling every entry keeps names and keys. -/
theorem ModulesOk.disableAll (h : ModulesOk modules) :
    ModulesOk (ModuleConfigDict.disableAll modules) := by
  intro name entry hentry
  rw [ModuleConfigDict.disableAll, Std.ExtTreeMap.getElem?_map] at hentry
  obtain ⟨old, hold, rfl⟩ := Option.map_eq_some_iff.mp hentry
  exact h name old hold

/-- The module that an event adds is determined by the event. -/
theorem AddsModule.allOpen_iff (hadds : AddsModule dir input module) :
    AllOpen dir s input ↔ ∀ i < s.contexts.length, Opens module (input.loads i) := by
  constructor
  · intro hopen
    exact hopen module hadds
  · rintro hopens module' ⟨event', hevent', _, _, hmodule'⟩
    obtain ⟨event, hevent, _, _, hmodule⟩ := hadds
    obtain rfl := Option.some.inj (hevent.symm.trans hevent')
    obtain rfl := Except.ok.inj (hmodule.symm.trans hmodule')
    exact hopens

/-- Adding a module keeps a dictionary exactly if some context does not open it or its event sets
no reserved key. -/
theorem AddsModule.modulesOk_iff (hadds : AddsModule dir input module) (h : ModulesOk s.modules)
    (hstep : EventStep dir s input s') :
    ModulesOk s'.modules ↔
      (AllOpen dir s input → ∀ event, input.event = some event → FreeArgs event) := by
  have hinstall : s.install module input.loads = .ok s' :=
    hadds.handleInputEvent_eq.symm.trans hstep
  obtain ⟨success, contexts, hloop, _, hmodules⟩ := Runtime.install_eq_ok hinstall
  have hsuccess := updateContexts_success_iff hloop
  simp only [Nat.zero_add] at hsuccess
  rw [hadds.allOpen_iff, ← hsuccess, hmodules]
  obtain ⟨event, hevent, _, _, hmodule⟩ := hadds
  cases success with
  | true =>
    simp only [if_true, h.insert_iff, ModuleOk, true_and, forall_const, hevent,
      Option.some.injEq, forall_eq']
    exact forall_reservedKeys_iff_freeArgs hmodule
  | false => simpa using h

/-- A step under the condition keeps the names and keys of the dictionary. -/
theorem ModulesOk.step (h : ModulesOk s.modules) (hstep : EventStep dir s input s')
    (hkeeps : KeepsEntries dir s input) : ModulesOk s'.modules := by
  cases hstep.effect with
  | ignored => exact h
  | @installed module _ hadds _ =>
    exact (hadds.modulesOk_iff h hstep).mpr (hkeeps.1 module hadds)
  | @removed module hremoves => exact (h.disable_iff module.name).mpr (hkeeps.2 module hremoves)
  | cleared _ => exact h.disableAll

/-- A step that keeps the names and keys of the dictionary meets the condition. -/
theorem ModulesOk.keepsEntries (h : ModulesOk s.modules) (hstep : EventStep dir s input s')
    (h' : ModulesOk s'.modules) : KeepsEntries dir s input := by
  constructor
  · intro module hadds
    exact (hadds.modulesOk_iff h hstep).mp h'
  · intro module hremoves
    obtain rfl := Except.ok.inj (hremoves.handleInputEvent_eq.symm.trans hstep)
    exact (h.disable_iff module.name).mp h'

/-- In every run of events that meet the condition, from a dictionary that was read, the dictionary
of every state is read back as it is written; and a step from such a state leaves a dictionary that
is not read back as soon as it does not meet the condition. -/
theorem readsBack_iff_keepsEntries (real : RealOps R) (dir : Bytes) :
    (∀ (node : Json R) (start s : Runtime Handle) (inputs : List (Input Handle)),
      readModuleConfig real ∅ node = .ok start.modules →
      Run (Guarded (EventStep dir) (KeepsEntries dir)) start inputs s →
        ReadsBack real s.modules) ∧
    ∀ (s s' : Runtime Handle) (input : Input Handle), ReadsBack real s.modules →
      EventStep dir s input s' → (ReadsBack real s'.modules ↔ KeepsEntries dir s input) := by
  simp only [readsBack_iff_modulesOk]
  constructor
  · intro node start s inputs hread hrun
    refine hrun.invariant (I := fun _ s => ModulesOk s.modules) (readModuleConfig_ok hread) ?_
    rintro _ s input s' hok ⟨hstep, hkeeps⟩
    exact hok.step hstep hkeeps
  · intro s s' input hok hstep
    exact ⟨hok.keepsEntries hstep, hok.step hstep⟩

/-- An empty object is read as the dictionary of a process without modules. -/
theorem readModuleConfig_oneContext :
    readModuleConfig noReals ∅ (.object []) = .ok oneContext.modules := rfl

/-- A module that is added to a process without modules is read back. -/
theorem readsBack_iff_keepsEntries_http :
    Run (Guarded (EventStep []) (KeepsEntries [])) oneContext [httpInput .add "6"] httpAdded ∧
      ReadsBack noReals httpAdded.modules ∧
      (ReadsBack noReals httpAdded.modules ↔
        KeepsEntries [] oneContext (httpInput .add "6")) := by
  have hkeeps : KeepsEntries [] oneContext (httpInput .add "6") := by
    constructor
    · rintro _ _ _ event hevent
      cases hevent
      unfold FreeArgs
      decide
    · rintro module ⟨event, hevent, _, hsubtype, _⟩
      cases hevent
      cases hsubtype
  have hrun : Run (Guarded (EventStep []) (KeepsEntries [])) oneContext [httpInput .add "6"]
      httpAdded := .single ⟨httpAdded_step.1, hkeeps⟩
  refine ⟨hrun, ?_, ?_⟩
  · exact (readsBack_iff_keepsEntries noReals []).1 _ oneContext httpAdded _
      readModuleConfig_oneContext hrun
  · exact (readsBack_iff_keepsEntries noReals []).2 oneContext httpAdded _
      (readsBack_iff_modulesOk.mpr (readModuleConfig_ok readModuleConfig_oneContext))
      httpAdded_step.1

/-- A module that is removed without having been added leaves an entry that loses its name. -/
theorem removed_unknown_not_read_back :
    ¬ ∀ (node : Json Empty) (start s : Runtime ℕ) (inputs : List (Input ℕ)),
      readModuleConfig noReals ∅ node = .ok start.modules →
      Run (EventStep []) start inputs s →
        readModuleConfig noReals ∅ (writeModuleConfig s.modules) = .ok s.modules := by
  intro hall
  have hrun : Run (EventStep []) oneContext [httpInput .remove "6"]
      (stateAfter oneContext [httpInput .remove "6"]) := .single rfl
  have hback := hall _ oneContext _ _ readModuleConfig_oneContext hrun
  have hrenamed : readModuleConfig noReals ∅
      (writeModuleConfig (stateAfter oneContext [httpInput .remove "6"]).modules) =
        .ok (Std.ExtTreeMap.empty.insert [] {}) := by
    decide +kernel
  have hentry : (stateAfter oneContext [httpInput .remove "6"]).modules[ascii "http"]? =
      some {} := by
    decide +kernel
  rw [← Except.ok.inj (hrenamed.symm.trans hback)] at hentry
  revert hentry
  decide +kernel

end Demos.Oak
