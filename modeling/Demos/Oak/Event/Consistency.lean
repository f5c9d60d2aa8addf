import Demos.Lib.Run
import Demos.Oak.Event.Effects
import Mathlib.Data.List.Forall2

/-!
# Live modules and configured modules

A context keys its modules by number and the configuration keys them by name. The two tables
describe the same modules as long as no event makes a name give up a number that no other enabled
entry carries, and no event removes a number that an entry of another name still carries.
-/

namespace Demos.Oak

open Demos.Lib

variable {Handle : Type} {dir : Bytes} {module : ModuleConfig} {modules : ModuleConfigDict}

/-- The id of the entry under a name, if that entry is enabled. -/
def entryIds (modules : ModuleConfigDict) (name : Bytes) : Set UInt64 :=
  {id | ∃ entry, modules[name]? = some entry ∧ entry.enable = true ∧ entry.id = id}

/-- The ids of the enabled entries under the other names. -/
def otherIds (modules : ModuleConfigDict) (name : Bytes) : Set UInt64 :=
  {id | ∃ key, key ≠ name ∧ id ∈ entryIds modules key}

/-- The ids of the enabled entries. -/
def enabledIds (modules : ModuleConfigDict) : Set UInt64 :=
  {id | ∃ key, id ∈ entryIds modules key}

/-- Every context holds exactly the ids of the enabled entries. -/
def Runtime.Consistent (s : Runtime Handle) : Prop :=
  ∀ context ∈ s.contexts, context.HoldsIds (enabledIds s.modules)

/-- Every context opens the module that the event adds. -/
def AllOpen (dir : Bytes) (s : Runtime Handle) (input : Input Handle) : Prop :=
  ∀ module, AddsModule dir input module → ∀ i < s.contexts.length, Opens module (input.loads i)

/-- The name of the module gives up no id but the module's own and those of other entries. -/
def GivesUpNoId (modules : ModuleConfigDict) (module : ModuleConfig) : Prop :=
  entryIds modules module.name ⊆ insert module.id (otherIds modules module.name)

/-- An added module makes its name give up no id; a removed one in addition shares its id with no
enabled entry of another name. -/
def KeepsIds (dir : Bytes) (s : Runtime Handle) (input : Input Handle) : Prop :=
  (∀ module, AddsModule dir input module → GivesUpNoId s.modules module) ∧
    ∀ module, RemovesModule dir input module →
      GivesUpNoId s.modules module ∧ module.id ∉ otherIds s.modules module.name

/-- The enabled ids, seen from one name. -/
theorem enabledIds_eq (modules : ModuleConfigDict) (name : Bytes) :
    enabledIds modules = entryIds modules name ∪ otherIds modules name := by
  ext id
  constructor
  · rintro ⟨key, hkey⟩
    by_cases hname : key = name
    · exact .inl (hname ▸ hkey)
    · exact .inr ⟨key, hname, hkey⟩
  · rintro (hentry | ⟨key, _, hkey⟩)
    · exact ⟨name, hentry⟩
    · exact ⟨key, hkey⟩

/-- A new entry under one name leaves the entries of the other names. -/
theorem otherIds_insert (modules : ModuleConfigDict) (name : Bytes) (entry : ModuleConfig) :
    otherIds (modules.insert name entry) name = otherIds modules name := by
  ext id
  refine exists_congr fun key => and_congr_right fun hkey => ?_
  simp [entryIds, Std.ExtTreeMap.getElem?_insert, Ne.symm hkey]

/-- The enabled ids once an enabled entry is recorded under a name. -/
theorem enabledIds_insert (modules : ModuleConfigDict) (name : Bytes) {entry : ModuleConfig}
    (hentry : entry.enable = true) :
    enabledIds (modules.insert name entry) = insert entry.id (otherIds modules name) := by
  have hnew : entryIds (modules.insert name entry) name = {entry.id} := by
    ext id
    simp only [entryIds, Std.ExtTreeMap.getElem?_insert_self, Option.some.injEq,
      exists_eq_left', hentry, true_and]
    exact eq_comm
  rw [enabledIds_eq _ name, otherIds_insert, hnew, Set.singleton_union]

/-- The enabled ids once the entry under a name is disabled. -/
theorem enabledIds_disable (modules : ModuleConfigDict) (name : Bytes) :
    enabledIds (ModuleConfigDict.disable modules name) = otherIds modules name := by
  have hgone : entryIds (ModuleConfigDict.disable modules name) name = ∅ := by
    ext id
    simp [entryIds, ModuleConfigDict.disable]
  rw [enabledIds_eq _ name, hgone, Set.empty_union]
  exact otherIds_insert modules name _

/-- No id is enabled once every entry is disabled. -/
theorem enabledIds_disableAll (modules : ModuleConfigDict) :
    enabledIds (ModuleConfigDict.disableAll modules) = ∅ := by
  ext id
  simp only [enabledIds, entryIds, ModuleConfigDict.disableAll, Std.ExtTreeMap.getElem?_map,
    Set.mem_ofPred_eq, Set.mem_empty_iff_false, iff_false]
  rintro ⟨key, entry, hentry, henable, _⟩
  obtain ⟨old, _, rfl⟩ := Option.map_eq_some_iff.mp hentry
  simp at henable

/-- The module of an event is enabled. -/
theorem eventToParserModuleConfig_enable {event : IncomingEvent}
    (h : eventToParserModuleConfig dir event = .ok module) : module.enable = true := by
  simp only [eventToParserModuleConfig, bind_eq_ok_iff] at h
  obtain ⟨_, _, _, _, hresult⟩ := h
  cases hresult
  rfl

/-- Adding one element to a union and to its second part gives the same set exactly when the first
part brings nothing else. -/
theorem insert_union_eq_iff {A : Type*} (i : A) (K O : Set A) :
    insert i (K ∪ O) = insert i O ↔ K ⊆ insert i O := by
  constructor
  · intro heq k hk
    rw [← heq]
    exact .inr (.inl hk)
  · intro hsub
    rw [← Set.union_insert]
    exact Set.union_eq_self_of_subset_left hsub

/-- Removing one element from a union leaves its second part exactly when that part does not have
the element and the first part has nothing else. -/
theorem union_diff_singleton_eq_iff {A : Type*} (i : A) (K O : Set A) :
    (K ∪ O) \ {i} = O ↔ K ⊆ insert i O ∧ i ∉ O := by
  constructor
  · intro heq
    refine ⟨fun k hk => ?_, fun hi => ?_⟩
    · by_cases hki : k = i
      · exact .inl hki
      · right
        rw [← heq]
        exact ⟨.inl hk, hki⟩
    · rw [← heq] at hi
      exact hi.2 rfl
  · rintro ⟨hsub, hi⟩
    ext k
    constructor
    · rintro ⟨hk | hk, hki⟩
      · exact (hsub hk).resolve_left hki
      · exact hk
    · intro hk
      exact ⟨.inr hk, fun hki => hi (hki ▸ hk)⟩

/-- The contexts and the configuration agree, given what the contexts hold. -/
theorem Runtime.consistent_iff {s : Runtime Handle} {ids : Set UInt64}
    (hids : ∀ context ∈ s.contexts, context.HoldsIds ids) (hne : s.contexts ≠ []) :
    s.Consistent ↔ ids = enabledIds s.modules := by
  constructor
  · intro hconsistent
    obtain ⟨context, hcontext⟩ := List.exists_mem_of_ne_nil _ hne
    exact (hids context hcontext).unique (hconsistent context hcontext)
  · intro heq context hcontext
    exact heq ▸ hids context hcontext

section Step

variable {s s' : Runtime Handle} {input : Input Handle}

/-- What adding a module everywhere leaves in the contexts and in the configuration. -/
theorem AddsModule.ids (hadds : AddsModule dir input module) (h : s.Consistent)
    (hstep : EventStep dir s input s') (hopen : AllOpen dir s input) :
    (∀ context ∈ s'.contexts, context.HoldsIds (insert module.id (enabledIds s.modules))) ∧
      enabledIds s'.modules = insert module.id (otherIds s.modules module.name) ∧
      s'.contexts.length = s.contexts.length := by
  have hinstall : s.install module input.loads = .ok s' :=
    hadds.handleInputEvent_eq.symm.trans hstep
  obtain ⟨hinstalled, hmodules⟩ := Runtime.install_of_opens (hopen module hadds) hinstall
  obtain ⟨event, _, _, _, hmodule⟩ := hadds
  refine ⟨forall_holdsIds_of_installed hinstalled h, ?_, hinstalled.length_eq.symm⟩
  rw [hmodules]
  exact enabledIds_insert _ _ (eventToParserModuleConfig_enable hmodule)

/-- What removing a module leaves in the contexts and in the configuration. -/
theorem Runtime.remove_ids (module : ModuleConfig) (h : s.Consistent) :
    (∀ context ∈ (s.remove module).contexts,
      context.HoldsIds (enabledIds s.modules \ {module.id})) ∧
      enabledIds (s.remove module).modules = otherIds s.modules module.name := by
  refine ⟨List.forall_mem_map.mpr fun context hcontext => ?_, enabledIds_disable _ _⟩
  exact (h context hcontext).erase module.id

/-- A step under the condition keeps the two tables in agreement. -/
theorem Runtime.Consistent.step (h : s.Consistent) (hstep : EventStep dir s input s')
    (hopen : AllOpen dir s input) (hkeeps : KeepsIds dir s input) : s'.Consistent := by
  cases hstep.effect with
  | ignored => exact h
  | @installed module _ hadds _ =>
    obtain ⟨hids, henabled, _⟩ := hadds.ids h hstep hopen
    intro context hcontext
    rw [henabled, ← (insert_union_eq_iff _ _ _).mpr (hkeeps.1 module hadds), ← enabledIds_eq]
    exact hids context hcontext
  | @removed module hremoves =>
    obtain ⟨hids, henabled⟩ := remove_ids module h
    intro context hcontext
    rw [henabled, ← (union_diff_singleton_eq_iff _ _ _).mpr (hkeeps.2 module hremoves),
      ← enabledIds_eq]
    exact hids context hcontext
  | cleared _ =>
    refine List.forall_mem_map.mpr fun context _ => ?_
    have hnone : enabledIds s.clear.modules = ∅ := enabledIds_disableAll _
    rw [hnone]
    exact .clear context

/-- A step that keeps the two tables in agreement meets the condition. -/
theorem Runtime.Consistent.keepsIds (h : s.Consistent) (hstep : EventStep dir s input s')
    (hopen : AllOpen dir s input) (hne : s.contexts ≠ []) (h' : s'.Consistent) :
    KeepsIds dir s input := by
  constructor
  · intro module hadds
    obtain ⟨hids, henabled, hlength⟩ := hadds.ids h hstep hopen
    have hne' : s'.contexts ≠ [] := by
      rw [← List.length_pos_iff] at hne ⊢
      omega
    have hsame := (consistent_iff hids hne').mp h'
    rw [henabled, enabledIds_eq _ module.name] at hsame
    exact (insert_union_eq_iff _ _ _).mp hsame
  · intro module hremoves
    obtain rfl := Except.ok.inj (hremoves.handleInputEvent_eq.symm.trans hstep)
    obtain ⟨hids, henabled⟩ := remove_ids module h
    have hne' : (s.remove module).contexts ≠ [] := by
      intro hnil
      exact hne (List.map_eq_nil_iff.mp hnil)
    have hsame := (consistent_iff hids hne').mp h'
    rw [henabled, enabledIds_eq _ module.name] at hsame
    exact (union_diff_singleton_eq_iff _ _ _).mp hsame

end Step

/-- In every run of events whose modules all open and whose steps meet the condition, the contexts
hold exactly the enabled ids in every state; and a step from such a state breaks the agreement as
soon as it does not meet the condition. -/
theorem consistent_of_keepsIds (dir : Bytes) :
    (∀ (start s : Runtime Handle) (inputs : List (Input Handle)), start.Consistent →
      Run (Guarded (Guarded (EventStep dir) (AllOpen dir)) (KeepsIds dir)) start inputs s →
        s.Consistent) ∧
    ∀ (s s' : Runtime Handle) (input : Input Handle), s.contexts ≠ [] → s.Consistent →
      Guarded (EventStep dir) (AllOpen dir) s input s' →
        (s'.Consistent ↔ KeepsIds dir s input) := by
  constructor
  · intro start s inputs hstart hrun
    refine hrun.invariant (I := fun _ s => s.Consistent) hstart ?_
    rintro _ s input s' hconsistent ⟨⟨hstep, hopen⟩, hkeeps⟩
    exact hconsistent.step hstep hopen hkeeps
  · rintro s s' input hne hconsistent ⟨hstep, hopen⟩
    exact ⟨hconsistent.keepsIds hstep hopen hne, hconsistent.step hstep hopen⟩

/-- The enabled ids are read off the entries of the dictionary. -/
theorem mem_enabledIds_iff (modules : ModuleConfigDict) (id : UInt64) :
    id ∈ enabledIds modules ↔
      ∃ entry ∈ modules.toList, entry.2.enable = true ∧ entry.2.id = id := by
  constructor
  · rintro ⟨key, entry, hentry, hid⟩
    exact ⟨(key, entry), Std.ExtTreeMap.mem_toList_iff_getElem?_eq_some.mpr hentry, hid⟩
  · rintro ⟨⟨key, entry⟩, hmem, hid⟩
    exact ⟨key, entry, Std.ExtTreeMap.mem_toList_iff_getElem?_eq_some.mp hmem, hid⟩

instance (modules : ModuleConfigDict) (id : UInt64) : Decidable (id ∈ enabledIds modules) :=
  decidable_of_iff _ (mem_enabledIds_iff modules id).symm

/-- A process with one parser thread and no module. -/
def oneContext : Runtime ℕ where
  contexts := [.new 0 1023]
  config := {}
  written := {}

/-- An event for the module `http` under this protocol number; every context opens the module. -/
def httpInput (subtype : EventSubtype) (protocolType : String) : Input ℕ where
  event := some {
    type := .parser
    subtype := subtype
    args := [(oakProtocolType, ascii protocolType), (oakFileName, ascii "http.so"),
      (oakTaskId, ascii "1")] }
  loads i := .loaded moduleTypeParser (2 ^ 16) 0 i

/-- The state after the given inputs, if the process is still alive. -/
def stateAfter (s : Runtime ℕ) (inputs : List (Input ℕ)) : Runtime ℕ :=
  (inputs.foldlM (handleInputEvent []) s).toOption.getD s

/-- The two tables of a process without modules agree. -/
theorem oneContext_consistent : oneContext.Consistent := by
  intro context hmem id
  obtain rfl := List.mem_singleton.mp hmem
  have hnone : id ∉ enabledIds oneContext.modules := by
    rintro ⟨key, entry, hentry, _⟩
    simp [oneContext, Runtime.modules] at hentry
  simp [ParserContext.new, hnone]

/-- The process after the module is added as protocol 6. -/
def httpAdded : Runtime ℕ := stateAfter oneContext [httpInput .add "6"]

/-- The process after the module is then updated to protocol 7. -/
def httpUpdated : Runtime ℕ := stateAfter httpAdded [httpInput .update "7"]

/-- Adding the module succeeds in the only context. -/
theorem httpAdded_step :
    Guarded (EventStep []) (AllOpen []) oneContext (httpInput .add "6") httpAdded := by
  refine ⟨rfl, ?_⟩
  rintro module ⟨event, hevent, _, _, hmodule⟩
  cases hevent
  cases hmodule
  decide

/-- Updating the module succeeds in the only context. -/
theorem httpUpdated_step :
    Guarded (EventStep []) (AllOpen []) httpAdded (httpInput .update "7") httpUpdated := by
  refine ⟨rfl, ?_⟩
  rintro module ⟨event, hevent, _, _, hmodule⟩
  cases hevent
  cases hmodule
  decide

/-- Adding a module to an empty configuration keeps the tables in agreement. -/
theorem consistent_of_keepsIds_http :
    Run (Guarded (Guarded (EventStep []) (AllOpen [])) (KeepsIds [])) oneContext
        [httpInput .add "6"] httpAdded ∧ httpAdded.Consistent ∧
      (httpAdded.Consistent ↔ KeepsIds [] oneContext (httpInput .add "6")) := by
  have hkeeps : KeepsIds [] oneContext (httpInput .add "6") := by
    constructor
    · rintro module _ id ⟨entry, hentry, _⟩
      simp [oneContext, Runtime.modules] at hentry
    · rintro module ⟨event, hevent, _, hsubtype, _⟩
      cases hevent
      cases hsubtype
  have hrun : Run (Guarded (Guarded (EventStep []) (AllOpen [])) (KeepsIds [])) oneContext
      [httpInput .add "6"] httpAdded := .single ⟨httpAdded_step, hkeeps⟩
  refine ⟨hrun, ?_, ?_⟩
  · exact (consistent_of_keepsIds []).1 oneContext httpAdded _ oneContext_consistent hrun
  · exact (consistent_of_keepsIds []).2 oneContext httpAdded _ (by simp [oneContext])
      oneContext_consistent httpAdded_step

/-- An update that gives a module another number leaves the old number live in the context. -/
theorem consistent_fails_when_id_changes :
    ¬ ∀ (start s : Runtime ℕ) (inputs : List (Input ℕ)), start.Consistent →
      Run (Guarded (EventStep []) (AllOpen [])) start inputs s → s.Consistent := by
  intro hall
  have hrun : Run (Guarded (EventStep []) (AllOpen [])) oneContext
      ([httpInput .add "6"] ++ [httpInput .update "7"]) httpUpdated :=
    .snoc (.single httpAdded_step) httpUpdated_step
  have hconsistent := hall oneContext httpUpdated _ oneContext_consistent hrun
  have hlive : ∃ context ∈ httpUpdated.contexts, (6 : UInt64) ∈ context.handles := by
    decide +kernel
  have hgone : (6 : UInt64) ∉ enabledIds httpUpdated.modules := by
    decide +kernel
  obtain ⟨context, hcontext, hid⟩ := hlive
  exact hgone ((hconsistent context hcontext 6).1.mp hid)

end Demos.Oak
