import Demos.Oak.Event.Model
import Mathlib.Data.Set.Insert

/-!
# Effects of an incoming event

What one call of `HandleInputEvent` can do, said once: which module an event adds or removes,
what the loop over the contexts leaves behind, and how the ids held by a context change.
-/

namespace Demos.Oak

open Demos.Lib

variable {Handle : Type} {dir : Bytes} {module : ModuleConfig} {s s' : Runtime Handle}
  {input : Input Handle}

/-- `ParserHandleFactory` opens the module for this outcome of the loader. -/
def Opens (module : ModuleConfig) (load : LoadOutcome Handle) : Prop :=
  (openParser module load).isSome

instance (module : ModuleConfig) (load : LoadOutcome Handle) : Decidable (Opens module load) :=
  inferInstanceAs (Decidable (_ = true))

/-- The input is an `ADD` or `UPDATE` event for this module. -/
def AddsModule (dir : Bytes) (input : Input Handle) (module : ModuleConfig) : Prop :=
  ∃ event, input.event = some event ∧ event.type = .parser ∧
    (event.subtype = .add ∨ event.subtype = .update) ∧
    eventToParserModuleConfig dir event = .ok module

/-- The input is a `REMOVE` event for this module. -/
def RemovesModule (dir : Bytes) (input : Input Handle) (module : ModuleConfig) : Prop :=
  ∃ event, input.event = some event ∧ event.type = .parser ∧ event.subtype = .remove ∧
    eventToParserModuleConfig dir event = .ok module

/-- The input is a `CLEAR` event. -/
def ClearsModules (input : Input Handle) : Prop :=
  ∃ event, input.event = some event ∧ event.type = .parser ∧ event.subtype = .clear

/-- Everything a call of `HandleInputEvent` can do. -/
inductive EventEffect (dir : Bytes) (s : Runtime Handle) (input : Input Handle) :
    Runtime Handle → Prop
  | ignored : EventEffect dir s input s
  | installed {module : ModuleConfig} {s' : Runtime Handle} (hadds : AddsModule dir input module)
      (hinstall : s.install module input.loads = .ok s') : EventEffect dir s input s'
  | removed {module : ModuleConfig} (hremoves : RemovesModule dir input module) :
      EventEffect dir s input (s.remove module)
  | cleared (hclears : ClearsModules input) : EventEffect dir s input s.clear

/-- A call of `HandleInputEvent` that returns has one of these effects. -/
theorem EventStep.effect (h : EventStep dir s input s') : EventEffect dir s input s' := by
  unfold EventStep handleInputEvent at h
  cases hevent : input.event with
  | none =>
    simp only [hevent, Except.ok.injEq] at h
    exact h ▸ .ignored
  | some event =>
    simp only [hevent] at h
    by_cases htype : event.type = .parser
    · rw [if_pos htype, Runtime.dispatch] at h
      cases hsub : event.subtype with
      | add =>
        simp only [hsub, bind_eq_ok_iff] at h
        obtain ⟨module, hmodule, hinstall⟩ := h
        exact .installed ⟨event, hevent, htype, .inl hsub, hmodule⟩ hinstall
      | update =>
        simp only [hsub, bind_eq_ok_iff] at h
        obtain ⟨module, hmodule, hinstall⟩ := h
        exact .installed ⟨event, hevent, htype, .inr hsub, hmodule⟩ hinstall
      | remove =>
        simp only [hsub, bind_eq_ok_iff] at h
        obtain ⟨module, hmodule, hremove⟩ := h
        cases hremove
        exact .removed ⟨event, hevent, htype, hsub, hmodule⟩
      | clear =>
        simp only [hsub] at h
        cases h
        exact .cleared ⟨event, hevent, htype, hsub⟩
      | unknown code =>
        simp only [hsub] at h
        cases h
        exact .ignored
    · rw [if_neg htype, Except.ok.injEq] at h
      exact h ▸ .ignored

/-- The call for an event that adds a module runs the installing branch. -/
theorem AddsModule.handleInputEvent_eq (h : AddsModule dir input module) :
    handleInputEvent dir s input = s.install module input.loads := by
  obtain ⟨event, hevent, htype, hsub, hmodule⟩ := h
  unfold handleInputEvent Runtime.dispatch
  rcases hsub with hsub | hsub <;> simp only [hevent, htype, hsub, hmodule, if_true] <;> rfl

/-- The call for an event that removes a module runs the removing branch. -/
theorem RemovesModule.handleInputEvent_eq (h : RemovesModule dir input module) :
    handleInputEvent dir s input = .ok (s.remove module) := by
  obtain ⟨event, hevent, htype, hsub, hmodule⟩ := h
  unfold handleInputEvent Runtime.dispatch
  simp only [hevent, htype, hsub, hmodule, if_true]
  rfl

/-- The tables that the parser thread of a context looks modules up in. -/
def ParserContext.tables (context : ParserContext Handle) :
    Std.ExtTreeMap UInt64 Handle × Std.ExtTreeMap UInt64 ProtocolTag :=
  (context.handles, context.tags)

@[simp]
theorem ParserContext.tables_openFailed (context : ParserContext Handle) (module : ModuleConfig)
    (tag : ProtocolTag) : (context.openFailed module tag).tables = context.tables := by
  unfold openFailed
  split <;> rfl

/-- `UpdateParser` on a module that the context opens. -/
theorem updateParser_of_opens {context context' : ParserContext Handle}
    {load : LoadOutcome Handle} {updated : Bool} (hopens : Opens module load)
    (h : updateParser context module load = .ok (updated, context')) :
    updated = true ∧ ∃ tag object, openParser module load = some object ∧
      context' = context.install module tag object := by
  obtain ⟨object, hobject⟩ := Option.isSome_iff_exists.mp hopens
  simp only [updateParser, parserHandleFactory, bind_eq_ok_iff, assert_eq_ok_iff] at h
  obtain ⟨tag, _, _, ⟨_, _, hopened⟩, hresult⟩ := h
  cases hopened
  simp only [hobject] at hresult
  cases hresult
  exact ⟨rfl, tag, object, hobject, rfl⟩

/-- `UpdateParser` on a module that the context does not open. -/
theorem updateParser_of_not_opens {context context' : ParserContext Handle}
    {load : LoadOutcome Handle} {updated : Bool} (hopens : ¬ Opens module load)
    (h : updateParser context module load = .ok (updated, context')) :
    updated = false ∧ context'.tables = context.tables := by
  have hnone : openParser module load = none := by simpa [Opens] using hopens
  simp only [updateParser, parserHandleFactory, bind_eq_ok_iff, assert_eq_ok_iff] at h
  obtain ⟨tag, _, _, ⟨_, _, hopened⟩, hresult⟩ := h
  cases hopened
  simp only [hnone] at hresult
  cases hresult
  exact ⟨rfl, context.tables_openFailed module tag⟩

/-- The second context results from installing the module in the first one. -/
def Installed (module : ModuleConfig) (context context' : ParserContext Handle) : Prop :=
  ∃ tag object, context' = context.install module tag object

section Loop

variable {loads : ℕ → LoadOutcome Handle} {context : ParserContext Handle}
  {rest contexts contexts' : List (ParserContext Handle)} {i : ℕ} {success : Bool}

/-- A loop whose first context opens the module installs it there and goes on. -/
theorem updateContexts_of_opens (hopens : Opens module (loads i))
    (h : updateContexts module loads i (context :: rest) = .ok (success, contexts')) :
    ∃ tag object rest', openParser module (loads i) = some object ∧
      updateContexts module loads (i + 1) rest = .ok (success, rest') ∧
      contexts' = context.install module tag object :: rest' := by
  simp only [updateContexts, bind_eq_ok_iff] at h
  obtain ⟨⟨updated, context'⟩, hupdate, h⟩ := h
  obtain ⟨rfl, tag, object, hobject, rfl⟩ := updateParser_of_opens hopens hupdate
  simp only [if_true, bind_eq_ok_iff] at h
  obtain ⟨⟨success', rest'⟩, hrest, h⟩ := h
  cases h
  exact ⟨tag, object, rest', hobject, hrest, rfl⟩

/-- A loop whose first context does not open the module ends there. -/
theorem updateContexts_of_not_opens (hopens : ¬ Opens module (loads i))
    (h : updateContexts module loads i (context :: rest) = .ok (success, contexts')) :
    success = false ∧ contexts'.map ParserContext.tables =
      (context :: rest).map ParserContext.tables := by
  simp only [updateContexts, bind_eq_ok_iff] at h
  obtain ⟨⟨updated, context'⟩, hupdate, h⟩ := h
  obtain ⟨rfl, htables⟩ := updateParser_of_not_opens hopens hupdate
  simp only [Bool.false_eq_true, if_false] at h
  cases h
  exact ⟨rfl, by simp [htables]⟩

/-- The loop succeeds exactly when every context opens the module. -/
theorem updateContexts_success_iff
    (h : updateContexts module loads i contexts = .ok (success, contexts')) :
    success = true ↔ ∀ j < contexts.length, Opens module (loads (i + j)) := by
  induction contexts generalizing i contexts' with
  | nil =>
    obtain ⟨rfl, -⟩ := Prod.mk.inj (Except.ok.inj h)
    simp
  | cons context rest ih =>
    by_cases hopens : Opens module (loads i)
    · obtain ⟨_, _, rest', _, hrest, _⟩ := updateContexts_of_opens hopens h
      rw [ih hrest]
      constructor
      · intro hall j hj
        cases j with
        | zero => exact hopens
        | succ j =>
          have hnext := hall j (by simpa using hj)
          rwa [show i + 1 + j = i + (j + 1) by omega] at hnext
      · intro hall j hj
        have hnext := hall (j + 1) (by simpa using hj)
        rwa [show i + (j + 1) = i + 1 + j by omega] at hnext
    · obtain ⟨rfl, _⟩ := updateContexts_of_not_opens hopens h
      simp only [Bool.false_eq_true, false_iff]
      intro hall
      exact hopens (hall 0 (by simp))

/-- A loop that succeeds installs the module in every context. -/
theorem updateContexts_installed
    (h : updateContexts module loads i contexts = .ok (true, contexts')) :
    List.Forall₂ (Installed module) contexts contexts' := by
  induction contexts generalizing i contexts' with
  | nil =>
    obtain ⟨-, rfl⟩ := Prod.mk.inj (Except.ok.inj h)
    exact .nil
  | cons context rest ih =>
    have hopens : Opens module (loads i) :=
      (updateContexts_success_iff h).mp rfl 0 (by simp)
    obtain ⟨tag, object, rest', _, hrest, rfl⟩ := updateContexts_of_opens hopens h
    exact .cons ⟨tag, object, rfl⟩ (ih hrest)

end Loop

/-- What the installing branch leaves, in terms of the loop. -/
theorem Runtime.install_eq_ok {s s' : Runtime Handle} {loads : ℕ → LoadOutcome Handle}
    (h : s.install module loads = .ok s') :
    ∃ success contexts, updateContexts module loads 0 s.contexts = .ok (success, contexts) ∧
      s'.contexts = contexts ∧
      s'.modules = if success then s.modules.insert module.name module else s.modules := by
  simp only [install, bind_eq_ok_iff] at h
  obtain ⟨⟨success, contexts⟩, hloop, h⟩ := h
  cases h
  refine ⟨success, contexts, hloop, ?_, ?_⟩
  · cases success <;> rfl
  · cases success <;> rfl

/-- If every context opens the module, it is installed everywhere and recorded under its name. -/
theorem Runtime.install_of_opens {s s' : Runtime Handle} {loads : ℕ → LoadOutcome Handle}
    (hopens : ∀ i < s.contexts.length, Opens module (loads i))
    (h : s.install module loads = .ok s') :
    List.Forall₂ (Installed module) s.contexts s'.contexts ∧
      s'.modules = s.modules.insert module.name module := by
  obtain ⟨success, contexts, hloop, hcontexts, hmodules⟩ := install_eq_ok h
  obtain rfl : success = true := (updateContexts_success_iff hloop).mpr (by simpa using hopens)
  exact ⟨hcontexts ▸ updateContexts_installed hloop, hmodules⟩

/-- The context has exactly these ids in both of its tables. -/
def ParserContext.HoldsIds (context : ParserContext Handle) (ids : Set UInt64) : Prop :=
  ∀ id, (id ∈ context.handles ↔ id ∈ ids) ∧ (id ∈ context.tags ↔ id ∈ ids)

section Ids

variable {context : ParserContext Handle} {ids : Set UInt64}

/-- Two descriptions of the ids of one context agree. -/
theorem ParserContext.HoldsIds.unique {ids' : Set UInt64} (h : context.HoldsIds ids)
    (h' : context.HoldsIds ids') : ids = ids' := by
  ext id
  exact (h id).1.symm.trans (h' id).1

/-- Installing a module adds its id. -/
theorem ParserContext.HoldsIds.install (h : context.HoldsIds ids) (module : ModuleConfig)
    (tag : ProtocolTag) (object : Handle) :
    (context.install module tag object).HoldsIds (insert module.id ids) := by
  intro id
  simp only [ParserContext.install, Std.ExtTreeMap.mem_insert, Std.compare_eq_iff_eq, (h id).1,
    (h id).2, Set.mem_insert_iff, and_self]
  rw [@eq_comm _ module.id]

/-- Erasing a module removes its id. -/
theorem ParserContext.HoldsIds.erase (h : context.HoldsIds ids) (id : UInt64) :
    (context.erase id).HoldsIds (ids \ {id}) := by
  intro id'
  simp only [ParserContext.erase, Std.ExtTreeMap.mem_erase, (h id').1, (h id').2, ne_eq,
    Std.compare_eq_iff_eq, Set.mem_sdiff, Set.mem_singleton_iff]
  constructor <;> tauto

/-- A cleared context holds no id. -/
theorem ParserContext.HoldsIds.clear (context : ParserContext Handle) :
    context.clear.HoldsIds ∅ := by
  intro id
  simp [ParserContext.clear]

/-- If every context holds the same ids, then so do the contexts with the module installed. -/
theorem forall_holdsIds_of_installed {contexts contexts' : List (ParserContext Handle)}
    (h : List.Forall₂ (Installed module) contexts contexts')
    (hids : ∀ context ∈ contexts, context.HoldsIds ids) :
    ∀ context ∈ contexts', context.HoldsIds (insert module.id ids) := by
  induction h with
  | nil => simp
  | cons hinstalled _ ih =>
    obtain ⟨tag, object, rfl⟩ := hinstalled
    simp only [List.forall_mem_cons] at hids ⊢
    exact ⟨hids.1.install module tag object, ih hids.2⟩

end Ids

end Demos.Oak
