import Demos.Lib.Run
import Demos.Oak.Event.Effects

/-!
# Atomicity of adding a module

`HandleInputEvent` opens an added module in one context after the other and stops at the first
failure. The contexts before the failure keep the new module, so the event is all or nothing
exactly when the first context is the one that fails or when none does.
-/

namespace Demos.Oak

open Demos.Lib

variable {Handle : Type} {dir : Bytes} {module : ModuleConfig} {s s' : Runtime Handle}
  {loads : ℕ → LoadOutcome Handle}

/-- The objects that the factory allocates are none of those a context already holds. -/
def FreshObjects (s : Runtime Handle) (module : ModuleConfig)
    (loads : ℕ → LoadOutcome Handle) : Prop :=
  ∀ i context object, s.contexts[i]? = some context →
    openParser module (loads i) = some object → ∀ id : UInt64, context.handles[id]? ≠ some object

/-- Either every context opens the module, or already the first one does not. -/
def AllOrFirst (s : Runtime Handle) (module : ModuleConfig) (loads : ℕ → LoadOutcome Handle) :
    Prop :=
  (∀ i < s.contexts.length, Opens module (loads i)) ∨ ¬ Opens module (loads 0)

/-- If some context does not open the module, then nothing that the event works on changes. -/
def AllOrNothing (s s' : Runtime Handle) (module : ModuleConfig)
    (loads : ℕ → LoadOutcome Handle) : Prop :=
  (∃ i < s.contexts.length, ¬ Opens module (loads i)) →
    s'.contexts.map ParserContext.tables = s.contexts.map ParserContext.tables ∧
      s'.modules = s.modules

/-- Every context has the same ids in its two tables. -/
def Runtime.SameIds (s : Runtime Handle) : Prop :=
  ∃ ids, ∀ context ∈ s.contexts, context.HoldsIds ids

/-- A step that adds a module meets the condition on the outcomes of its contexts. -/
def AddsAllOrFirst (dir : Bytes) (s : Runtime Handle) (input : Input Handle) : Prop :=
  ∀ module, AddsModule dir input module → AllOrFirst s module input.loads

/-- The event is not recorded exactly when some context does not open the module. -/
theorem Runtime.install_modules_of_failure (h : s.install module loads = .ok s')
    (hfail : ∃ i < s.contexts.length, ¬ Opens module (loads i)) : s'.modules = s.modules := by
  obtain ⟨success, contexts, hloop, _, hmodules⟩ := install_eq_ok h
  have hsuccess : ¬ success = true := by
    intro htrue
    obtain ⟨i, hi, hopens⟩ := hfail
    have hall := (updateContexts_success_iff hloop).mp htrue i hi
    rw [Nat.zero_add] at hall
    exact hopens hall
  rw [hmodules, if_neg hsuccess]

/-- A failure in the first context leaves the tables of every context as they were. -/
theorem Runtime.install_tables_of_first_failure (h : s.install module loads = .ok s')
    (hfirst : ¬ Opens module (loads 0)) :
    s'.contexts.map ParserContext.tables = s.contexts.map ParserContext.tables := by
  obtain ⟨success, contexts, hloop, rfl, _⟩ := install_eq_ok h
  cases hcontexts : s.contexts with
  | nil =>
    rw [hcontexts] at hloop
    obtain ⟨-, hnil⟩ := Prod.mk.inj (Except.ok.inj hloop)
    rw [← hnil]
  | cons context rest =>
    rw [hcontexts] at hloop
    exact (updateContexts_of_not_opens hfirst hloop).2

/-- A first context that opens the module holds the new object afterwards. -/
theorem Runtime.install_tables_ne_of_first_opens (h : s.install module loads = .ok s')
    (hfresh : FreshObjects s module loads) (hfirst : Opens module (loads 0))
    (hpos : 0 < s.contexts.length) :
    s'.contexts.map ParserContext.tables ≠ s.contexts.map ParserContext.tables := by
  obtain ⟨success, contexts, hloop, rfl, _⟩ := install_eq_ok h
  cases hcontexts : s.contexts with
  | nil => simp [hcontexts] at hpos
  | cons context rest =>
    rw [hcontexts] at hloop
    obtain ⟨tag, object, rest', hobject, _, hresult⟩ := updateContexts_of_opens hfirst hloop
    rw [hresult]
    intro hsame
    have htables := (List.cons.inj hsame).1
    have hhandles : (context.install module tag object).handles = context.handles :=
      congrArg Prod.fst htables
    have hold := hfresh 0 context object (by simp [hcontexts]) hobject module.id
    rw [← hhandles] at hold
    simp [ParserContext.install] at hold

/-- Adding a module is all or nothing exactly when no context or already the first one fails. -/
theorem Runtime.install_allOrNothing_iff (h : s.install module loads = .ok s')
    (hfresh : FreshObjects s module loads) :
    AllOrNothing s s' module loads ↔ AllOrFirst s module loads := by
  constructor
  · intro hatomic
    by_cases hall : ∀ i < s.contexts.length, Opens module (loads i)
    · exact .inl hall
    · push Not at hall
      obtain ⟨i, hi, hfail⟩ := hall
      refine .inr fun hfirst => ?_
      have hpos : 0 < s.contexts.length := by omega
      exact install_tables_ne_of_first_opens h hfresh hfirst hpos (hatomic ⟨i, hi, hfail⟩).1
  · rintro (hall | hfirst) hfail
    · obtain ⟨i, hi, hopens⟩ := hfail
      exact absurd (hall i hi) hopens
    · exact ⟨install_tables_of_first_failure h hfirst, install_modules_of_failure h hfail⟩

/-- Contexts with the same tables hold the same ids. -/
theorem forall_holdsIds_of_tables {contexts contexts' : List (ParserContext Handle)}
    {ids : Set UInt64}
    (h : contexts'.map ParserContext.tables = contexts.map ParserContext.tables)
    (hids : ∀ context ∈ contexts, context.HoldsIds ids) :
    ∀ context ∈ contexts', context.HoldsIds ids := by
  intro context' hmem
  have htables := List.mem_map_of_mem (f := ParserContext.tables) hmem
  rw [h, List.mem_map] at htables
  obtain ⟨context, hcontext, heq⟩ := htables
  obtain ⟨hhandles, htags⟩ := Prod.mk.inj heq
  intro id
  rw [← hhandles, ← htags]
  exact hids context hcontext id

/-- A step whose outcomes meet the condition keeps the ids of the contexts equal. -/
theorem Runtime.SameIds.step {input : Input Handle} (h : s.SameIds)
    (hstep : EventStep dir s input s') (hguard : AddsAllOrFirst dir s input) : s'.SameIds := by
  obtain ⟨ids, hids⟩ := h
  cases hstep.effect with
  | ignored => exact ⟨ids, hids⟩
  | @installed module _ hadds hinstall =>
    rcases hguard module hadds with hall | hfirst
    · have hinstalled := (install_of_opens hall hinstall).1
      exact ⟨_, forall_holdsIds_of_installed hinstalled hids⟩
    · have htables := install_tables_of_first_failure hinstall hfirst
      exact ⟨ids, forall_holdsIds_of_tables htables hids⟩
  | @removed module _ =>
    refine ⟨ids \ {module.id}, List.forall_mem_map.mpr fun context hcontext => ?_⟩
    exact (hids context hcontext).erase module.id
  | cleared _ =>
    refine ⟨∅, List.forall_mem_map.mpr fun context _ => ?_⟩
    exact .clear context

/-- Over every event and every vector of outcomes, adding a module is all or nothing exactly under
the condition; and over every run whose steps meet the condition, the contexts hold the same ids
in every state. -/
theorem handleInputEvent_allOrNothing (dir : Bytes) :
    (∀ (s s' : Runtime Handle) (input : Input Handle) (module : ModuleConfig),
      AddsModule dir input module → FreshObjects s module input.loads →
      EventStep dir s input s' →
        (AllOrNothing s s' module input.loads ↔ AllOrFirst s module input.loads)) ∧
    ∀ (start s : Runtime Handle) (inputs : List (Input Handle)), start.SameIds →
      Run (Guarded (EventStep dir) (AddsAllOrFirst dir)) start inputs s → s.SameIds := by
  constructor
  · intro s s' input module hadds hfresh hstep
    have hinstall : s.install module input.loads = .ok s' :=
      hadds.handleInputEvent_eq.symm.trans hstep
    exact Runtime.install_allOrNothing_iff hinstall hfresh
  · intro start s inputs hstart hrun
    refine hrun.invariant (I := fun _ s => s.SameIds) hstart ?_
    rintro _ s input s' hsame ⟨hstep, hguard⟩
    exact hsame.step hstep hguard

/-- The directory of the modules in the concrete runs. -/
def addonsDir : Bytes := ascii "/opt/oak/addons"

/-- An event that adds a parser for protocol 6. -/
def addHttp : IncomingEvent where
  type := .parser
  subtype := .add
  args := [(oakProtocolType, ascii "6"), (oakFileName, ascii "http.so"), (oakTaskId, ascii "1")]

/-- A process with two parser threads and no module. -/
def twoContexts : Runtime ℕ where
  contexts := [.new 0 1023, .new 1 1023]
  config := {}
  written := {}

/-- The module is opened in the first `opened` contexts only; the objects are numbered. -/
def openedBelow (opened : ℕ) : Input ℕ where
  event := some addHttp
  loads i := if i < opened then .loaded moduleTypeParser (2 ^ 16) 0 i else .dlopenFailed

/-- Two empty contexts hold the same ids. -/
theorem twoContexts_sameIds : twoContexts.SameIds := by
  refine ⟨∅, ?_⟩
  intro context hmem id
  simp only [twoContexts, List.mem_cons, List.not_mem_nil, or_false] at hmem
  rcases hmem with rfl | rfl <;> simp [ParserContext.new]

/-- The objects are fresh in contexts that hold none. -/
theorem twoContexts_fresh (module : ModuleConfig) (loads : ℕ → LoadOutcome ℕ) :
    FreshObjects twoContexts module loads := by
  intro i context object hcontext _ id
  have hmem := List.mem_of_getElem? hcontext
  simp only [twoContexts, List.mem_cons, List.not_mem_nil, or_false] at hmem
  rcases hmem with rfl | rfl <;> simp [ParserContext.new]

theorem openedBelow_addsModule (opened : ℕ) :
    ∃ module, AddsModule addonsDir (openedBelow opened) module :=
  ⟨_, addHttp, rfl, rfl, .inl rfl, rfl⟩

/-- Both contexts open the module, and the run with this one event keeps their ids equal. -/
theorem handleInputEvent_allOrNothing_http :
    ∃ s' module, EventStep addonsDir twoContexts (openedBelow 2) s' ∧
      (AllOrNothing twoContexts s' module (openedBelow 2).loads ↔
        AllOrFirst twoContexts module (openedBelow 2).loads) ∧ s'.SameIds := by
  obtain ⟨s', hstep⟩ : ∃ s', EventStep addonsDir twoContexts (openedBelow 2) s' := ⟨_, rfl⟩
  obtain ⟨module, hadds⟩ := openedBelow_addsModule 2
  have hguard : AddsAllOrFirst addonsDir twoContexts (openedBelow 2) := by
    rintro module ⟨event, hevent, _, _, hmodule⟩
    cases hevent
    cases hmodule
    left
    decide
  have hrun : Run (Guarded (EventStep addonsDir) (AddsAllOrFirst addonsDir)) twoContexts
      [openedBelow 2] s' := .single ⟨hstep, hguard⟩
  refine ⟨s', module, hstep, ?_, ?_⟩
  · exact (handleInputEvent_allOrNothing addonsDir).1 twoContexts s' (openedBelow 2) module hadds
      (twoContexts_fresh module _) hstep
  · exact (handleInputEvent_allOrNothing addonsDir).2 twoContexts s' [openedBelow 2]
      twoContexts_sameIds hrun

/-- After the module is opened in the first context only, the contexts hold different ids. -/
theorem openedBelow_one_result :
    (handleInputEvent addonsDir twoContexts (openedBelow 1)).toOption.map (fun s =>
      (s.contexts.map fun context => context.handles.keys, s.modules.keys)) =
      some ([[6], []], []) := by
  decide +kernel

/-- A failure behind the first context leaves the module in the contexts before it. -/
theorem handleInputEvent_fails_behind_first :
    ¬ ∀ (s s' : Runtime ℕ) (input : Input ℕ) (module : ModuleConfig), s.SameIds →
      AddsModule addonsDir input module → FreshObjects s module input.loads →
      EventStep addonsDir s input s' → AllOrNothing s s' module input.loads := by
  intro hall
  obtain ⟨s', hstep⟩ : ∃ s', EventStep addonsDir twoContexts (openedBelow 1) s' := ⟨_, rfl⟩
  obtain ⟨module, hadds⟩ := openedBelow_addsModule 1
  have hatomic := hall twoContexts s' (openedBelow 1) module twoContexts_sameIds hadds
    (twoContexts_fresh module _) hstep
  have hfail : ¬ Opens module ((openedBelow 1).loads 1) := by
    simp [Opens, openParser, openedBelow, cppParserHandleFactory]
  have htables := (hatomic ⟨1, by decide, hfail⟩).1
  have hresult := openedBelow_one_result
  rw [show handleInputEvent addonsDir twoContexts (openedBelow 1) = .ok s' from hstep] at hresult
  simp only [Except.toOption, Option.map_some, Option.some.injEq, Prod.mk.injEq] at hresult
  have hkeys := congrArg (List.map fun tables => tables.1.keys) htables
  simp only [List.map_map] at hkeys
  have hsame : (s'.contexts.map fun context => context.handles.keys) =
      twoContexts.contexts.map fun context => context.handles.keys := hkeys
  rw [hresult.1] at hsame
  revert hsame
  decide

end Demos.Oak
