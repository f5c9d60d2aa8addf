import Mathlib.Data.List.Induction

/-!
# Runs of labelled step relations

A run records the labels of its steps in order. Histories of a system are functions of that
label list, so an invariant may relate the current state to everything that happened before.
The two rules used throughout are the invariant rule and the forward simulation of a more
abstract step relation. Executable systems supply their steps by a partial function, and a
successful execution of an action list is a run.
-/

namespace Demos.Lib

variable {State Label Action : Type*}

/-- A finite run from `start`, with its labels in the order in which they occurred. -/
inductive Run (step : State → Label → State → Prop) (start : State) : List Label → State → Prop
  | nil : Run step start [] start
  | snoc {labels : List Label} {s s' : State} {label : Label} :
      Run step start labels s → step s label s' → Run step start (labels ++ [label]) s'

/-- Keep only the steps whose label meets a condition on the state before the step. -/
def Guarded (step : State → Label → State → Prop) (guard : State → Label → Prop) :
    State → Label → State → Prop :=
  fun s label s' => step s label s' ∧ guard s label

/-- The step relation of a partial transition function, whatever action is chosen. -/
def Moves (next : State → Action → Option (Label × State)) : State → Label → State → Prop :=
  fun s label s' => ∃ action, next s action = some (label, s')

variable {step : State → Label → State → Prop} {start s s' : State} {label : Label}
  {labels : List Label} {next : State → Action → Option (Label × State)} {actions : List Action}

/-- A property of history and state that every step preserves holds at the end of every run. -/
theorem Run.invariant {I : List Label → State → Prop} (hinit : I [] start)
    (hstep : ∀ labels s label s', I labels s → step s label s' → I (labels ++ [label]) s')
    (hrun : Run step start labels s) : I labels s := by
  induction hrun with
  | nil => exact hinit
  | snoc _ hlast ih => exact hstep _ _ _ _ ih hlast

theorem Run.mono {step' : State → Label → State → Prop}
    (h : ∀ s label s', step s label s' → step' s label s') (hrun : Run step start labels s) :
    Run step' start labels s := by
  induction hrun with
  | nil => exact .nil
  | snoc _ hlast ih => exact .snoc ih (h _ _ _ hlast)

/-- Runs compose. -/
theorem Run.append {more : List Label} (hfirst : Run step start labels s)
    (hnext : Run step s more s') : Run step start (labels ++ more) s' := by
  induction hnext with
  | nil => simpa using hfirst
  | snoc _ hlast ih =>
    rw [← List.append_assoc]
    exact .snoc ih hlast

theorem Run.single (h : step start label s) : Run step start [label] s := by
  simpa using Run.snoc Run.nil h

/-- A run without labels has not moved. -/
theorem Run.nil_eq (h : Run step start [] s) : s = start := by
  generalize hl : ([] : List Label) = labels at h
  cases h with
  | nil => rfl
  | snoc _ _ => simp at hl

/-- The last label of a run is a step from the state reached before it. -/
theorem Run.last (h : Run step start (labels ++ [label]) s') :
    ∃ s, Run step start labels s ∧ step s label s' := by
  generalize hl : labels ++ [label] = all at h
  cases h with
  | nil => simp at hl
  | snoc hrun hlast =>
    obtain ⟨rfl, hlabel⟩ := List.append_inj' hl rfl
    obtain rfl := List.singleton_inj.mp hlabel
    exact ⟨_, hrun, hlast⟩

/-- A run can be cut after any of its labels. -/
theorem Run.split {more : List Label} (h : Run step start (labels ++ more) s') :
    ∃ s, Run step start labels s ∧ Run step s more s' := by
  induction more using List.reverseRecOn generalizing s' with
  | nil => exact ⟨s', by simpa using h, .nil⟩
  | append_singleton more label ih =>
    rw [← List.append_assoc] at h
    obtain ⟨mid, hmid, hlast⟩ := h.last
    obtain ⟨s, hfirst, hrest⟩ := ih hmid
    exact ⟨s, hfirst, .snoc hrest hlast⟩

/-- The first label of a run is a step from its start. -/
theorem Run.head (h : Run step start (label :: labels) s') :
    ∃ s, step start label s ∧ Run step s labels s' := by
  have hcut : Run step start ([label] ++ labels) s' := h
  obtain ⟨s, hone, hrest⟩ := hcut.split
  have hfirst : Run step start ([] ++ [label]) s := hone
  obtain ⟨s₀, hnil, hlast⟩ := hfirst.last
  rw [hnil.nil_eq] at hlast
  exact ⟨s, hlast, hrest⟩

/-- Forward simulation: every concrete run is matched by a run of the specification on its
observable labels, and the simulation relation holds at the end. -/
theorem Run.simulation {Abstract Observation : Type*}
    {spec : Abstract → Observation → Abstract → Prop} {start' : Abstract}
    (observe : Label → Option Observation) {R : List Label → State → Abstract → Prop}
    (hinit : R [] start start')
    (hsilent : ∀ labels s a label s', R labels s a → step s label s' → observe label = none →
      R (labels ++ [label]) s' a)
    (hvisible : ∀ labels s a label s' o, R labels s a → step s label s' →
      observe label = some o → ∃ a', spec a o a' ∧ R (labels ++ [label]) s' a')
    (hrun : Run step start labels s) :
    ∃ a, Run spec start' (labels.filterMap observe) a ∧ R labels s a := by
  induction hrun with
  | nil => exact ⟨start', .nil, hinit⟩
  | @snoc labels s s' label _ hlast ih =>
    obtain ⟨a, hspec, hR⟩ := ih
    cases ho : observe label with
    | none =>
      refine ⟨a, ?_, hsilent _ _ _ _ _ hR hlast ho⟩
      simpa [List.filterMap_append, ho] using hspec
    | some o =>
      obtain ⟨a', hmove, hR'⟩ := hvisible _ _ _ _ _ _ hR hlast ho
      refine ⟨a', ?_, hR'⟩
      simpa [List.filterMap_append, ho] using Run.snoc hspec hmove

/-- If every step that counts lowers a rank and no other step raises it, no more steps count than
the rank allows. -/
theorem Run.countP_add_rank_le (I : State → Prop) (rank : State → ℕ) (counts : Label → Bool)
    (hstart : I start)
    (hstep : ∀ s label s', I s → step s label s' →
      I s' ∧ (if counts label then 1 else 0) + rank s' ≤ rank s)
    (hrun : Run step start labels s) :
    I s ∧ labels.countP counts + rank s ≤ rank start := by
  induction hrun with
  | nil => exact ⟨hstart, by simp⟩
  | snoc _ hlast ih =>
    obtain ⟨hI, hcount⟩ := ih
    obtain ⟨hI', hone⟩ := hstep _ _ _ hI hlast
    refine ⟨hI', ?_⟩
    rw [List.countP_append, List.countP_singleton]
    omega

/-- Execute a list of actions, collecting the labels of the steps taken. -/
def exec (next : State → Action → Option (Label × State)) :
    State → List Action → Option (List Label × State)
  | s, [] => some ([], s)
  | s, action :: rest =>
    match next s action with
    | none => none
    | some (label, s') => (exec next s' rest).map fun result => (label :: result.1, result.2)

/-- A successful execution is a run of the system's steps. -/
theorem exec_run (h : exec next s actions = some (labels, s')) : Run (Moves next) s labels s' := by
  induction actions generalizing s labels with
  | nil =>
    simp only [exec, Option.some.injEq, Prod.mk.injEq] at h
    obtain ⟨rfl, rfl⟩ := h
    exact .nil
  | cons action rest ih =>
    cases hnext : next s action with
    | none => simp [exec, hnext] at h
    | some result =>
      obtain ⟨label, mid⟩ := result
      simp only [exec, hnext, Option.map_eq_some_iff] at h
      obtain ⟨⟨tail, last⟩, htail, heq⟩ := h
      simp only [Prod.mk.injEq] at heq
      obtain ⟨rfl, rfl⟩ := heq
      exact (Run.single ⟨action, hnext⟩).append (ih htail)

/-- What a successful execution computes is observed at the end of some run. -/
theorem exists_run_of_exec {β : Type*} {f : List Label × State → β} {x : β}
    (h : (exec next s actions).map f = some x) :
    ∃ labels s', Run (Moves next) s labels s' ∧ f (labels, s') = x := by
  obtain ⟨⟨labels, s'⟩, hexec, hx⟩ := Option.map_eq_some_iff.mp h
  exact ⟨labels, s', exec_run hexec, hx⟩

/-- Take only the steps that meet a decidable condition on the state before the step. -/
def guardedNext (next : State → Action → Option (Label × State)) (guard : State → Label → Prop)
    [∀ s label, Decidable (guard s label)] (s : State) (action : Action) : Option (Label × State) :=
  (next s action).filter fun result => guard s result.1

/-- What a successful guarded execution computes is observed at the end of some run whose
steps all meet the condition. -/
theorem exists_guarded_run_of_exec {β : Type*} {guard : State → Label → Prop}
    [∀ s label, Decidable (guard s label)] {f : List Label × State → β} {x : β}
    (h : (exec (guardedNext next guard) s actions).map f = some x) :
    ∃ labels s', Run (Guarded (Moves next) guard) s labels s' ∧ f (labels, s') = x := by
  obtain ⟨labels, s', hrun, hx⟩ := exists_run_of_exec h
  refine ⟨labels, s', hrun.mono ?_, hx⟩
  intro u label u' hmove
  obtain ⟨action, hnext⟩ := hmove
  obtain ⟨hsome, hguard⟩ := Option.filter_eq_some_iff.mp hnext
  exact ⟨⟨action, hsome⟩, by simpa using hguard⟩

end Demos.Lib
