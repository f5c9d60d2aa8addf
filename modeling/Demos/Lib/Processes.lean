import Demos.Lib.Run
import Mathlib.Data.List.Count
import Mathlib.Logic.Function.Basic
import Mathlib.Data.Nat.Init
import Mathlib.Tactic.Common

/-!
# Processes that share a state

Every process has a local state and takes its steps on it and on the state that all of them share. A
process that has no step has stopped. A run is any interleaving; its labels say whose step it was.
What the steps keep is proved for one process and holds along every interleaving, and a number that
each step lowers bounds the steps of a process whatever the others do. A process that is bounded so
can also run to its end while the others wait.
-/

namespace Demos.Lib

/-- The shared state and the local state of every process. -/
@[ext]
structure Processes (S L T : Type*) where
  shared : S
  locals : T → L

variable {S L T : Type*} [DecidableEq T] {step : S → L → Option (S × L)} {s s' : Processes S L T}
  {t : T} {labels : List T}

/-- The process takes its next step. -/
def Processes.next (step : S → L → Option (S × L)) (s : Processes S L T) (t : T) :
    Option (T × Processes S L T) :=
  (step s.shared (s.locals t)).map fun r => (t, ⟨r.1, Function.update s.locals t r.2⟩)

/-- The steps of the processes, in any order. -/
def Interleaved (step : S → L → Option (S × L)) :
    Processes S L T → T → Processes S L T → Prop := Moves (Processes.next step)

/-- A step changes the shared state and one process. -/
theorem interleaved_iff : Interleaved step s t s' ↔
    ∃ g l, step s.shared (s.locals t) = some (g, l) ∧ s' = ⟨g, Function.update s.locals t l⟩ := by
  simp only [Interleaved, Moves, Processes.next, Option.map_eq_some_iff, Prod.mk.injEq]
  constructor
  · rintro ⟨u, ⟨g, l⟩, hstep, rfl, rfl⟩
    exact ⟨g, l, hstep, rfl⟩
  · rintro ⟨g, l, hstep, rfl⟩
    exact ⟨t, (g, l), hstep, rfl, rfl⟩

/-- A property of the shared state that every step keeps, and one of a process that its own steps
and those of the others keep, hold along a run. -/
theorem Run.process {I : S → Prop} {J : S → L → Prop} (t : T) (hshared : I s.shared)
    (hlocal : J s.shared (s.locals t))
    (hkeep : ∀ g l g' l', I g → step g l = some (g', l') → I g' ∧ ∀ m, J g m → J g' m)
    (hown : ∀ g l g' l', I g → J g l → step g l = some (g', l') → J g' l')
    (hrun : Run (Interleaved step) s labels s') : I s'.shared ∧ J s'.shared (s'.locals t) := by
  refine hrun.invariant (I := fun _ u => I u.shared ∧ J u.shared (u.locals t))
    ⟨hshared, hlocal⟩ ?_
  rintro - u v u' ⟨hI, hJ⟩ hmove
  obtain ⟨g, l, hnext, rfl⟩ := interleaved_iff.mp hmove
  obtain ⟨hI', hothers⟩ := hkeep _ _ _ _ hI hnext
  refine ⟨hI', ?_⟩
  by_cases hv : t = v
  · subst hv
    simpa using hown _ _ _ _ hI hJ hnext
  · simpa [Function.update_of_ne hv] using hothers _ hJ

section Bound

variable {bound : L → ℕ} (hbound : ∀ g l g' l', step g l = some (g', l') → bound l' < bound l)
include hbound

/-- A process takes no more steps than the bound at its start. -/
theorem Run.count_le (hrun : Run (Interleaved step) s labels s') (t : T) :
    labels.count t + bound (s'.locals t) ≤ bound (s.locals t) := by
  refine hrun.invariant
    (I := fun labels u => labels.count t + bound (u.locals t) ≤ bound (s.locals t)) (by simp) ?_
  intro labels u v u' ih hmove
  obtain ⟨g, l, hnext, rfl⟩ := interleaved_iff.mp hmove
  rw [List.count_append, List.count_singleton]
  by_cases hv : v = t
  · subst hv
    have hlower := hbound _ _ _ _ hnext
    simp only [beq_self_eq_true, if_true, Function.update_self]
    omega
  · simpa [hv, Function.update_of_ne (Ne.symm hv)] using ih

/-- A process can run until it stops while the others wait. -/
theorem exists_run_alone (s : Processes S L T) (t : T) :
    ∃ labels s', Run (Interleaved step) s labels s' ∧ step s'.shared (s'.locals t) = none ∧
      ∀ u, u ≠ t → s'.locals u = s.locals u := by
  induction hn : bound (s.locals t) using Nat.strong_induction_on generalizing s with
  | _ n ih =>
    subst hn
    cases hnext : step s.shared (s.locals t) with
    | none => exact ⟨[], s, .nil, hnext, fun _ _ => rfl⟩
    | some r =>
      obtain ⟨g, l⟩ := r
      have hmove : Interleaved step s t ⟨g, Function.update s.locals t l⟩ :=
        interleaved_iff.mpr ⟨g, l, hnext, rfl⟩
      obtain ⟨labels, s', hrun, hstop, hothers⟩ :=
        ih (bound l) (hbound _ _ _ _ hnext) ⟨g, Function.update s.locals t l⟩ (by simp)
      refine ⟨[t] ++ labels, s', (Run.single hmove).append hrun, hstop, fun u hu => ?_⟩
      exact (hothers u hu).trans (Function.update_of_ne hu _ _)

end Bound

end Demos.Lib
