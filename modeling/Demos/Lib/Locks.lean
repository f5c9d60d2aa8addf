import Mathlib.Data.Option.Basic
import Mathlib.Logic.Function.Basic

/-!
# Locks

Where a thread is says which locks it is inside of. A family of locks guards the threads if every
lock is taken by the thread that is inside of it and free if none is; then two threads are never
inside of one lock. Taking a free lock, giving back a taken one and every step that neither enters
nor leaves keep it so.
-/

namespace Demos.Lib

variable {L T : Type*} {locks : L → Option T} {inside inside' : T → L → Prop} {t u : T} {l : L}

/-- A lock is taken by the thread that is inside of it. -/
def Guards (locks : L → Option T) (inside : T → L → Prop) : Prop :=
  ∀ l t, locks l = some t ↔ inside t l

theorem Guards.unique (h : Guards locks inside) (ht : inside t l) (hu : inside u l) : t = u :=
  Option.some.inj (((h l t).mpr ht).symm.trans ((h l u).mpr hu))

theorem Guards.congr (h : Guards locks inside) (heq : ∀ t l, inside' t l ↔ inside t l) :
    Guards locks inside' := fun l t => (h l t).trans (heq t l).symm

variable [DecidableEq L]

/-- A thread takes a free lock. -/
theorem Guards.acquire (h : Guards locks inside) (hfree : locks l = none)
    (hinside : ∀ u m, inside' u m ↔ inside u m ∨ u = t ∧ m = l) :
    Guards (Function.update locks l (some t)) inside' := by
  intro m u
  rw [hinside]
  by_cases hm : m = l
  · subst hm
    have hout : ¬ inside u m := by
      rw [← h m u, hfree]
      exact Option.not_mem_none u
    simp [hout, eq_comm]
  · simp [hm, h m u]

/-- A thread gives back its lock. -/
theorem Guards.release (h : Guards locks inside) (ht : inside t l)
    (hinside : ∀ u m, inside' u m ↔ inside u m ∧ ¬ (u = t ∧ m = l)) :
    Guards (Function.update locks l none) inside' := by
  intro m u
  rw [hinside]
  by_cases hm : m = l
  · subst hm
    simp only [Function.update_self, reduceCtorEq, false_iff, and_true, not_and, not_not]
    exact fun hu => h.unique hu ht
  · simp [hm, h m u]

end Demos.Lib
