import Demos.Lib.Run
import Mathlib.Algebra.Order.Ring.Int
import Mathlib.Data.List.Basic

/-!
# A timer that is set again when it fires

A loop reads a clock and fires when the reading is behind the time that is due. Then the next time
is due one interval after the reading. So two readings at which the timer fires are more than the
interval apart, and at a reading that is more than the interval after the last one it fires. There
is only one interval for which this is so.
-/

namespace Demos.Lib

/-- A reading of the clock, and whether the timer fires then. -/
structure Reading where
  now : ℕ
  fired : Bool
deriving DecidableEq, Repr

/-- The timer reads the clock. The state is the time that is due. -/
inductive TimerStep (interval : ℕ) : ℕ → Reading → ℕ → Prop
  | fire (due now : ℕ) : due < now → TimerStep interval due ⟨now, true⟩ (now + interval)
  | wait (due now : ℕ) : now ≤ due → TimerStep interval due ⟨now, false⟩ due

/-- The last reading at which the timer fired. -/
def lastFired (readings : List Reading) : Option ℕ :=
  (readings.filter Reading.fired).getLast?.map Reading.now

/-- The timer fires at readings that are more than the interval apart, and at each that is more than
the interval after the last one or the start. -/
def KeepsInterval (interval : ℤ) (start : ℕ) (readings : List Reading) : Prop :=
  ∀ before reading after, readings = before ++ reading :: after →
    (reading.fired = true → ∀ earlier ∈ lastFired before, interval < reading.now - (earlier : ℤ)) ∧
    (interval < reading.now - ((lastFired before).getD start : ℤ) → reading.fired = true)

/-- The clock does not go back. -/
def NonDecreasing (start : ℕ) (readings : List Reading) : Prop :=
  (start :: readings.map Reading.now).Pairwise (· ≤ ·)

variable {interval start due : ℕ} {reading : Reading} {readings : List Reading}

/-- The time of a reading decides what the timer does. -/
theorem TimerStep.eq_of_now_eq {reading' : Reading} {due₁ due₂ : ℕ}
    (h : TimerStep interval due reading due₁) (h' : TimerStep interval due reading' due₂)
    (hnow : reading.now = reading'.now) : reading = reading' ∧ due₁ = due₂ := by
  cases h with
  | fire now hdue =>
    cases h' with
    | fire now' =>
      obtain rfl : now = now' := hnow
      exact ⟨rfl, rfl⟩
    | wait now' hwait =>
      obtain rfl : now = now' := hnow
      exact absurd hdue (Nat.not_lt.mpr hwait)
  | wait now hwait =>
    cases h' with
    | fire now' hdue =>
      obtain rfl : now = now' := hnow
      exact absurd hdue (Nat.not_lt.mpr hwait)
    | wait now' =>
      obtain rfl : now = now' := hnow
      exact ⟨rfl, rfl⟩

/-- One more reading. -/
theorem lastFired_concat (readings : List Reading) (reading : Reading) :
    lastFired (readings ++ [reading]) =
      if reading.fired then some reading.now else lastFired readings := by
  rw [lastFired, List.filter_append]
  split
  next hfired => simp [hfired]
  next hwait => simp [hwait, lastFired]

/-- The time that is due is one interval after the last one. -/
theorem due_eq (hrun : Run (TimerStep interval) (start + interval) readings due) :
    due = (lastFired readings).getD start + interval := by
  refine hrun.invariant
    (I := fun readings due => due = (lastFired readings).getD start + interval) rfl ?_
  intro readings due reading due' ih hstep
  rw [lastFired_concat]
  cases hstep with
  | fire now hdue => rfl
  | wait now hdue => exact ih

/-- The timer keeps its interval. -/
theorem keepsInterval_of_run (hrun : Run (TimerStep interval) (start + interval) readings due) :
    KeepsInterval interval start readings := by
  rintro before reading after rfl
  obtain ⟨mid, hbefore, hafter⟩ := hrun.split
  obtain ⟨due', hstep, -⟩ := hafter.head
  have hmid : mid = (lastFired before).getD start + interval := due_eq hbefore
  cases hstep with
  | fire now hdue =>
    refine ⟨fun _ earlier hearlier => ?_, fun _ => rfl⟩
    rw [Option.mem_def.mp hearlier, Option.getD_some] at hmid
    dsimp only
    omega
  | wait now hdue =>
    refine ⟨fun hfired => absurd hfired Bool.false_ne_true, fun hlate => ?_⟩
    dsimp only at hlate
    omega

/-- A clock that is read once, before the interval is over. -/
theorem run_wait (now : ℕ) (h : now ≤ start + interval) :
    Run (TimerStep interval) (start + interval) [⟨now, false⟩] (start + interval) :=
  .single (.wait _ _ h)

/-- A clock that is read twice, as soon as the timer fires. -/
theorem run_fire_twice (interval start : ℕ) :
    Run (TimerStep interval) (start + interval)
      [⟨start + interval + 1, true⟩, ⟨start + 2 * (interval + 1), true⟩]
      (start + 2 * (interval + 1) + interval) :=
  (Run.single (.fire _ _ (by omega))).snoc (.fire _ _ (by omega))

theorem nonDecreasing_single (h : start ≤ reading.now) : NonDecreasing start [reading] :=
  .cons (fun _ hx => List.mem_singleton.mp hx ▸ h) (List.pairwise_singleton _ _)

/-- Two readings. -/
theorem nonDecreasing_pair {reading' : Reading} (h : start ≤ reading.now)
    (h' : reading.now ≤ reading'.now) : NonDecreasing start [reading, reading'] := by
  refine .cons (fun x hx => ?_) (nonDecreasing_single h')
  rcases List.mem_cons.mp hx with rfl | hx
  · exact h
  · exact List.mem_singleton.mp hx ▸ h.trans h'

/-- There is no other interval that the timer keeps, if the clock may show any time that is not
before the last one. -/
theorem keepsInterval_iff (interval : ℕ) (expected : ℤ) :
    (∀ start readings due, Run (TimerStep interval) (start + interval) readings due →
      NonDecreasing start readings → KeepsInterval expected start readings) ↔
    expected = interval := by
  constructor
  · intro hkeeps
    rcases lt_trichotomy expected interval with hshort | heq | hlong
    · -- the timer still waits when the expected interval is over
      have hwait := hkeeps 0 _ _ (run_wait (expected + 1).toNat (by omega))
        (nonDecreasing_single (Nat.zero_le _)) [] _ [] rfl
      have hlate : expected < ((expected + 1).toNat : ℤ) - (0 : ℕ) := by omega
      exact absurd (hwait.2 hlate) (by simp)
    · exact heq
    · -- the timer fires again before the expected interval is over
      have hfire := hkeeps 0 _ _ (run_fire_twice interval 0)
        (nonDecreasing_pair (Nat.zero_le _) (by dsimp only; omega)) [⟨0 + interval + 1, true⟩] _ []
        rfl
      have hearly := hfire.1 rfl (0 + interval + 1) rfl
      dsimp only at hearly
      omega
  · rintro rfl start readings due hrun -
    exact keepsInterval_of_run hrun

end Demos.Lib
