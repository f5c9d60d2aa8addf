import Demos.Lib.Run
import Demos.Lib.Scan
import Mathlib.Algebra.Order.Ring.Int

/-!
# Waiting longer after each failure

A loop counts its failures up to a limit and waits for that long after each of them. If a success
sets the counter back, the time is the number of failures in a row. If a success leaves the counter
as it is, the time is the number of all failures, which is another one as soon as a failure follows
a success that follows a failure.
-/

namespace Demos.Lib.Backoff

/-- What happens in a turn of the loop: a success, or a failure and the time that is waited then. -/
inductive Turn
  | hit
  | miss (slept : ℕ)
deriving DecidableEq, Repr

/-- A turn that failed. -/
def Turn.isMiss : Turn → Bool
  | .hit => false
  | .miss _ => true

/-- The counter after a failure. -/
def countUp (limit errors : ℕ) : ℕ := if errors < limit then errors + 1 else errors

/-- A turn as the counter sees it; `restore` is what a success does to it. -/
inductive Step (limit : ℕ) (restore : ℕ → ℕ) : ℕ → Turn → ℕ → Prop
  | hit (errors : ℕ) : Step limit restore errors .hit (restore errors)
  | miss (errors : ℕ) :
      Step limit restore errors (.miss (countUp limit errors)) (countUp limit errors)

/-- The failures since the last success. -/
def streak (turns : List Turn) : ℕ :=
  turns.foldl (fun count turn => if turn.isMiss then count + 1 else 0) 0

/-- All failures. -/
def failures (turns : List Turn) : ℕ := turns.countP Turn.isMiss

/-- Each failure is waited for as long as there are failures in a row, up to the limit. -/
def Proportional (limit : ℕ) (turns : List Turn) : Prop :=
  ∀ before n after, turns = before ++ .miss n :: after → n = min limit (streak before + 1)

variable {limit errors n : ℕ} {restore : ℕ → ℕ} {turn : Turn} {turns before after : List Turn}

section Counting

theorem streak_hit (turns : List Turn) : streak (turns ++ [.hit]) = 0 := by
  simp [streak, Turn.isMiss]

theorem streak_miss (turns : List Turn) (n : ℕ) :
    streak (turns ++ [.miss n]) = streak turns + 1 := by
  simp [streak, Turn.isMiss]

theorem failures_hit (turns : List Turn) : failures (turns ++ [.hit]) = failures turns := by
  simp [failures, Turn.isMiss]

theorem failures_miss (turns : List Turn) (n : ℕ) :
    failures (turns ++ [.miss n]) = failures turns + 1 := by
  simp [failures, Turn.isMiss]

theorem countUp_min (limit k : ℕ) : countUp limit (min limit k) = min limit (k + 1) := by
  rw [countUp]
  split <;> omega

/-- Successes leave no streak. -/
theorem streak_append_hits (hhits : ∀ turn ∈ after, turn.isMiss = false) :
    streak (before ++ .hit :: after) = 0 := by
  induction after using List.reverseRecOn with
  | nil => exact streak_hit before
  | append_singleton after turn _ =>
    have hlast : turn = .hit := by
      cases turn with
      | hit => rfl
      | miss n => exact absurd (hhits (.miss n) (by simp)) (by simp [Turn.isMiss])
    rw [hlast, ← List.cons_append, ← List.append_assoc, streak_hit]

/-- All failures are in a row, unless a success came in between. -/
theorem failures_eq_streak_or (turns : List Turn) :
    failures turns = streak turns ∨
      ∃ before after m, turns = before ++ .hit :: after ∧ .miss m ∈ before := by
  induction turns using List.reverseRecOn with
  | nil => exact .inl rfl
  | append_singleton turns turn ih =>
    cases turn with
    | hit =>
      by_cases hnone : ∃ m, .miss m ∈ turns
      · obtain ⟨m, hm⟩ := hnone
        exact .inr ⟨turns, [], m, rfl, hm⟩
      · refine .inl ?_
        rw [failures_hit, streak_hit, failures, List.countP_eq_zero]
        intro turn hturn
        cases turn with
        | hit => simp [Turn.isMiss]
        | miss m => exact absurd ⟨m, hturn⟩ hnone
    | miss n =>
      rcases ih with heq | ⟨before, after, m, rfl, hm⟩
      · exact .inl (by rw [failures_miss, streak_miss, heq])
      · exact .inr ⟨before, after ++ [.miss n], m, by simp, hm⟩

end Counting

section Runs

/-- A counter that is set back holds the streak. -/
theorem eq_streak (hrun : Run (Step limit fun _ => 0) 0 turns errors) :
    errors = min limit (streak turns) := by
  refine hrun.invariant (I := fun turns errors => errors = min limit (streak turns))
    (Nat.min_zero limit).symm ?_
  rintro turns errors turn errors' rfl hstep
  cases hstep with
  | hit => rw [streak_hit, Nat.min_zero]
  | miss => rw [streak_miss, countUp_min]

/-- A counter that is not set back holds all failures. -/
theorem eq_failures (hrun : Run (Step limit id) 0 turns errors) :
    errors = min limit (failures turns) := by
  refine hrun.invariant (I := fun turns errors => errors = min limit (failures turns))
    (Nat.min_zero limit).symm ?_
  rintro turns errors turn errors' rfl hstep
  cases hstep with
  | hit => rw [failures_hit, id]
  | miss => rw [failures_miss, countUp_min]

/-- The time that is waited is the counter after the failure. -/
theorem slept_of_run (hrun : Run (Step limit restore) 0 (before ++ .miss n :: after) errors) :
    ∃ errors', Run (Step limit restore) 0 before errors' ∧ n = countUp limit errors' := by
  obtain ⟨errors', hbefore, hrest⟩ := hrun.split
  obtain ⟨_, hstep, -⟩ := hrest.head
  cases hstep with
  | miss => exact ⟨errors', hbefore, rfl⟩

/-- A loop that sets its counter back waits in proportion. -/
theorem proportional_of_reset (hrun : Run (Step limit fun _ => 0) 0 turns errors) :
    Proportional limit turns := by
  rintro before n after rfl
  obtain ⟨errors', hbefore, rfl⟩ := slept_of_run hrun
  rw [eq_streak hbefore, countUp_min]

/-- A loop that does not set its counter back waits in proportion if and only if no failure follows
a success that follows a failure. -/
theorem proportional_iff_of_kept (hlimit : 2 ≤ limit) (hrun : Run (Step limit id) 0 turns errors) :
    Proportional limit turns ↔
      ∀ first second n after, turns = first ++ .hit :: (second ++ .miss n :: after) →
        ∀ m, .miss m ∉ first := by
  constructor
  · rintro hproportional first second n after rfl m hm
    -- the first failure after the success ends a streak of one
    obtain ⟨hits, rest, hcut, hhits, hstops⟩ := exists_cut Turn.isMiss (second ++ .miss n :: after)
    cases rest with
    | nil =>
      rw [List.append_nil] at hcut
      have hmiss : Turn.isMiss (.miss n) = false := hhits _ (hcut ▸ by simp)
      cases hmiss
    | cons turn rest =>
      cases turn with
      | hit => cases hstops .hit rfl
      | miss k =>
        have hsplit : first ++ .hit :: (second ++ .miss n :: after) =
            (first ++ .hit :: hits) ++ .miss k :: rest := by simp [hcut]
        have hright := hproportional _ _ _ hsplit
        rw [streak_append_hits hhits] at hright
        rw [hsplit] at hrun
        obtain ⟨errors', hbefore, hslept⟩ := slept_of_run hrun
        have hfailed : 0 < failures (first ++ .hit :: hits) :=
          List.countP_pos_iff.mpr ⟨.miss m, by simp [hm], rfl⟩
        rw [eq_failures hbefore, countUp_min] at hslept
        omega
  · rintro hnone before n after rfl
    obtain ⟨errors', hbefore, rfl⟩ := slept_of_run hrun
    rw [eq_failures hbefore, countUp_min]
    rcases failures_eq_streak_or before with heq | ⟨first, second, m, rfl, hm⟩
    · rw [heq]
    · exact absurd hm (hnone first second _ after (List.append_assoc ..) m)

end Runs

section Loops

variable {S I : Type*}

/-- The next turn of the loop with an input, or something else that goes on meanwhile. -/
inductive LoopAction (S I : Type*)
  | iterate (input : I)
  | meanwhile (s : S)

/-- A loop with a counter that nobody else changes. -/
def loopNext (iterate : S → I → S) (hits : S → I → Bool) (counter : S → ℕ) (s : S) :
    LoopAction S I → Option (Option Turn × S)
  | .iterate input =>
    let s' := iterate s input
    some (some (if hits s input then .hit else .miss (counter s')), s')
  | .meanwhile s' => if counter s' = counter s then some (none, s') else none

/-- The turns of a run. -/
def turnsOf (labels : List (Option Turn)) : List Turn := labels.filterMap id

variable {iterate : S → I → S} {hits : S → I → Bool} {counter : S → ℕ} {s s' : S}
  {labels : List (Option Turn)}

/-- A step of the loop is a turn, or keeps the counter. -/
theorem loopNext_cases {label : Option Turn}
    (h : Moves (loopNext iterate hits counter) s label s') :
    (∃ input, s' = iterate s input ∧
      label = some (if hits s input then .hit else .miss (counter s'))) ∨
    label = none ∧ counter s' = counter s := by
  obtain ⟨action, haction⟩ := h
  cases action with
  | iterate input =>
    cases haction
    exact .inl ⟨input, rfl, rfl⟩
  | meanwhile s₁ =>
    simp only [loopNext] at haction
    split at haction
    next hkept =>
      cases haction
      exact .inr ⟨rfl, hkept⟩
    next => cases haction

/-- The counter of a loop makes the turns of the loop. -/
theorem counter_run (hhit : ∀ s input, hits s input = true →
      counter (iterate s input) = restore (counter s))
    (hmiss : ∀ s input, hits s input = false →
      counter (iterate s input) = countUp limit (counter s))
    (hzero : counter s = 0) (hrun : Run (Moves (loopNext iterate hits counter)) s labels s') :
    Run (Step limit restore) 0 (turnsOf labels) (counter s') := by
  suffices hsim : ∃ errors, Run (Step limit restore) 0 (turnsOf labels) errors ∧
      errors = counter s' by
    obtain ⟨errors, hspec, rfl⟩ := hsim
    exact hspec
  refine hrun.simulation (R := fun _ s errors => errors = counter s) id hzero.symm ?_ ?_
  · rintro labels s _ label s' rfl hmove hsilent
    rcases loopNext_cases hmove with ⟨input, -, rfl⟩ | ⟨-, hkept⟩
    · cases hsilent
    · exact hkept.symm
  · rintro labels s _ label s' turn rfl hmove hvisible
    refine ⟨counter s', ?_, rfl⟩
    rcases loopNext_cases hmove with ⟨input, rfl, rfl⟩ | ⟨rfl, -⟩
    · cases hvisible
      cases hturn : hits s input with
      | true =>
        rw [hhit s input hturn]
        exact .hit _
      | false =>
        rw [hmiss s input hturn]
        exact .miss _
    · cases hvisible

end Loops

end Demos.Lib.Backoff
