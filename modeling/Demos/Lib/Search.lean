import Mathlib.Algebra.Order.Ring.Int
import Mathlib.Order.Bounds.Basic
import Mathlib.Tactic.Common

/-!
# Searches with 64-bit positions

A search tests one position after another, upwards or downwards, until a test succeeds or the
positions end. Positions are unsigned 64-bit numbers, and a test may fail where it reads what does
not exist. The number of tests is bounded; a search that is cut off or whose test fails has no
outcome. Otherwise the outcome is the first position that passed, or none.
-/

namespace Demos.Lib

/-- The outcome is the extreme position of a set, or none for the empty set. -/
def Finds (extreme : Set ℕ → ℕ → Prop) (positions : Set ℕ) : Option UInt64 → Prop
  | none => positions = ∅
  | some i => extreme positions i.toNat

/-- The loop `for (; continues(pos); ++pos) if (test(pos)) return pos;`. -/
def searchUp (continues : UInt64 → Bool) (test : UInt64 → Option Bool) :
    ℕ → UInt64 → Option (Option UInt64)
  | 0, _ => none
  | fuel + 1, pos =>
    if continues pos then do
      if ← test pos then some (some pos) else searchUp continues test fuel (pos + 1)
    else some none

/-- The loop `for (; pos > 0; --pos) if (test(pos - 1)) return pos - 1;`. -/
def searchDown (test : UInt64 → Option Bool) : ℕ → UInt64 → Option (Option UInt64)
  | 0, _ => none
  | fuel + 1, pos =>
    if 0 < pos then do
      if ← test (pos - 1) then some (some (pos - 1)) else searchDown test fuel (pos - 1)
    else some none

/-- The loop `do { if (test(pos)) return pos; } while (pos-- > 0);`. -/
def searchBack (test : UInt64 → Option Bool) : ℕ → UInt64 → Option (Option UInt64)
  | 0, _ => none
  | fuel + 1, pos => do
    if ← test pos then some (some pos)
    else if 0 < pos then searchBack test fuel (pos - 1) else some none

variable {test : UInt64 → Option Bool} {P : ℕ → Prop} [DecidablePred P] {fuel : ℕ} {pos : UInt64}

/-- The position before a positive one. -/
theorem toNat_sub_one (hpos : 0 < pos) : (pos - 1).toNat + 1 = pos.toNat := by
  have hlt : 0 < pos.toNat := UInt64.lt_iff_toNat_lt.mp hpos
  have hle : 1 ≤ pos := UInt64.le_iff_toNat_le.mpr hlt
  rw [UInt64.toNat_sub_of_le _ _ hle, UInt64.toNat_one]
  omega

/-- A search upwards finds the least position from its start on. -/
theorem searchUp_finds {continues : UInt64 → Bool} {stop : ℕ} (hstop : stop < 2 ^ 64)
    (hcontinues : ∀ i, continues i = true ↔ i.toNat < stop)
    (htest : ∀ i, i.toNat < stop → test i = some (decide (P i.toNat)))
    (hfuel : stop - pos.toNat < fuel) :
    ∃ r, searchUp continues test fuel pos = some r ∧
      Finds IsLeast {i | pos.toNat ≤ i ∧ i < stop ∧ P i} r := by
  induction fuel generalizing pos with
  | zero => omega
  | succ fuel ih =>
    by_cases hlt : pos.toNat < stop
    · have hgo := (hcontinues pos).mpr hlt
      have hnext : (pos + 1).toNat = pos.toNat + 1 := by
        rw [UInt64.toNat_add, UInt64.toNat_one]
        omega
      by_cases hP : P pos.toNat
      · refine ⟨some pos, ?_, ⟨le_rfl, hlt, hP⟩, fun i hi => hi.1⟩
        simp [searchUp, hgo, htest pos hlt, hP]
      · obtain ⟨r, hr, hfinds⟩ := @ih (pos + 1) (by omega)
        have hset : {i | pos.toNat ≤ i ∧ i < stop ∧ P i} =
            {i | (pos + 1).toNat ≤ i ∧ i < stop ∧ P i} := by
          ext i
          grind
        refine ⟨r, ?_, hset ▸ hfinds⟩
        simp [searchUp, hgo, htest pos hlt, hP, hr]
    · have hstay : continues pos = false := by simpa using (hcontinues pos).not.mpr hlt
      refine ⟨none, by simp [searchUp, hstay], ?_⟩
      ext i
      grind

/-- A search downwards finds the greatest position before its start. -/
theorem searchDown_finds (htest : ∀ i, i.toNat < pos.toNat → test i = some (decide (P i.toNat)))
    (hfuel : pos.toNat < fuel) :
    ∃ r, searchDown test fuel pos = some r ∧ Finds IsGreatest {i | i < pos.toNat ∧ P i} r := by
  induction fuel generalizing pos with
  | zero => omega
  | succ fuel ih =>
    by_cases hpos : 0 < pos
    · have hprev := toNat_sub_one hpos
      have hhere := htest (pos - 1) (by omega)
      by_cases hP : P (pos - 1).toNat
      · refine ⟨some (pos - 1), ?_, ⟨by omega, hP⟩, fun i hi => ?_⟩
        · simp [searchDown, hpos, hhere, hP]
        · have := hi.1
          omega
      · obtain ⟨r, hr, hfinds⟩ := @ih (pos - 1) (fun i hi => htest i (by omega)) (by omega)
        have hset : {i | i < pos.toNat ∧ P i} = {i | i < (pos - 1).toNat ∧ P i} := by
          ext i
          grind
        refine ⟨r, ?_, hset ▸ hfinds⟩
        simp [searchDown, hpos, hhere, hP, hr]
    · have hzero : ¬ 0 < pos.toNat := fun hlt => hpos (UInt64.lt_iff_toNat_lt.mpr hlt)
      refine ⟨none, by simp [searchDown, hpos], ?_⟩
      ext i
      grind

/-- A search backwards finds the greatest position up to its start. -/
theorem searchBack_finds (htest : ∀ i, i.toNat ≤ pos.toNat → test i = some (decide (P i.toNat)))
    (hfuel : pos.toNat < fuel) :
    ∃ r, searchBack test fuel pos = some r ∧ Finds IsGreatest {i | i ≤ pos.toNat ∧ P i} r := by
  induction fuel generalizing pos with
  | zero => omega
  | succ fuel ih =>
    have hhere := htest pos le_rfl
    by_cases hP : P pos.toNat
    · refine ⟨some pos, ?_, ⟨le_rfl, hP⟩, fun i hi => hi.1⟩
      simp [searchBack, hhere, hP]
    · by_cases hpos : 0 < pos
      · have hprev := toNat_sub_one hpos
        obtain ⟨r, hr, hfinds⟩ := @ih (pos - 1) (fun i hi => htest i (by omega)) (by omega)
        have hset : {i | i ≤ pos.toNat ∧ P i} = {i | i ≤ (pos - 1).toNat ∧ P i} := by
          ext i
          grind
        refine ⟨r, ?_, hset ▸ hfinds⟩
        simp [searchBack, hhere, hP, hpos, hr]
      · have hzero : ¬ 0 < pos.toNat := fun hlt => hpos (UInt64.lt_iff_toNat_lt.mpr hlt)
        refine ⟨none, by simp [searchBack, hhere, hP, hpos], ?_⟩
        ext i
        grind

end Demos.Lib
