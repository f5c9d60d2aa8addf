import Mathlib.Data.List.Basic
import Mathlib.Tactic.Common

/-!
# Calls that move part of what they are asked to

A call that moves elements is interrupted, fails, or moves some of them, at least one if there is
any. It is repeated while it is interrupted. A receiver that calls until nothing is left puts the
pieces together again, whatever their sizes are; it needs no more calls that move something than
there are elements, and one that finds the end.
-/

namespace Demos.Lib

variable {α : Type*}

/-- What a call does: one that moves elements moves at most `k + 1` of them. -/
inductive Transfer where
  | interrupted
  | failed
  | moves (k : ℕ)
deriving DecidableEq, Repr

/-- The call moves elements. -/
def Transfer.isMoves : Transfer → Bool
  | .moves _ => true
  | _ => false

/-- Repeat the call while it is interrupted: the first other call, if there is any, and the calls
behind it. -/
def repeatInterrupted : List Transfer → Option (Option ℕ × List Transfer)
  | [] => none
  | .interrupted :: calls => repeatInterrupted calls
  | .failed :: calls => some (none, calls)
  | .moves k :: calls => some (some k, calls)

/-- Call for at most `size` elements of the rest until nothing is left. There is no result before
that, and none of the elements if a call fails. -/
def receiveAll (size : ℕ) : List Transfer → List α → List α → Option (Option (List α))
  | [], _, _ => none
  | .interrupted :: calls, rest, done => receiveAll size calls rest done
  | .failed :: _, _, _ => some none
  | .moves k :: calls, rest, done =>
    if rest = [] then some (some done)
    else
      receiveAll size calls (rest.drop (min (k + 1) size)) (done ++ rest.take (min (k + 1) size))

variable {size : ℕ} {calls : List Transfer} {rest done all : List α}

/-- The receiver repeats each of its calls while it is interrupted. -/
theorem receiveAll_eq (size : ℕ) (calls : List Transfer) (rest done : List α) :
    receiveAll size calls rest done = (repeatInterrupted calls).bind fun answer =>
      match answer.1 with
      | none => some none
      | some k =>
        if rest = [] then some (some done)
        else receiveAll size answer.2 (rest.drop (min (k + 1) size))
          (done ++ rest.take (min (k + 1) size)) := by
  induction calls with
  | nil => rfl
  | cons call calls ih =>
    cases call with
    | interrupted => exact ih
    | failed | moves => rfl

/-- What was received is all that was there. -/
theorem receiveAll_eq_some (h : receiveAll size calls rest done = some (some all)) :
    all = done ++ rest := by
  induction calls generalizing rest done with
  | nil => cases h
  | cons call calls ih =>
    cases call with
    | interrupted => exact ih h
    | failed => cases h
    | moves k =>
      rw [receiveAll] at h
      split at h
      next hnil =>
        rw [hnil, List.append_nil]
        exact (Option.some.inj (Option.some.inj h)).symm
      next => rw [ih h, List.append_assoc, List.take_append_drop]

/-- With enough calls and no failure all is received. -/
theorem receiveAll_returns (hsize : 0 < size) (hcalls : .failed ∉ calls)
    (henough : rest.length < calls.countP Transfer.isMoves) :
    receiveAll size calls rest done = some (some (done ++ rest)) := by
  induction calls generalizing rest done with
  | nil => exact absurd henough (Nat.not_lt_zero _)
  | cons call calls ih =>
    obtain ⟨hcall, hcalls'⟩ := List.ne_and_not_mem_of_not_mem_cons hcalls
    cases call with
    | interrupted => exact ih hcalls' (by simpa [Transfer.isMoves] using henough)
    | failed => exact absurd rfl hcall
    | moves k =>
      rw [receiveAll]
      split
      next hnil => rw [hnil, List.append_nil]
      next hne =>
        have hpos : 0 < rest.length := List.length_pos_iff.mpr hne
        have hleft : (rest.drop (min (k + 1) size)).length < calls.countP Transfer.isMoves := by
          rw [List.countP_cons_of_pos rfl] at henough
          rw [List.length_drop]
          omega
        rw [ih hcalls' hleft, List.append_assoc, List.take_append_drop]

end Demos.Lib
