import Demos.Lib.CompareExchange
import Mathlib.Tactic.FinCases

/-!
# Numbers of threads that are not always distinct

`GetThreadIdImpl` of `thread_id.cc` closes the parenthesis of its compare-exchange before the two
memory orders. These belong to the condition of the loop, which is a comma expression with the value
`std::memory_order_relaxed`, and that is zero. The loop ends whatever the exchange did, and a call
whose exchange failed returns the value that it has found.
-/

namespace Demos.ThreadId

open Demos.Lib
open Demos.Lib.CompareExchange

/-- `std::memory_order`, an unscoped enumeration. -/
inductive MemoryOrder
  | relaxed
  | consume
  | acquire
  | release
  | acqRel
  | seqCst

/-- An enumerator as a condition: whether its value is not zero. -/
def MemoryOrder.toBool : MemoryOrder → Bool
  | .relaxed => false
  | _ => true

/-- The comma operator evaluates both operands and has the value of the second. -/
def comma {α β : Type*} (_ : α) (y : β) : β := y

/-- The condition of the loop of `GetThreadIdImpl`. -/
def loopCondition (exchanged : Bool) : Bool :=
  (comma (comma (!exchanged) MemoryOrder.acqRel) MemoryOrder.relaxed).toBool

/-- `GetThreadIdImpl`, one atomic operation at a time. -/
def getThreadIdImpl {n : ℕ} : State (Fin n) Int32 → Action (Fin n) →
    Option (Label (Fin n) Int32 × State (Fin n) Int32) :=
  next loopCondition (· + 1)

/-- `n` threads before their calls; `max_thread_id` is zero. -/
def threads (n : ℕ) : State (Fin n) Int32 := initial 0

/-- The numbers are distinct, and the first `n` when all calls have returned, if and only if no
exchange failed but in the last call that returned. -/
theorem getThreadIdImpl_distinct_iff (n : ℕ) (hn : n < 2 ^ 31) (labels : List (Label (Fin n) Int32))
    (s : State (Fin n) Int32) (hrun : Run (Moves getThreadIdImpl) (threads n) labels s) :
    (Distinct s ↔ ∀ won ∈ (outcomes labels).dropLast, won = true) ∧
      ((∀ t, (s.result t).isSome) →
        (DrawsBelow n s ↔ ∀ won ∈ (outcomes labels).dropLast, won = true)) := by
  have hrecords : Records (· + 1) 0 labels s := .of_run rfl hrun
  have hinj := injOn_iterate (n := Fintype.card (Fin n)) (by rwa [Fintype.card_fin])
  refine ⟨hrecords.distinct_iff hinj, fun hall => ?_⟩
  have hfirst := hrecords.first_iff hinj hall
  rw [Fintype.card_fin] at hfirst
  rw [drawsBelow_iff hn, hfirst]

/-- Two threads load zero. The exchange of the second one fails, and it returns what the first one
has left. -/
theorem getThreadIdImpl_distinct_iff_two :
    ∃ labels s, Run (Moves getThreadIdImpl) (threads 2) labels s ∧ Distinct s ∧ DrawsBelow 2 s := by
  have hexec : (exec getThreadIdImpl (threads 2)
      [.load 0, .load 1, .exchange 0, .exchange 1]).map
        (fun r => (outcomes r.1, r.2.result 0, r.2.result 1)) =
      some ([true, false], some 0, some 1) := by
    decide
  obtain ⟨labels, s, hrun, hresult⟩ := exists_run_of_exec hexec
  simp only [Prod.mk.injEq] at hresult
  obtain ⟨houtcomes, hzero, hone⟩ := hresult
  have hall : ∀ t, (s.result t).isSome := by
    intro t
    fin_cases t <;> simp [hzero, hone]
  have hwon : ∀ won ∈ (outcomes labels).dropLast, won = true := by simp [houtcomes]
  obtain ⟨hdistinct, hbelow⟩ := getThreadIdImpl_distinct_iff 2 (by decide) labels s hrun
  exact ⟨labels, s, hrun, hdistinct.mpr hwon, (hbelow hall).mpr hwon⟩

/-- A third thread that loads afterwards draws the number of the second one again. -/
theorem getThreadIdImpl_repeats :
    ∃ labels s, Run (Moves getThreadIdImpl) (threads 3) labels s ∧ (∀ t, (s.result t).isSome) ∧
      s.result 1 = some 1 ∧ s.result 2 = some 1 ∧ ¬ Distinct s ∧ ¬ DrawsBelow 3 s := by
  have hexec : (exec getThreadIdImpl (threads 3)
      [.load 0, .load 1, .exchange 0, .exchange 1, .load 2, .exchange 2]).map
        (fun r => (r.2.result 0, r.2.result 1, r.2.result 2)) = some (some 0, some 1, some 1) := by
    decide
  obtain ⟨labels, s, hrun, hresult⟩ := exists_run_of_exec hexec
  simp only [Prod.mk.injEq] at hresult
  obtain ⟨hzero, hone, htwo⟩ := hresult
  refine ⟨labels, s, hrun, ?_, hone, htwo, ?_, ?_⟩
  · intro t
    fin_cases t <;> simp [hzero, hone, htwo]
  · intro hdistinct
    exact absurd (hdistinct 1 2 1 hone htwo) (by decide)
  · -- nobody draws two
    intro hbelow
    have hdrawn : ∀ t, s.result t = some 0 ∨ s.result t = some 1 := by
      intro t
      fin_cases t
      exacts [.inl hzero, .inr hone, .inr htwo]
    obtain ⟨t, id, ht, hid⟩ := (hbelow 2).mpr (by decide)
    rcases hdrawn t with h | h
    all_goals
      obtain rfl := Option.some.inj (ht.symm.trans h)
      exact absurd hid (by decide)

end Demos.ThreadId
