import Demos.Lib.CompareExchange
import Mathlib.Tactic.FinCases

/-!
# Logic numbers of threads

`System::GetLogicThreadId` initialises a variable of the calling thread by `GetLogicThreadIdImpl`,
which draws a number from `max_logic_thread_id` and repeats its exchange until it succeeds. Later
calls return the variable.
-/

namespace Demos.Oak

open Demos.Lib
open Demos.Lib.CompareExchange (Label State)

variable {n : ℕ}

/-- `GetLogicThreadIdImpl`, one atomic operation at a time. -/
def getLogicThreadIdImpl : State (Fin n) Int32 → CompareExchange.Action (Fin n) →
    Option (Label (Fin n) Int32 × State (Fin n) Int32) :=
  CompareExchange.next (fun exchanged => !exchanged) (· + 1)

/-- `System::GetLogicThreadId`, once the variable of the thread is initialised. -/
def getLogicThreadId (s : State (Fin n) Int32) (t : Fin n) : Option Int32 := s.result t

/-- `n` threads before their first call; `max_logic_thread_id` is zero. -/
def logicThreads (n : ℕ) : State (Fin n) Int32 := CompareExchange.initial 0

/-- The numbers are distinct, and the first `n` when all threads have one. The counter never
decreases. -/
theorem getLogicThreadId_spec (n : ℕ) (hn : n < 2 ^ 31) (labels : List (Label (Fin n) Int32))
    (s : State (Fin n) Int32) (hrun : Run (Moves getLogicThreadIdImpl) (logicThreads n) labels s) :
    (∀ t t' id, getLogicThreadId s t = some id → getLogicThreadId s t' = some id → t = t') ∧
      ((∀ t, (getLogicThreadId s t).isSome) →
        ∀ i : ℤ, (∃ t id, getLogicThreadId s t = some id ∧ id.toInt = i) ↔ 0 ≤ i ∧ i < n) ∧
      ∀ more s', Run (Moves getLogicThreadIdImpl) s more s' → s.counter ≤ s'.counter := by
  have hrecords : CompareExchange.Records (· + 1) 0 labels s := .of_run rfl hrun
  have hwon : ∀ won ∈ (CompareExchange.outcomes labels).dropLast, won = true := fun won hmem =>
    CompareExchange.outcomes_of_retry rfl rfl hrun won (List.dropLast_subset _ hmem)
  have hcard : Fintype.card (Fin n) < 2 ^ 31 := by rwa [Fintype.card_fin]
  have hinj := CompareExchange.injOn_iterate hcard
  refine ⟨(hrecords.distinct_iff hinj).mpr hwon, fun hall => ?_, ?_⟩
  · have hfirst := (hrecords.first_iff hinj hall).mpr hwon
    rw [Fintype.card_fin] at hfirst
    exact (CompareExchange.drawsBelow_iff hn).mpr hfirst
  · intro more s' hmore
    exact hrecords.counter_le (.of_run rfl (hrun.append hmore)) hcard

/-- Two threads load zero, and the exchange of the second one succeeds when it is repeated. -/
theorem getLogicThreadId_spec_two :
    ∃ labels s, Run (Moves getLogicThreadIdImpl) (logicThreads 2) labels s ∧
      ∀ i : ℤ, (∃ t id, getLogicThreadId s t = some id ∧ id.toInt = i) ↔ 0 ≤ i ∧ i < 2 := by
  have hexec : (exec getLogicThreadIdImpl (logicThreads 2)
      [.load 0, .load 1, .exchange 0, .exchange 1, .exchange 1]).map
        (fun r => (getLogicThreadId r.2 0, getLogicThreadId r.2 1)) = some (some 0, some 1) := by
    decide
  obtain ⟨labels, s, hrun, hresult⟩ := exists_run_of_exec hexec
  obtain ⟨hzero, hone⟩ := Prod.mk.inj hresult
  have hall : ∀ t, (getLogicThreadId s t).isSome := by
    intro t
    fin_cases t <;> simp [hzero, hone]
  exact ⟨labels, s, hrun, (getLogicThreadId_spec 2 (by decide) labels s hrun).2.1 hall⟩

end Demos.Oak
