import Demos.Lib.Backoff
import Demos.Oak.Worker.Model

/-!
# How long the loops sleep

After an iteration without a record a loop sleeps for as many seconds as its failure counter says.
The loops of the source and of the sink set the counter to zero when they obtain a record. The loop
of the parser does not, so that all failures since the start of the thread count.
-/

namespace Demos.Oak

open Demos.Lib
open Demos.Lib.Backoff

variable {Handle : Type}

/-- A record is obtained. -/
def Effect.isObtained : Effect → Bool
  | .obtained _ => true
  | _ => false

/-- The loop of `SourceThreadRoutine`; other threads change what the next iteration meets. -/
def sourceLoop : SourceThread → LoopAction SourceThread SourceInput →
    Option (Option Turn × SourceThread) :=
  loopNext (fun thread input => (sourceIterate thread input).2)
    (fun thread input => (sourceIterate thread input).1.any Effect.isObtained)
    SourceThread.errorCount

/-- The loop of `ParserThreadRoutine`; other threads fill the stream and change the context. -/
def parserLoop : ParserThread Handle → LoopAction (ParserThread Handle) ParserInput →
    Option (Option Turn × ParserThread Handle) :=
  loopNext (fun thread input => (parserIterate thread input).2)
    (fun thread input => (parserIterate thread input).1.any Effect.isObtained)
    ParserThread.errorCount

/-- The loop of `SinkThreadRoutine`; other threads fill the stream. -/
def sinkLoop : SinkThread → LoopAction SinkThread Unit → Option (Option Turn × SinkThread) :=
  loopNext (fun thread _ => (sinkIterate thread).2)
    (fun thread _ => (sinkIterate thread).1.any Effect.isObtained) SinkThread.errorCount

section Iterations

/-- The source counts the iterations without a record, and starts over with one. -/
theorem sourceIterate_errorCount (thread : SourceThread) (input : SourceInput) :
    (sourceIterate thread input).2.errorCount =
      if (sourceIterate thread input).1.any Effect.isObtained then 0
      else countUp 4 thread.errorCount := by
  rw [sourceIterate]
  split <;> rfl

/-- The sink counts the iterations without a record, and starts over with one. -/
theorem sinkIterate_errorCount (thread : SinkThread) :
    (sinkIterate thread).2.errorCount =
      if (sinkIterate thread).1.any Effect.isObtained then 0
      else countUp 4 thread.errorCount := by
  rw [sinkIterate]
  split <;> rfl

/-- Handling a record leaves the counter of the parser as it is. -/
theorem handleRecord_errorCount (thread : ParserThread Handle) (input : ParserInput)
    (record : Metadata) :
    (thread.handleRecord input record).2.errorCount = thread.errorCount := by
  rw [ParserThread.handleRecord]
  split
  next =>
    rw [ParserThread.parseRecord]
    dsimp only
    split <;> rfl
  next => rfl

/-- A report leaves the counter of the parser as it is. -/
theorem reportDue_errorCount (thread : ParserThread Handle) (input : ParserInput) :
    (thread.reportDue input).errorCount = thread.errorCount := by
  rw [ParserThread.reportDue]
  split <;> rfl

/-- The parser counts the iterations without a record, and goes on counting after one. -/
theorem parserIterate_errorCount (thread : ParserThread Handle) (input : ParserInput) :
    (parserIterate thread input).2.errorCount =
      if (parserIterate thread input).1.any Effect.isObtained then thread.errorCount
      else countUp 4 thread.errorCount := by
  rw [parserIterate]
  dsimp only
  split
  next =>
    rw [handleRecord_errorCount]
    exact reportDue_errorCount thread input
  next =>
    rw [reportDue_errorCount]
    rfl

end Iterations

section Runs

/-- In the loops of the source and of the sink the time slept after a failure is the number of
failures in a row, up to four. In the loop of the parser it is so if and only if no failure follows
a record that follows a failure. -/
theorem backoff_proportional_iff :
    (∀ (s s' : SourceThread) (labels : List (Option Turn)), s.errorCount = 0 →
      Run (Moves sourceLoop) s labels s' → Proportional 4 (turnsOf labels)) ∧
    (∀ (s s' : SinkThread) (labels : List (Option Turn)), s.errorCount = 0 →
      Run (Moves sinkLoop) s labels s' → Proportional 4 (turnsOf labels)) ∧
    ∀ (s s' : ParserThread Handle) (labels : List (Option Turn)), s.errorCount = 0 →
      Run (Moves parserLoop) s labels s' →
        (Proportional 4 (turnsOf labels) ↔
          ∀ first second n after,
            turnsOf labels = first ++ .hit :: (second ++ .miss n :: after) →
              ∀ m, .miss m ∉ first) := by
  refine ⟨fun s s' labels hzero hrun => ?_, fun s s' labels hzero hrun => ?_,
    fun s s' labels hzero hrun => ?_⟩
  · refine proportional_of_reset (counter_run ?_ ?_ hzero hrun)
    all_goals
      intro thread input hturn
      rw [sourceIterate_errorCount, hturn]
      rfl
  · refine proportional_of_reset (counter_run ?_ ?_ hzero hrun)
    all_goals
      intro thread input hturn
      rw [sinkIterate_errorCount, hturn]
      rfl
  · refine proportional_iff_of_kept (by decide) (counter_run ?_ ?_ hzero hrun)
    all_goals
      intro thread input hturn
      rw [parserIterate_errorCount, hturn]
      rfl

/-- A parser with one protocol and these records. -/
def parserWith (stream : List Metadata) (errorCount : ℕ) : ParserThread Unit where
  running := true
  context := ⟨0, (∅ : Std.ExtTreeMap UInt64 Unit).insert 1 (), ∅, [], 1⟩
  stream := stream
  reportInterval := 60
  numSink := 0
  offset := 0
  nextTimepoint := 60
  errorCount := errorCount

/-- An iteration at the start of the thread, with records that parse to nothing. -/
def quietInput : ParserInput := ⟨0, [], 0, 0, ⟨fun _ => false, fun _ => false⟩⟩

/-- A parser that fails twice after its first record. -/
theorem backoff_proportional_iff_once :
    ∃ labels s', Run (Moves parserLoop) (parserWith [⟨0, 1, 0, 0, 0⟩] 0) labels s' ∧
      turnsOf labels = [.hit, .miss 1, .miss 2] ∧ Proportional 4 (turnsOf labels) := by
  have hexec : (exec parserLoop (parserWith [⟨0, 1, 0, 0, 0⟩] 0)
      [.iterate quietInput, .iterate quietInput, .iterate quietInput]).map
        (fun r => turnsOf r.1) = some [.hit, .miss 1, .miss 2] := by
    decide +kernel
  obtain ⟨labels, s', hrun, hturns⟩ := exists_run_of_exec hexec
  refine ⟨labels, s', hrun, hturns, ?_⟩
  refine (backoff_proportional_iff.2.2 _ s' labels rfl hrun).mpr ?_
  intro first second n after heq
  cases first with
  | nil => simp
  | cons turn first =>
    -- only the first turn is a success
    have hmem : Turn.hit ∈ [Turn.miss 1, Turn.miss 2] := by
      have htail := (List.cons.inj (hturns.symm.trans heq)).2
      rw [htail]
      simp
    exact absurd hmem (by decide)

/-- A parser that fails again after its first record sleeps two seconds instead of one. -/
theorem parserLoop_keeps_count :
    ∃ labels s', Run (Moves parserLoop) (parserWith [] 0) labels s' ∧
      turnsOf labels = [.miss 1, .hit, .miss 2] ∧ ¬ Proportional 4 (turnsOf labels) := by
  have hexec : (exec parserLoop (parserWith [] 0)
      [.iterate quietInput, .meanwhile (parserWith [⟨0, 1, 0, 0, 0⟩] 1), .iterate quietInput,
        .iterate quietInput]).map (fun r => turnsOf r.1) = some [.miss 1, .hit, .miss 2] := by
    decide +kernel
  obtain ⟨labels, s', hrun, hturns⟩ := exists_run_of_exec hexec
  refine ⟨labels, s', hrun, hturns, fun hproportional => ?_⟩
  have hslept := hproportional [.miss 1, .hit] 2 [] hturns
  exact absurd hslept (by decide)

end Runs

end Demos.Oak
