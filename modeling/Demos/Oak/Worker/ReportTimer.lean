import Demos.Lib.Timer
import Demos.Oak.Worker.Model
import Mathlib.Data.List.ReduceOption

/-!
# When the parser reports

The loop of the parser calls `ReportMetrics` when the time that is due is over, and then the next
report is due one interval later. The interval is the one of the context. `InitParserontext` stores
where the configuration is, but does not copy its interval, so that the context keeps the one minute
it has from the start. The thread reports as it is configured exactly if one minute is configured.
-/

namespace Demos.Oak

open Demos.Lib

variable {Handle : Type}

/-- The part of `ParserContext` that the timer depends on. -/
structure ReportContext where
  config : ParserConfig
  reportInterval : ℕ := 60

/-- `InitParserontext`, as far as the timer depends on it. -/
def initParserontext (config : ParserConfig) : ReportContext where
  config := config

/-- The thread of a context when its loop begins: the clock has been read before. -/
def ParserThread.enter (report : ReportContext) (now : ℕ) (context : ParserContext Handle)
    (stream : List Metadata) (numSink offset : ℕ) : ParserThread Handle where
  running := true
  context := context
  stream := stream
  reportInterval := report.reportInterval
  numSink := numSink
  offset := offset
  nextTimepoint := now + report.reportInterval
  errorCount := 0

/-- What happens in the loop: an iteration, or other threads change the state, the context or the
stream. -/
inductive ReportAction (Handle : Type) where
  | iterate (input : ParserInput)
  | meanwhile (running : Bool) (context : ParserContext Handle) (stream : List Metadata)

/-- The loop of `ParserThreadRoutine` until the thread is stopped. An iteration is labelled with the
time and whether `ReportMetrics` was called. -/
def parserReports (thread : ParserThread Handle) :
    ReportAction Handle → Option (Option Reading × ParserThread Handle)
  | .iterate input =>
    if thread.running then
      some (some ⟨input.now, thread.nextTimepoint < input.now⟩, (parserIterate thread input).2)
    else none
  | .meanwhile running context stream =>
    some (none, { thread with running := running, context := context, stream := stream })

variable {thread thread' : ParserThread Handle} {config : ParserConfig} {start : ℕ}

section Iteration

/-- What an iteration leaves of the timer. -/
structure KeepsTimer (thread thread' : ParserThread Handle) : Prop where
  running : thread'.running = thread.running
  reportInterval : thread'.reportInterval = thread.reportInterval
  nextTimepoint : thread'.nextTimepoint = thread.nextTimepoint

/-- Handling a record does not change the timer. -/
theorem keepsTimer_handleRecord (thread : ParserThread Handle) (input : ParserInput)
    (record : Metadata) : KeepsTimer thread (thread.handleRecord input record).2 := by
  rw [ParserThread.handleRecord]
  split
  next =>
    rw [ParserThread.parseRecord]
    dsimp only
    split <;> exact ⟨rfl, rfl, rfl⟩
  next => exact ⟨rfl, rfl, rfl⟩

/-- Only the report at the start of an iteration changes the timer. -/
theorem keepsTimer_parserIterate (thread : ParserThread Handle) (input : ParserInput) :
    KeepsTimer (thread.reportDue input) (parserIterate thread input).2 := by
  rw [parserIterate]
  dsimp only
  split
  next record rest _ _ =>
    obtain ⟨hrunning, hinterval, hnext⟩ := keepsTimer_handleRecord
      { thread.reportDue input with stream := rest } input record
    exact ⟨hrunning, hinterval, hnext⟩
  next => exact ⟨rfl, rfl, rfl⟩

/-- An iteration is a step of the timer. -/
theorem timerStep_parserIterate (thread : ParserThread Handle) (input : ParserInput) :
    TimerStep thread.reportInterval thread.nextTimepoint
        ⟨input.now, thread.nextTimepoint < input.now⟩ (parserIterate thread input).2.nextTimepoint ∧
      (parserIterate thread input).2.reportInterval = thread.reportInterval ∧
      (parserIterate thread input).2.running = thread.running := by
  have hkeeps := keepsTimer_parserIterate thread input
  rw [hkeeps.nextTimepoint, hkeeps.reportInterval, hkeeps.running, ParserThread.reportDue]
  by_cases hdue : thread.nextTimepoint < input.now
  · rw [if_pos hdue, decide_eq_true hdue]
    exact ⟨.fire _ _ hdue, rfl, rfl⟩
  · rw [if_neg hdue, decide_eq_false hdue]
    exact ⟨.wait _ _ (Nat.not_lt.mp hdue), rfl, rfl⟩

end Iteration

section Runs

/-- The readings of the loop are those of a timer. -/
theorem timer_run_of_run {labels : List (Option Reading)}
    (hrun : Run (Moves parserReports) thread labels thread') :
    thread'.reportInterval = thread.reportInterval ∧
      Run (TimerStep thread.reportInterval) thread.nextTimepoint labels.reduceOption
        thread'.nextTimepoint := by
  refine hrun.invariant (I := fun labels s => s.reportInterval = thread.reportInterval ∧
    Run (TimerStep thread.reportInterval) thread.nextTimepoint labels.reduceOption s.nextTimepoint)
    ⟨rfl, .nil⟩ ?_
  rintro labels s label s' ⟨hinterval, htimer⟩ ⟨action, hnext⟩
  rw [List.reduceOption_append]
  cases action with
  | iterate input =>
    obtain ⟨hstep, hkeep, -⟩ := timerStep_parserIterate s input
    rw [parserReports, Option.ite_none_right_eq_some] at hnext
    obtain ⟨rfl, rfl⟩ := Prod.mk.inj (Option.some.inj hnext.2)
    rw [hinterval] at hstep hkeep
    exact ⟨hkeep, htimer.snoc hstep⟩
  | meanwhile running context stream =>
    cases hnext
    exact ⟨hinterval, by simpa using htimer⟩

/-- The loop can read the clock as any timer does. -/
theorem exists_run_of_timer_run {readings : List Reading} {due : ℕ}
    (hrunning : thread.running = true)
    (hrun : Run (TimerStep thread.reportInterval) thread.nextTimepoint readings due) :
    ∃ thread', Run (Moves parserReports) thread (readings.map some) thread' ∧
      thread'.nextTimepoint = due ∧ thread'.running = true ∧
      thread'.reportInterval = thread.reportInterval := by
  induction hrun with
  | nil => exact ⟨thread, .nil, rfl, hrunning, rfl⟩
  | @snoc readings due due' reading _ hlast ih =>
    obtain ⟨mid, hmid, rfl, hmidRunning, hmidInterval⟩ := ih
    -- only the time of the iteration matters for the timer
    let input : ParserInput := ⟨reading.now, [], 0, 0, ⟨fun _ => false, fun _ => false⟩⟩
    obtain ⟨hstep, hkeep, hstill⟩ := timerStep_parserIterate mid input
    rw [hmidInterval] at hstep hkeep
    obtain ⟨hreading, hdue⟩ := hstep.eq_of_now_eq hlast rfl
    have hmove : Moves parserReports mid (some reading) (parserIterate mid input).2 :=
      ⟨.iterate input, hreading ▸ if_pos hmidRunning⟩
    refine ⟨(parserIterate mid input).2, ?_, hdue, hstill.trans hmidRunning, hkeep⟩
    rw [List.map_append]
    exact hmid.snoc hmove

end Runs

/-- For any configuration, the reports of the thread keep the configured interval for every clock
that does not go back, exactly if the configured interval is one minute. -/
theorem reportInterval_kept_iff (Handle : Type) (config : ParserConfig) :
    (∀ start (context : ParserContext Handle) stream numSink offset labels thread,
      Run (Moves parserReports)
        (ParserThread.enter (initParserontext config) start context stream numSink offset)
        labels thread →
      NonDecreasing start labels.reduceOption →
      KeepsInterval config.reportInterval start labels.reduceOption) ↔
    config.reportInterval = 60 := by
  have htimer := keepsInterval_iff 60 config.reportInterval
  rw [Nat.cast_ofNat] at htimer
  rw [← htimer]
  constructor
  · intro hall start readings due hrun hclock
    have hrunning : (ParserThread.enter (initParserontext config) start
        (ParserContext.new 0 1 : ParserContext Handle) [] 0 0).running = true := rfl
    obtain ⟨thread', hthread, -⟩ := exists_run_of_timer_run hrunning hrun
    have hreadings : (readings.map some).reduceOption = readings := by
      simp [List.reduceOption]
    rw [← hreadings] at hclock ⊢
    exact hall _ _ _ _ _ _ _ hthread hclock
  · intro hall start context stream numSink offset labels thread hrun hclock
    exact hall start _ _ (timer_run_of_run hrun).2 hclock

/-- A thread without modules that is started at time zero with this interval configured. -/
def idleParser (interval : ℤ) : ParserThread Unit :=
  .enter (initParserontext { reportInterval := interval }) 0 (.new 0 1) [] 0 0

/-- An iteration at this time. -/
def iterationAt (now : ℕ) : ReportAction Unit :=
  .iterate ⟨now, [], 0, 0, ⟨fun _ => false, fun _ => false⟩⟩

/-- The iterations at these times are a run of the thread. -/
theorem exists_run_iterations (interval : ℤ) {t : List ℕ} {r : List Reading}
    (hexec : (exec parserReports (idleParser interval) (t.map iterationAt)).map Prod.fst =
      some (r.map some)) :
    ∃ thread, Run (Moves parserReports) (idleParser interval) (r.map some) thread := by
  obtain ⟨labels, thread, hrun, rfl⟩ := exists_run_of_exec hexec
  exact ⟨thread, hrun⟩

/-- With ten seconds configured there is no report after eleven, and with two minutes configured
there are two reports that are a minute and a second apart. -/
theorem reportInterval_not_kept :
    (∃ thread, Run (Moves parserReports) (idleParser 10) [some ⟨11, false⟩] thread ∧
      NonDecreasing 0 [⟨11, false⟩] ∧ ¬ KeepsInterval 10 0 [⟨11, false⟩]) ∧
    ∃ thread, Run (Moves parserReports) (idleParser 120) [some ⟨61, true⟩, some ⟨122, true⟩]
        thread ∧
      NonDecreasing 0 [⟨61, true⟩, ⟨122, true⟩] ∧
      ¬ KeepsInterval 120 0 [⟨61, true⟩, ⟨122, true⟩] := by
  constructor
  · obtain ⟨thread, hrun⟩ := exists_run_iterations 10 (t := [11]) (r := [⟨11, false⟩]) rfl
    refine ⟨thread, hrun, nonDecreasing_single (by decide), fun hkeeps => ?_⟩
    exact absurd ((hkeeps [] ⟨11, false⟩ [] rfl).2 (by decide)) (by decide)
  · obtain ⟨thread, hrun⟩ := exists_run_iterations 120 (t := [61, 122])
      (r := [⟨61, true⟩, ⟨122, true⟩]) rfl
    refine ⟨thread, hrun, nonDecreasing_pair (by decide) (by decide), fun hkeeps => ?_⟩
    exact absurd ((hkeeps [⟨61, true⟩] ⟨122, true⟩ [] rfl).1 rfl 61 rfl) (by decide)

end Demos.Oak
