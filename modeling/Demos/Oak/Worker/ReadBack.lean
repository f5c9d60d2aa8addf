import Demos.Oak.Worker.Metrics

/-!
# Reading outgoing events back

`ReportMetrics` and `ReportAlarm` file every value under a key that is passed with its `sizeof`, so
that the terminator of the literal becomes the last byte of the key. The program itself reads the
entries of a dictionary by the text of the macro, without a terminator, and finds none of them.
-/

namespace Demos.Oak

open Demos.Lib

variable {Handle : Type} {args : List (Bytes × Bytes)} {key value : Bytes}

/-- `OAK_ALARM_MESSAGE`. -/
def oakAlarmMessage : Bytes := ascii "alarm_message"

/-- `OAK_DICT_DFL_CAP`. -/
def oakDictDflCap : ℕ := 64

/-- The bytes of a text in memory: a string literal, or what `c_str()` returns. -/
def cStr (text : Bytes) : Bytes := text ++ [0]

/-- `sizeof` of a string literal. -/
def sizeOf (text : Bytes) : ℕ := (cStr text).length

/-- `oak_dict_add`, which copies as many bytes as it is told. -/
def oakDictAdd (args : List (Bytes × Bytes)) (key : Bytes) (keyLen : ℕ) (value : Bytes)
    (valueLen : ℕ) : Except Fault (List (Bytes × Bytes)) := do
  assert (args.length < oakDictDflCap) "dict->size < OAK_DICT_DFL_CAP"
  return args ++ [(key.take keyLen, value.take valueLen)]

/-- The arguments of the event of `ReportAlarm`. -/
def reportAlarmArgs (taskId : ℤ) (message : Bytes) : Except Fault (List (Bytes × Bytes)) := do
  let taskIdStr := formatLd taskId
  let args ← oakDictAdd [] (cStr oakTaskId) (sizeOf oakTaskId) (cStr taskIdStr) taskIdStr.length
  oakDictAdd args (cStr oakMInputFlow) (sizeOf oakMInputFlow) (cStr message) message.length

/-- The arguments of the event that `ReportMetrics` makes of a tag. -/
def reportMetricsArgs (tag : ProtocolTag) : Except Fault (List (Bytes × Bytes)) := do
  let taskIdStr := formatLd tag.taskId
  let args ← oakDictAdd [] (cStr oakTaskId) (sizeOf oakTaskId) (cStr taskIdStr) taskIdStr.length
  let inputFlowStr := formatLd tag.inputFlow.toInt64.toInt
  let args ← oakDictAdd args (cStr oakMInputFlow) (sizeOf oakMInputFlow) (cStr inputFlowStr)
    inputFlowStr.length
  let outputDataStr := formatLd tag.outputData.toInt64.toInt
  oakDictAdd args (cStr oakMOutputData) (sizeOf oakMOutputData) (cStr outputDataStr)
    outputDataStr.length

/-- One entry as `EventToParserModuleConfig` reads it. -/
def readArg (dict : Dict) (kv : Bytes × Bytes) : Dict :=
  if kv.1 = [] ∨ kv.2 = [] then dict else dict.insert kv.1 kv.2

/-- The arguments of an event as `EventToParserModuleConfig` reads them. -/
def readArgs (args : List (Bytes × Bytes)) : Dict := args.foldl readArg ∅

/-- An alarm is read as the task and the message that it reports. -/
structure AlarmReadBack (args : List (Bytes × Bytes)) (taskId : ℤ) (message : Bytes) : Prop where
  task : (readArgs args)[oakTaskId]? = some (formatLd taskId)
  text : (readArgs args)[oakAlarmMessage]? = some message

/-- Metrics are read as the task and the counters that they report. -/
structure MetricsReadBack (args : List (Bytes × Bytes)) (tag : ProtocolTag) : Prop where
  task : (readArgs args)[oakTaskId]? = some (formatLd tag.taskId)
  inputFlow : (readArgs args)[oakMInputFlow]? = some (formatLd tag.inputFlow.toNat)
  outputData : (readArgs args)[oakMOutputData]? = some (formatLd tag.outputData.toNat)

/-- An entry under a literal has the terminator in its key. -/
theorem oakDictAdd_literal (hroom : args.length < oakDictDflCap) :
    oakDictAdd args (cStr key) (sizeOf key) (cStr value) value.length =
      .ok (args ++ [literalEntry key value]) := by
  have hkey : (cStr key).take (sizeOf key) = key ++ [0] := List.take_length
  have hvalue : (cStr value).take value.length = value := List.take_left
  simp only [oakDictAdd, hkey, hvalue, literalEntry, assert, if_pos hroom]
  rfl

/-- The arguments of an alarm are those of its event. -/
theorem reportAlarmArgs_eq (taskId : ℤ) (message : Bytes) :
    reportAlarmArgs taskId message = .ok (alarmEvent taskId message).args := by
  refine bind_eq_ok_iff.mpr ⟨_, oakDictAdd_literal (by decide), ?_⟩
  exact oakDictAdd_literal (by simp [oakDictDflCap])

/-- The arguments of metrics are those of their event. -/
theorem reportMetricsArgs_eq (tag : ProtocolTag) :
    reportMetricsArgs tag = .ok (metricsEvent tag).args := by
  refine bind_eq_ok_iff.mpr ⟨_, oakDictAdd_literal (by decide), ?_⟩
  refine bind_eq_ok_iff.mpr ⟨_, oakDictAdd_literal (by simp [oakDictDflCap]), ?_⟩
  exact oakDictAdd_literal (by simp [oakDictDflCap])

/-- A key that no entry has is not read. -/
theorem readArgs_eq_none (hkeys : ∀ entry ∈ args, entry.1 ≠ key) :
    (readArgs args)[key]? = none := by
  have hgeneral (dict : Dict) (hdict : dict[key]? = none) :
      (args.foldl readArg dict)[key]? = none := by
    induction args generalizing dict with
    | nil => exact hdict
    | cons entry rest ih =>
      obtain ⟨hentry, hrest⟩ := List.forall_mem_cons.mp hkeys
      refine ih hrest _ ?_
      unfold readArg
      split
      next => exact hdict
      next => simpa [Std.ExtTreeMap.getElem?_insert, hentry] using hdict
  exact hgeneral ∅ (by simp)

/-- A literal without a zero byte is not the key of an entry with a terminator. -/
theorem readArgs_literal_eq_none (entries : List (Bytes × Bytes)) (hkey : 0 ∉ key) :
    (readArgs (entries.map fun entry => literalEntry entry.1 entry.2))[key]? = none := by
  refine readArgs_eq_none fun entry hmem heq => ?_
  obtain ⟨entry', -, rfl⟩ := List.mem_map.mp hmem
  apply hkey
  rw [← heq]
  simp [literalEntry]

/-- No alarm is read under a text without a zero byte. -/
theorem readArgs_alarmEvent (taskId : ℤ) (message : Bytes) (hkey : 0 ∉ key) :
    (readArgs (alarmEvent taskId message).args)[key]? = none :=
  readArgs_literal_eq_none [(oakTaskId, formatLd taskId), (oakMInputFlow, message)] hkey

/-- No metrics are read under a text without a zero byte. -/
theorem readArgs_metricsEvent (tag : ProtocolTag) (hkey : 0 ∉ key) :
    (readArgs (metricsEvent tag).args)[key]? = none :=
  readArgs_literal_eq_none [(oakTaskId, formatLd tag.taskId),
    (oakMInputFlow, formatLd tag.inputFlow.toInt64.toInt),
    (oakMOutputData, formatLd tag.outputData.toInt64.toInt)] hkey

/-- Every event that a report adds to the channel is made of a tag. -/
theorem mem_report_reportMetrics {reports : List (UInt64 × ℕ)} {context : ParserContext Handle}
    {event : OutgoingEvent} (hmem : event ∈ (reportMetrics reports context).report) :
    event ∈ context.report ∨ ∃ tag, event = metricsEvent tag := by
  induction reports generalizing context with
  | nil => exact .inl hmem
  | cons report rest ih =>
    obtain hbefore | htag := ih hmem
    · have hpush (context : ParserContext Handle) (pushed : OutgoingEvent)
          (hmem : event ∈ (context.pushReport pushed).report) :
          event ∈ context.report ∨ event = pushed := by
        simp only [ParserContext.pushReport, enqueue] at hmem
        split at hmem
        next => simpa using hmem
        next => exact .inl hmem
      unfold ParserContext.reportTag at hbefore
      split at hbefore
      next => exact .inl (List.mem_of_mem_drop hbefore)
      next tag _ =>
        obtain hold | hnew := hpush _ _ hbefore
        · exact .inl (List.mem_of_mem_drop hold)
        · exact .inr ⟨tag, hnew⟩
    · exact .inr htag

/-- No alarm is read back as what it reports, no metrics are, and neither is any event that a report
adds to the channel. -/
theorem reports_not_read_back :
    (∀ (taskId : ℤ) (message : Bytes), ∃ args, reportAlarmArgs taskId message = .ok args ∧
      ¬ AlarmReadBack args taskId message) ∧
    (∀ tag : ProtocolTag, ∃ args, reportMetricsArgs tag = .ok args ∧ ¬ MetricsReadBack args tag) ∧
    ∀ (context : ParserContext Handle) (reports : List (UInt64 × ℕ)) (event : OutgoingEvent),
      event ∈ (reportMetrics reports context).report →
        event ∈ context.report ∨ ∀ tag, ¬ MetricsReadBack event.args tag := by
  have htask : 0 ∉ oakTaskId := by decide
  refine ⟨?_, ?_, ?_⟩
  · intro taskId message
    refine ⟨_, reportAlarmArgs_eq taskId message, fun hread => ?_⟩
    have hnone := (readArgs_alarmEvent taskId message htask).symm.trans hread.task
    exact Option.some_ne_none _ hnone.symm
  · intro tag
    refine ⟨_, reportMetricsArgs_eq tag, fun hread => ?_⟩
    have hnone := (readArgs_metricsEvent tag htask).symm.trans hread.task
    exact Option.some_ne_none _ hnone.symm
  · intro context reports event hmem
    obtain hold | ⟨tag, rfl⟩ := mem_report_reportMetrics hmem
    · exact .inl hold
    · refine .inr fun tag' hread => ?_
      have hnone := (readArgs_metricsEvent tag htask).symm.trans hread.task
      exact Option.some_ne_none _ hnone.symm

/-- The event of a context with one tag. -/
theorem reports_not_read_back_oneTag :
    metricsEvent ⟨1, 0, 120, 1⟩ ∈ (reportMetrics [(6, 0)] (oneTag ⟨1, 0, 120, 1⟩)).report ∧
      (metricsEvent ⟨1, 0, 120, 1⟩ ∈ (oneTag ⟨1, 0, 120, 1⟩).report ∨
        ∀ tag, ¬ MetricsReadBack (metricsEvent ⟨1, 0, 120, 1⟩).args tag) := by
  have hmem : metricsEvent ⟨1, 0, 120, 1⟩ ∈
      (reportMetrics [(6, 0)] (oneTag ⟨1, 0, 120, 1⟩)).report := List.mem_singleton_self _
  exact ⟨hmem, reports_not_read_back.2.2 (oneTag ⟨1, 0, 120, 1⟩) [(6, 0)] _ hmem⟩

/-- The alarm of task 7 has its task under a key with a terminator and its message under the key of
the input flow. -/
theorem reportAlarm_not_read_back :
    reportAlarmArgs 7 (loadFailed 6) =
        .ok [(ascii "task_id" ++ [0], ascii "7"),
          (ascii "m_input_flow" ++ [0], ascii "Load code (6) failed")] ∧
      ¬ ∀ (taskId : ℤ) (message : Bytes), ∃ args, reportAlarmArgs taskId message = .ok args ∧
        AlarmReadBack args taskId message := by
  refine ⟨by decide +kernel, fun hall => ?_⟩
  obtain ⟨args, hargs, hread⟩ := hall 7 (loadFailed 6)
  rw [reportAlarmArgs_eq] at hargs
  cases hargs
  have htask : 0 ∉ oakTaskId := by decide
  have hnone := (readArgs_alarmEvent 7 (loadFailed 6) htask).symm.trans hread.task
  exact Option.some_ne_none _ hnone.symm

end Demos.Oak
