import Demos.Oak.Event.Model

/-!
# Worker threads

The loops of the source, the parser and the sink threads, one iteration at a time. What the addons,
the clock, the hash map order and the other threads contribute to an iteration is an input of it:
the result of reading and of parsing, which downstream threads run and accept a record, and how many
events the main thread takes while a report is written. Every operation on a record that matters for
its ownership is recorded as an effect, in order.
-/

namespace Demos.Oak

open Demos.Lib

variable {Handle : Type}

/-- An `oak_metadata` on the heap, as far as the loops read it. -/
structure Metadata where
  ptr : ℕ
  protocolType : UInt64
  upStreamSize : UInt64
  downStreamSize : UInt64
  fieldsSize : ℕ
deriving DecidableEq, Repr

/-- What a loop does with records and events: a record is obtained by `new` or from a channel,
pushed to a downstream channel, its contents are freed and its struct is deleted; an event is
freed and deleted. -/
inductive Effect where
  | obtained (ptr : ℕ)
  | pushed (channel ptr : ℕ)
  | contentsFreed (ptr : ℕ)
  | deleted (ptr : ℕ)
  | localFreed
  | eventReleased (event : OutgoingEvent)
deriving DecidableEq, Repr

/-- The threads downstream of a loop: whether each runs, and whether its channel accepts. -/
structure Downstream where
  running : ℕ → Bool
  accepts : ℕ → Bool

/-- The delivering loop of both threads from `offset` on, for at most `fuel` more threads: the
channel that accepted the record, if one did, and the offset it leaves. -/
def deliver (down : Downstream) : ℕ → ℕ → Option ℕ × ℕ
  | 0, offset => (none, offset)
  | fuel + 1, offset =>
    if down.running offset && down.accepts offset then (some offset, offset)
    else deliver down fuel (offset + 1)

/-- What happens to a record once the delivering loop is over. -/
def deliveryEffects (ptr : ℕ) : Option ℕ → List Effect
  | some channel => [.pushed channel ptr]
  | none => [.contentsFreed ptr, .deleted ptr]

/-- An offset behind the last thread starts over. -/
def wrapOffset (count offset : ℕ) : ℕ := if count ≤ offset then 0 else offset

/-- The failure counter, which is also the time the thread sleeps. -/
def countError (errors : ℕ) : ℕ := if errors < 4 then errors + 1 else errors

/-- `SourceContext` and the local variables of its loop. -/
structure SourceThread where
  hasHandle : Bool
  numParser : ℕ
  offset : ℕ
  errorCount : ℕ
deriving DecidableEq, Repr

/-- What one iteration of the source loop meets: whether `Read` succeeds, the address that `new`
returns, and the parser threads. -/
structure SourceInput where
  readOk : Bool
  ptr : ℕ
  parsers : Downstream

/-- One iteration of the loop of `SourceThreadRoutine`. -/
def sourceIterate (thread : SourceThread) (input : SourceInput) : List Effect × SourceThread :=
  if !thread.hasHandle || !input.readOk then
    ([.localFreed], { thread with errorCount := countError thread.errorCount })
  else
    let (channel, offset) :=
      deliver input.parsers (thread.numParser - thread.offset) thread.offset
    (.obtained input.ptr :: deliveryEffects input.ptr channel,
      { thread with errorCount := 0, offset := wrapOffset thread.numParser offset })

/-- The event that `ReportMetrics` makes of a tag; the counters are printed as signed numbers. -/
def metricsEvent (tag : ProtocolTag) : OutgoingEvent where
  type := .metrics
  args := [literalEntry oakTaskId (formatLd tag.taskId),
    literalEntry oakMInputFlow (formatLd tag.inputFlow.toInt64.toInt),
    literalEntry oakMOutputData (formatLd tag.outputData.toInt64.toInt)]

/-- The counters of a tag start over. -/
def ProtocolTag.reset (tag : ProtocolTag) : ProtocolTag :=
  { tag with inputFlow := 0, outputData := 0 }

/-- The counters of a tag after a record is parsed. -/
def ProtocolTag.count (tag : ProtocolTag) (record : Metadata) : ProtocolTag :=
  { tag with
    inputFlow := tag.inputFlow + record.upStreamSize + record.downStreamSize
    outputData := if 0 < record.fieldsSize then tag.outputData + 1 else tag.outputData }

/-- One tag in the loop of `ReportMetrics`: the result of `Push` is ignored and the counters are
reset. -/
def ParserContext.reportTag (context : ParserContext Handle) (id : UInt64) :
    ParserContext Handle :=
  match context.tags[id]? with
  | none => context
  | some tag =>
    { context.pushReport (metricsEvent tag) with tags := context.tags.insert id tag.reset }

/-- The main thread takes the oldest events of the report channel. -/
def ParserContext.takeReports (context : ParserContext Handle) (count : ℕ) :
    ParserContext Handle :=
  { context with report := context.report.drop count }

/-- `ReportMetrics` over the tags in this order; before each tag the main thread takes the next
number of events. -/
def reportMetrics : List (UInt64 × ℕ) → ParserContext Handle → ParserContext Handle
  | [], context => context
  | (id, taken) :: rest, context =>
    reportMetrics rest ((context.takeReports taken).reportTag id)

/-- The accounting of a parsed record. -/
def ParserContext.account (context : ParserContext Handle) (record : Metadata) (res : ℤ) :
    ParserContext Handle :=
  match context.tags[record.protocolType]? with
  | none => context
  | some tag =>
    if res = 0 then
      { context with tags := context.tags.insert record.protocolType (tag.count record) }
    else context

/-- `ParserContext` with its stream channel and the local variables of the parser loop. -/
structure ParserThread (Handle : Type) where
  running : Bool
  context : ParserContext Handle
  stream : List Metadata
  reportInterval : ℕ
  numSink : ℕ
  offset : ℕ
  nextTimepoint : ℕ
  errorCount : ℕ

/-- What one iteration of the parser loop meets: the clock, the order of the tags with the events
that the main thread takes, the result and the number of fields of parsing, and the sinks. -/
structure ParserInput where
  now : ℕ
  reports : List (UInt64 × ℕ)
  res : ℤ
  fieldsSize : ℕ
  sinks : Downstream

/-- The report at the start of an iteration. -/
def ParserThread.reportDue (thread : ParserThread Handle) (input : ParserInput) :
    ParserThread Handle :=
  if thread.nextTimepoint < input.now then
    { thread with
      context := reportMetrics input.reports thread.context
      nextTimepoint := input.now + thread.reportInterval }
  else thread

/-- The part of an iteration that handles a record whose protocol has a parser. -/
def ParserThread.parseRecord (thread : ParserThread Handle) (input : ParserInput)
    (record : Metadata) : List Effect × ParserThread Handle :=
  let thread := { thread with context := thread.context.account record input.res }
  if input.res ≠ 0 ∨ input.fieldsSize = 0 then
    ([.contentsFreed record.ptr, .deleted record.ptr], thread)
  else
    let (channel, offset) := deliver input.sinks (thread.numSink - thread.offset) thread.offset
    (deliveryEffects record.ptr channel, { thread with offset := wrapOffset thread.numSink offset })

/-- The part of an iteration after a record is popped: a record of an unknown protocol has its
contents freed. -/
def ParserThread.handleRecord (thread : ParserThread Handle) (input : ParserInput)
    (record : Metadata) : List Effect × ParserThread Handle :=
  if record.protocolType ∈ thread.context.handles then thread.parseRecord input record
  else ([.contentsFreed record.ptr], thread)

/-- One iteration of the loop of `ParserThreadRoutine`. -/
def parserIterate (thread : ParserThread Handle) (input : ParserInput) :
    List Effect × ParserThread Handle :=
  let thread := thread.reportDue input
  match thread.context.handles.isEmpty, thread.stream with
  | false, record :: rest =>
    let (effects, thread) := { thread with stream := rest }.handleRecord input record
    (.obtained record.ptr :: effects, thread)
  | _, _ => ([], { thread with errorCount := countError thread.errorCount })

/-- `SinkContext` with its stream channel and the local variables of the sink loop. -/
structure SinkThread where
  numHandles : ℕ
  stream : List Metadata
  errorCount : ℕ
deriving DecidableEq, Repr

/-- One iteration of the loop of `SinkThreadRoutine`. A handle that fails to write is only reported
in the log. -/
def sinkIterate (thread : SinkThread) : List Effect × SinkThread :=
  match thread.numHandles, thread.stream with
  | _ + 1, record :: rest =>
    ([.obtained record.ptr, .contentsFreed record.ptr, .deleted record.ptr],
      { thread with stream := rest, errorCount := 0 })
  | _, _ => ([], { thread with errorCount := countError thread.errorCount })

/-- `while (channel->Pop(&item)) body(item)`. -/
def popAll {A : Type} (body : A → List Effect) : List A → List Effect × List A
  | [] => ([], [])
  | item :: rest =>
    let (effects, queue) := popAll body rest
    (body item ++ effects, queue)

/-- A record popped by the first draining loop. -/
def releaseRecord (record : Metadata) : List Effect :=
  [.obtained record.ptr, .contentsFreed record.ptr, .deleted record.ptr]

/-- A record popped by the second draining loop, which takes it for an event. -/
def releaseAsEvent (record : Metadata) : List Effect :=
  [.obtained record.ptr, .deleted record.ptr]

/-- The end of `ParserThreadRoutine`: both draining loops pop the stream channel. -/
def parserLeave (thread : ParserThread Handle) : List Effect × ParserThread Handle :=
  let (records, stream) := popAll releaseRecord thread.stream
  let (events, stream) := popAll releaseAsEvent stream
  (records ++ events, { thread with running := false, stream := stream })

end Demos.Oak
