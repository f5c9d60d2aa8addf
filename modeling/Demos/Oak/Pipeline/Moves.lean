import Demos.Oak.Pipeline.Model

/-!
# What the threads do

Everything a step can do, once for all branches of the four routines. A step ends the process for a
stated reason, or changes the context of its thread; in addition a record that is pushed changes the
stream channel of the context it is pushed to, the main thread touches the report channels, and
threads that race leave anything in a channel.
-/

namespace Demos.Oak

open Demos.Lib

namespace Pipeline

variable {config : Config} {s s' : Pipeline} {event : PipelineEvent}

section Moves

/-- The reasons for which a sink thread ends the process. -/
inductive SinkCrash (config : Config) (sink : SinkWorker) : Crash → Prop
  | notInit (hpc : sink.pc = .created) (hstate : sink.state ≠ .init) :
      SinkCrash config sink .notInit
  | badChannel {fault : Fault} (hpc : sink.pc = .created)
      (hstream : (sinkChannel config.sink fun _ => ()) = .error fault) :
      SinkCrash config sink (.badChannel fault)
  | nullChannel (hpc : sink.pc = .loop ∨ sink.pc = .leaving) (hstream : sink.stream = none) :
      SinkCrash config sink .nullChannel

/-- The moves of a sink thread. -/
inductive SinkMove (config : Config) (k : ℕ) (sink : SinkWorker) :
    PipelineEvent → SinkWorker → Prop
  | opened (stream : Channel Unit) (numHandles : ℕ) (hpc : sink.pc = .created)
      (hstate : sink.state = .init)
      (hstream : (sinkChannel config.sink fun _ => ()) = .ok stream) :
      SinkMove config k sink .silent { sink with
        stream := some [], capacity := stream.capacity, numHandles := numHandles, pc := .opened }
  | started (hpc : sink.pc = .opened) :
      SinkMove config k sink .silent { sink with state := .running, pc := .loop }
  | stopped (hpc : sink.pc = .loop) (hstate : sink.state = .stop) :
      SinkMove config k sink (.left .sink k) { sink with pc := .leaving }
  | taken {record : Record} {rest : List Record} (hpc : sink.pc = .loop)
      (hstream : sink.stream = some (record :: rest)) :
      SinkMove config k sink (.taken k record)
        { sink with stream := some rest, pc := .writing record 0 }
  | wrote {record : Record} {i : ℕ} (hpc : sink.pc = .writing record i)
      (hlt : i < sink.numHandles) :
      SinkMove config k sink (.wrote k i record) { sink with pc := .writing record (i + 1) }
  | finished {record : Record} {i : ℕ} (hpc : sink.pc = .writing record i)
      (hge : sink.numHandles ≤ i) :
      SinkMove config k sink (.finished k record) { sink with pc := .loop }
  | drained {record : Record} {rest : List Record} (hpc : sink.pc = .leaving)
      (hstream : sink.stream = some (record :: rest)) :
      SinkMove config k sink (.released record)
        { sink with stream := some rest, pc := .leaving }
  | ended (hpc : sink.pc = .leaving) : SinkMove config k sink .silent { sink with pc := .left }

/-- The reasons for which a parser thread ends the process. -/
inductive ParserCrash (config : Config) (s : Pipeline) (p : ℕ) : Crash → Prop
  | notInit (hpc : (s.parsers p).pc = .created) (hstate : (s.parsers p).state ≠ .init) :
      ParserCrash config s p .notInit
  | badChannel {fault : Fault} (hpc : (s.parsers p).pc = .created)
      (hstream : (parserChannels config.parser fun _ => ()) = .error fault) :
      ParserCrash config s p (.badChannel fault)
  | nullReport (hpc : (s.parsers p).pc = .opened ∨ (s.parsers p).pc = .loop)
      (hreport : (s.parsers p).report = none) : ParserCrash config s p .nullChannel
  | nullStream (hpc : (s.parsers p).pc = .loop ∨ (s.parsers p).pc = .leaving ∨
      (s.parsers p).pc = .leavingEvents) (hstream : (s.parsers p).stream = none) :
      ParserCrash config s p .nullChannel
  | outOfBounds (hlt : (s.parsers p).offset < count config .sink)
      (hge : oakThreadMax ≤ (s.parsers p).offset) : ParserCrash config s p .outOfBounds
  | nullSink {record : Record} (hpc : (s.parsers p).pc = .pushing record)
      (hstream : (s.sinks (s.parsers p).offset).stream = none) : ParserCrash config s p .nullChannel

/-- The moves of a parser thread that change its own context only. -/
inductive ParserMove (config : Config) (s : Pipeline) (p : ℕ) (parser : ParserWorker) :
    PipelineEvent → ParserWorker → Prop
  | opened (stream report : Channel Unit) (hpc : parser.pc = .created)
      (hstate : parser.state = .init)
      (hchannels : (parserChannels config.parser fun _ => ()) = .ok (stream, report)) :
      ParserMove config s p parser .silent { parser with
        stream := some [], capacity := stream.capacity, report := some [],
        reportCapacity := report.capacity, pc := .opened }
  | reported {queue queue' : List OutgoingEvent} {event : OutgoingEvent}
      (hpc : parser.pc = .opened ∨ parser.pc = .loop) (hreport : parser.report = some queue)
      (hpush : enqueue parser.reportCapacity queue event = some queue') :
      ParserMove config s p parser (.reported p event) { parser with report := some queue' }
  | started (handles : List UInt64) (hpc : parser.pc = .opened) :
      ParserMove config s p parser .silent
        { parser with handles := handles, state := .running, pc := .loop }
  | stopped (hpc : parser.pc = .loop) (hstate : parser.state = .stop) :
      ParserMove config s p parser (.left .parser p) { parser with pc := .leaving }
  | popped {record : Record} {rest : List Record} (hpc : parser.pc = .loop)
      (hstream : parser.stream = some (record :: rest)) :
      ParserMove config s p parser (.popped p { record with parser := some p })
        { parser with stream := some rest, pc := .popped { record with parser := some p } }
  | unparsed {record : Record} (hpc : parser.pc = .popped record)
      (hmem : record.protocolType ∈ parser.handles) :
      ParserMove config s p parser (.released record) { parser with pc := .loop }
  | parsed {record : Record} (hpc : parser.pc = .popped record)
      (hmem : record.protocolType ∈ parser.handles) :
      ParserMove config s p parser (.parsed p record) { parser with pc := .delivering record }
  | unknown {record : Record} (hpc : parser.pc = .popped record)
      (hmem : record.protocolType ∉ parser.handles) :
      ParserMove config s p parser (.leaked record) { parser with pc := .loop }
  | offline {record : Record} (hpc : parser.pc = .delivering record)
      (hlt : parser.offset < count config .sink)
      (hstate : (s.sinks parser.offset).state ≠ .running) :
      ParserMove config s p parser (.offline .parser p parser.offset)
        { parser with offset := parser.offset + 1, pc := .delivering record }
  | chosen {record : Record} (hpc : parser.pc = .delivering record)
      (hlt : parser.offset < count config .sink)
      (hstate : (s.sinks parser.offset).state = .running) :
      ParserMove config s p parser .silent { parser with pc := .pushing record }
  | dropped {record : Record} (hpc : parser.pc = .delivering record)
      (hge : count config .sink ≤ parser.offset) :
      ParserMove config s p parser (.released record) { parser with offset := 0, pc := .loop }
  | full {record : Record} (hpc : parser.pc = .pushing record) :
      ParserMove config s p parser (.full .parser p parser.offset)
        { parser with offset := parser.offset + 1, pc := .delivering record }
  | drained {record : Record} {rest : List Record} (hpc : parser.pc = .leaving)
      (hstream : parser.stream = some (record :: rest)) :
      ParserMove config s p parser (.released record)
        { parser with stream := some rest, pc := .leaving }
  | drainedAsEvent {record : Record} {rest : List Record} (hpc : parser.pc = .leavingEvents)
      (hstream : parser.stream = some (record :: rest)) :
      ParserMove config s p parser (.leaked record)
        { parser with stream := some rest, pc := .leavingEvents }
  | drains (hpc : parser.pc = .leaving) :
      ParserMove config s p parser .silent { parser with pc := .leavingEvents }
  | ended (hpc : parser.pc = .leavingEvents) :
      ParserMove config s p parser .silent { parser with pc := .left }

/-- A parser pushes its record to the stream channel of a sink. -/
inductive Forwards (s : Pipeline) (p : ℕ) : PipelineEvent → Pipeline → Prop
  | intro {record : Record} {queue queue' : List Record} (hpc : (s.parsers p).pc = .pushing record)
      (hstream : (s.sinks (s.parsers p).offset).stream = some queue)
      (hpush : enqueue (s.sinks (s.parsers p).offset).capacity queue record = some queue') :
      Forwards s p (.forwarded p (s.parsers p).offset record)
        ((s.setSink (s.parsers p).offset
            { s.sinks (s.parsers p).offset with stream := some queue' }).setParser p
          { s.parsers p with pc := .loop })

/-- The reasons for which a source thread ends the process. -/
inductive SourceCrash (config : Config) (s : Pipeline) (i : ℕ) : Crash → Prop
  | notInit (hpc : (s.sources i).pc = .created) (hstate : (s.sources i).state ≠ .init) :
      SourceCrash config s i .notInit
  | outOfBounds (hlt : (s.sources i).offset < count config .parser)
      (hge : oakThreadMax ≤ (s.sources i).offset) : SourceCrash config s i .outOfBounds
  | nullParser {record : Record} (hpc : (s.sources i).pc = .pushing record)
      (hstream : (s.parsers (s.sources i).offset).stream = none) :
      SourceCrash config s i .nullChannel

/-- The moves of a source thread that change its own context only. -/
inductive SourceMove (config : Config) (s : Pipeline) (i : ℕ) (source : SourceWorker) :
    PipelineEvent → SourceWorker → Prop
  | opened (hasHandle : Bool) (hpc : source.pc = .created) (hstate : source.state = .init) :
      SourceMove config s i source .silent { source with hasHandle := hasHandle, pc := .opened }
  | started (hpc : source.pc = .opened) :
      SourceMove config s i source .silent { source with state := .running, pc := .loop }
  | stopped (hpc : source.pc = .loop) (hstate : source.state = .stop) :
      SourceMove config s i source (.left .source i) { source with pc := .left }
  | read (protocolType : UInt64) (hpc : source.pc = .loop) :
      SourceMove config s i source
        (.read i { source := i, seq := source.numRead, protocolType := protocolType })
        { source with
          numRead := source.numRead + 1
          pc := .delivering { source := i, seq := source.numRead, protocolType := protocolType } }
  | offline {record : Record} (hpc : source.pc = .delivering record)
      (hlt : source.offset < count config .parser)
      (hstate : (s.parsers source.offset).state ≠ .running) :
      SourceMove config s i source (.offline .source i source.offset)
        { source with offset := source.offset + 1, pc := .delivering record }
  | chosen {record : Record} (hpc : source.pc = .delivering record)
      (hlt : source.offset < count config .parser)
      (hstate : (s.parsers source.offset).state = .running) :
      SourceMove config s i source .silent { source with pc := .pushing record }
  | dropped {record : Record} (hpc : source.pc = .delivering record)
      (hge : count config .parser ≤ source.offset) :
      SourceMove config s i source (.released record) { source with offset := 0, pc := .loop }
  | full {record : Record} (hpc : source.pc = .pushing record) :
      SourceMove config s i source (.full .source i source.offset)
        { source with offset := source.offset + 1, pc := .delivering record }

/-- A source pushes its record to the stream channel of a parser. -/
inductive Routes (s : Pipeline) (i : ℕ) : PipelineEvent → Pipeline → Prop
  | intro {record : Record} {queue queue' : List Record} (hpc : (s.sources i).pc = .pushing record)
      (hstream : (s.parsers (s.sources i).offset).stream = some queue)
      (hpush : enqueue (s.parsers (s.sources i).offset).capacity queue record = some queue') :
      Routes s i (.routed i (s.sources i).offset record)
        ((s.setParser (s.sources i).offset
            { s.parsers (s.sources i).offset with stream := some queue' }).setSource i
          { s.sources i with pc := .loop })

/-- The reasons for which the main thread ends the process. -/
inductive MainCrash (config : Config) (s : Pipeline) : Crash → Prop
  | notAlarm {e : OutgoingEvent} {rest : List OutgoingEvent} (hmain : s.main = .drain)
      (hreport : (s.parsers 0).report = some (e :: rest)) (htype : e.type ≠ .alarm) :
      MainCrash config s .notAlarm
  | nullDrain (hmain : s.main = .drain) (hreport : (s.parsers 0).report = none) :
      MainCrash config s .nullChannel
  | nullUpdate {i : ℕ} (hmain : s.main = .update i) (hlt : i < count config .parser)
      (hreport : (s.parsers i).report = none) : MainCrash config s .nullChannel
  | nullSend {i : ℕ} (hmain : s.main = .send i) (hlt : i < count config .parser)
      (hreport : (s.parsers i).report = none) : MainCrash config s .nullChannel

/-- The moves of the main thread in `CreateWorker`. -/
inductive StartMove (config : Config) (s : Pipeline) : Pipeline → Prop
  | stored {role : Role} {i : ℕ} (hmain : s.main = .start role i) (hlt : i < count config role) :
      StartMove config s { s.storeInit role i with main := .create role i }
  | allStarted {role : Role} {i : ℕ} (hmain : s.main = .start role i)
      (hge : count config role ≤ i) : StartMove config s { s with main := afterRole role }
  | created {role : Role} {i : ℕ} (hmain : s.main = .create role i) :
      StartMove config s { s.createThread role i with main := .await role i }
  | sawRunning {role : Role} {i : ℕ} (hmain : s.main = .await role i)
      (hstate : s.state role i = .running) :
      StartMove config s { s with main := .start role (i + 1) }
  | reserved {i : ℕ} (hmain : s.main = .reserve i) :
      StartMove config s { s with main := .reserve (i + 1) }
  | allReserved {i : ℕ} (hmain : s.main = .reserve i) :
      StartMove config s { s with main := .start .source 0 }

/-- The main thread is past `CreateWorker`. -/
def Serving : MainPc → Prop
  | .drain | .receive | .update _ | .send _ | .exited => True
  | _ => False

/-- The moves of the main thread past `CreateWorker`: it goes on, changes the parsers of a context,
and puts an event into a report channel or takes one from it. -/
inductive ServeMove (config : Config) (s : Pipeline) : PipelineEvent → Pipeline → Prop
  | goes {main : MainPc} (hfrom : Serving s.main) (hto : main.handles = true) :
      ServeMove config s .silent { s with main := main }
  | updated {i : ℕ} (handles : List UInt64) (hmain : s.main = .update i) :
      ServeMove config s .silent
        { s.setParser i { s.parsers i with handles := handles } with main := .update (i + 1) }
  | alarmed {i : ℕ} {queue queue' : List OutgoingEvent} {e : OutgoingEvent}
      (hmain : s.main = .update i) (hreport : (s.parsers i).report = some queue)
      (hpush : enqueue (s.parsers i).reportCapacity queue e = some queue') :
      ServeMove config s (.reported i e)
        { s.setParser i { s.parsers i with report := some queue' } with main := .send 0 }
  | sent {i : ℕ} {e : OutgoingEvent} {rest : List OutgoingEvent} (hfrom : Serving s.main)
      (hreport : (s.parsers i).report = some (e :: rest)) :
      ServeMove config s (.sent i e) (s.setParser i { s.parsers i with report := some rest })

/-- The reasons for which the process ends that are not up to the program. -/
def Outside : Crash → Prop
  | .noCore | .notCreated | .notPlaced | .openFailed | .badModule | .badEvent | .notWritten => True
  | _ => False

/-- The reasons for which the process ends. -/
inductive Crashes (config : Config) (s : Pipeline) : Crash → Prop
  | outside {crash : Crash} (h : Outside crash) : Crashes config s crash
  | raced (h : s.Racing config) : Crashes config s .raced
  | destroyed (hmain : s.main = .exited) : Crashes config s .destroyed
  | main {crash : Crash} (h : MainCrash config s crash) : Crashes config s crash
  | sink (k : ℕ) {crash : Crash} (h : SinkCrash config (s.sinks k) crash) : Crashes config s crash
  | parser (p : ℕ) {crash : Crash} (h : ParserCrash config s p crash) : Crashes config s crash
  | source (i : ℕ) {crash : Crash} (h : SourceCrash config s i crash) : Crashes config s crash

/-- Everything a step of the process can do. -/
inductive Move (config : Config) (s : Pipeline) : PipelineEvent → Pipeline → Prop
  | idle : Move config s .silent s
  | crash {crash : Crash} (h : Crashes config s crash) :
      Move config s .crashed { s with crash := some crash }
  | raced {race : Race} (h : s.Contended config race) : Move config s .silent (s.disturb race)
  | start {s' : Pipeline} (h : StartMove config s s') : Move config s .silent s'
  | serve {event : PipelineEvent} {s' : Pipeline} (h : ServeMove config s event s') :
      Move config s event s'
  | sink {event : PipelineEvent} (k : ℕ) {sink : SinkWorker}
      (h : SinkMove config k (s.sinks k) event sink) : Move config s event (s.setSink k sink)
  | parser {event : PipelineEvent} (p : ℕ) {parser : ParserWorker}
      (h : ParserMove config s p (s.parsers p) event parser) :
      Move config s event (s.setParser p parser)
  | forwards {event : PipelineEvent} (p : ℕ) {s' : Pipeline} (h : Forwards s p event s') :
      Move config s event s'
  | source {event : PipelineEvent} (i : ℕ) {source : SourceWorker}
      (h : SourceMove config s i (s.sources i) event source) :
      Move config s event (s.setSource i source)
  | routes {event : PipelineEvent} (i : ℕ) {s' : Pipeline} (h : Routes s i event s') :
      Move config s event s'

/-- A step with the result of a move is this move. -/
theorem Move.of_eq {result : PipelineEvent × Pipeline} (h : some result = some (event, s'))
    (hmove : Move config s result.1 result.2) : Move config s event s' := by
  cases h
  exact hmove

/-- The steps that push an event to a report channel: it is null, full, or takes the event. -/
theorem Move.of_pushReport {main : MainPc} {p : ℕ} {e : OutgoingEvent}
    (h : some (s.pushReport main p e) = some (event, s'))
    (hnull : (s.parsers p).report = none → Crashes config s .nullChannel)
    (hfull : Move config s .silent { s with main := main })
    (htaken : ∀ queue queue', (s.parsers p).report = some queue →
      enqueue (s.parsers p).reportCapacity queue e = some queue' →
      Move config s (.reported p e)
        { s.setParser p { s.parsers p with report := some queue' } with main := main }) :
    Move config s event s' := by
  refine .of_eq h ?_
  unfold pushReport
  split
  next hreport => exact .crash (hnull hreport)
  next queue hreport =>
    split
    next => exact hfull
    next queue' hpush => exact htaken queue queue' hreport hpush

end Moves

section Sink

/-- A step of a sink thread is one of these moves. -/
theorem Move.of_sinkNext {k : ℕ} {choice : SinkChoice}
    (h : s.sinkNext config k choice = some (event, s')) : Move config s event s' := by
  cases hpc : (s.sinks k).pc with
  | absent | left =>
    simp only [sinkNext, hpc] at h
    cases h
  | created =>
    simp only [sinkNext, hpc] at h
    split at h
    next => exact .of_eq h (.crash (.outside trivial))
    next =>
      split at h
      next hstate => exact .of_eq h (.crash (.sink k (.notInit hpc hstate)))
      next hstate =>
        split at h
        next fault hstream => exact .of_eq h (.crash (.sink k (.badChannel hpc hstream)))
        next stream hstream =>
          split at h
          next => exact .of_eq h (.crash (.outside trivial))
          next => exact .of_eq h (.sink k (.opened stream _ hpc (not_not.mp hstate) hstream))
  | opened =>
    simp only [sinkNext, hpc] at h
    exact .of_eq h (.sink k (.started hpc))
  | loop =>
    simp only [sinkNext, hpc] at h
    split at h
    next hstate => exact .of_eq h (.sink k (.stopped hpc hstate))
    next =>
      split at h
      next => exact .of_eq h .idle
      next =>
        split at h
        next hstream => exact .of_eq h (.crash (.sink k (.nullChannel (.inl hpc) hstream)))
        next => exact .of_eq h .idle
        next hstream => exact .of_eq h (.sink k (.taken hpc hstream))
  | writing record i =>
    simp only [sinkNext, hpc] at h
    split at h
    next hlt => exact .of_eq h (.sink k (.wrote hpc hlt))
    next hge => exact .of_eq h (.sink k (.finished hpc (not_lt.mp hge)))
  | leaving =>
    simp only [sinkNext, hpc] at h
    split at h
    next hstream => exact .of_eq h (.crash (.sink k (.nullChannel (.inr hpc) hstream)))
    next => exact .of_eq h (.sink k (.ended hpc))
    next hstream => exact .of_eq h (.sink k (.drained hpc hstream))

end Sink

section Parser

variable {p : ℕ} {choice : ParserChoice} {record : Record}
  (h : s.parserNext config p choice = some (event, s'))
include h

/-- The parser thread starts and creates its channels. -/
theorem Move.of_parser_created (hpc : (s.parsers p).pc = .created) : Move config s event s' := by
  simp only [parserNext, hpc] at h
  split at h
  next => exact .of_eq h (.crash (.outside trivial))
  next =>
    split at h
    next hstate => exact .of_eq h (.crash (.parser p (.notInit hpc hstate)))
    next hstate =>
      split at h
      next fault hstream => exact .of_eq h (.crash (.parser p (.badChannel hpc hstream)))
      next hchannels => exact .of_eq h (.parser p (.opened _ _ hpc (not_not.mp hstate) hchannels))

/-- The parser thread opens its modules. -/
theorem Move.of_parser_opened (hpc : (s.parsers p).pc = .opened) : Move config s event s' := by
  simp only [parserNext, hpc] at h
  split at h
  next => exact .of_eq h (.crash (.outside trivial))
  next =>
    split at h
    next =>
      split at h
      next =>
        exact .of_pushReport h (fun hreport => .parser p (.nullReport (.inl hpc) hreport)) .idle
          fun _ _ hreport hpush => .parser p (.reported (.inl hpc) hreport hpush)
      next => exact .of_eq h .idle
    next => exact .of_eq h (.parser p (.started choice.handles hpc))

/-- The parser thread reports and pops. -/
theorem Move.of_parser_loop (hpc : (s.parsers p).pc = .loop) : Move config s event s' := by
  simp only [parserNext, hpc] at h
  split at h
  next hstate => exact .of_eq h (.parser p (.stopped hpc hstate))
  next =>
    split at h
    next =>
      exact .of_pushReport h (fun hreport => .parser p (.nullReport (.inr hpc) hreport)) .idle
        fun _ _ hreport hpush => .parser p (.reported (.inr hpc) hreport hpush)
    next =>
      split at h
      next => exact .of_eq h .idle
      next =>
        split at h
        next hstream => exact .of_eq h (.crash (.parser p (.nullStream (.inl hpc) hstream)))
        next => exact .of_eq h .idle
        next hstream => exact .of_eq h (.parser p (.popped hpc hstream))

/-- The parser thread looks up the parser and parses. -/
theorem Move.of_parser_popped (hpc : (s.parsers p).pc = .popped record) :
    Move config s event s' := by
  simp only [parserNext, hpc] at h
  split at h
  next hmem =>
    split at h
    next => exact .of_eq h (.parser p (.unparsed hpc hmem))
    next => exact .of_eq h (.parser p (.parsed hpc hmem))
  next hmem => exact .of_eq h (.parser p (.unknown hpc hmem))

/-- The parser thread looks for a sink that runs. -/
theorem Move.of_parser_delivering (hpc : (s.parsers p).pc = .delivering record) :
    Move config s event s' := by
  simp only [parserNext, hpc] at h
  split at h
  next hlt =>
    split at h
    next hge => exact .of_eq h (.crash (.parser p (.outOfBounds hlt hge)))
    next =>
      split at h
      next hstate => exact .of_eq h (.parser p (.offline hpc hlt hstate))
      next hstate => exact .of_eq h (.parser p (.chosen hpc hlt (not_not.mp hstate)))
  next hge => exact .of_eq h (.parser p (.dropped hpc (not_lt.mp hge)))

/-- The parser thread pushes to a sink. -/
theorem Move.of_parser_pushing (hpc : (s.parsers p).pc = .pushing record) :
    Move config s event s' := by
  simp only [parserNext, hpc] at h
  split at h
  next hstream => exact .of_eq h (.crash (.parser p (.nullSink hpc hstream)))
  next hstream =>
    split at h
    next => exact .of_eq h (.parser p (.full hpc))
    next hpush => exact .of_eq h (.forwards p (.intro hpc hstream hpush))

/-- The first loop behind the loop of the parser thread. -/
theorem Move.of_parser_leaving (hpc : (s.parsers p).pc = .leaving) : Move config s event s' := by
  simp only [parserNext, hpc] at h
  split at h
  next hstream => exact .of_eq h (.crash (.parser p (.nullStream (.inr (.inl hpc)) hstream)))
  next => exact .of_eq h (.parser p (.drains hpc))
  next hstream => exact .of_eq h (.parser p (.drained hpc hstream))

/-- The second loop behind the loop of the parser thread. -/
theorem Move.of_parser_leavingEvents (hpc : (s.parsers p).pc = .leavingEvents) :
    Move config s event s' := by
  simp only [parserNext, hpc] at h
  split at h
  next hstream => exact .of_eq h (.crash (.parser p (.nullStream (.inr (.inr hpc)) hstream)))
  next => exact .of_eq h (.parser p (.ended hpc))
  next hstream => exact .of_eq h (.parser p (.drainedAsEvent hpc hstream))

/-- A step of a parser thread is one of these moves. -/
theorem Move.of_parserNext : Move config s event s' := by
  cases hpc : (s.parsers p).pc with
  | absent | left =>
    simp only [parserNext, hpc] at h
    cases h
  | created => exact .of_parser_created h hpc
  | opened => exact .of_parser_opened h hpc
  | loop => exact .of_parser_loop h hpc
  | popped record => exact .of_parser_popped h hpc
  | delivering record => exact .of_parser_delivering h hpc
  | pushing record => exact .of_parser_pushing h hpc
  | leaving => exact .of_parser_leaving h hpc
  | leavingEvents => exact .of_parser_leavingEvents h hpc

end Parser

section Source

/-- A step of a source thread is one of these moves. -/
theorem Move.of_sourceNext {i : ℕ} {choice : SourceChoice}
    (h : s.sourceNext config i choice = some (event, s')) : Move config s event s' := by
  cases hpc : (s.sources i).pc with
  | absent | left =>
    simp only [sourceNext, hpc] at h
    cases h
  | created =>
    simp only [sourceNext, hpc] at h
    split at h
    next => exact .of_eq h (.crash (.outside trivial))
    next =>
      split at h
      next hstate => exact .of_eq h (.crash (.source i (.notInit hpc hstate)))
      next hstate =>
        split at h
        next => exact .of_eq h (.crash (.outside trivial))
        next hasHandle _ =>
          exact .of_eq h (.source i (.opened hasHandle hpc (not_not.mp hstate)))
  | opened =>
    simp only [sourceNext, hpc] at h
    exact .of_eq h (.source i (.started hpc))
  | loop =>
    simp only [sourceNext, hpc] at h
    split at h
    next hstate => exact .of_eq h (.source i (.stopped hpc hstate))
    next =>
      split at h
      next protocolType _ _ => exact .of_eq h (.source i (.read protocolType hpc))
      next => exact .of_eq h .idle
  | delivering record =>
    simp only [sourceNext, hpc] at h
    split at h
    next hlt =>
      split at h
      next hge => exact .of_eq h (.crash (.source i (.outOfBounds hlt hge)))
      next =>
        split at h
        next hstate => exact .of_eq h (.source i (.offline hpc hlt hstate))
        next hstate => exact .of_eq h (.source i (.chosen hpc hlt (not_not.mp hstate)))
    next hge => exact .of_eq h (.source i (.dropped hpc (not_lt.mp hge)))
  | pushing record =>
    simp only [sourceNext, hpc] at h
    split at h
    next hstream => exact .of_eq h (.crash (.source i (.nullParser hpc hstream)))
    next hstream =>
      split at h
      next => exact .of_eq h (.source i (.full hpc))
      next hpush => exact .of_eq h (.routes i (.intro hpc hstream hpush))

end Source

section Main

/-- The main thread goes on past `CreateWorker`. -/
theorem Move.goes {main : MainPc} (hfrom : Serving s.main) (hto : main.handles = true) :
    Move config s .silent { s with main := main } :=
  .serve (.goes hfrom hto)

variable {choice : MainChoice} {role : Role} {i : ℕ}
  (h : s.mainNext config choice = some (event, s'))
include h

/-- `CreateWorker` starts a worker, or has started all of a kind. -/
theorem Move.of_main_start (hmain : s.main = .start role i) : Move config s event s' := by
  simp only [mainNext, hmain] at h
  split at h
  next hlt =>
    split at h
    next => exact .of_eq h (.crash (.outside trivial))
    next => exact .of_eq h (.start (.stored hmain hlt))
  next hge => exact .of_eq h (.start (.allStarted hmain (not_lt.mp hge)))

/-- `CreateWorker` waits for a worker. -/
theorem Move.of_main_await (hmain : s.main = .await role i) : Move config s event s' := by
  simp only [mainNext, hmain] at h
  split at h
  next hstate => exact .of_eq h (.start (.sawRunning hmain hstate))
  next => exact .of_eq h .idle

/-- `CreateWorker` reserves the cores of the sources. -/
theorem Move.of_main_reserve (hmain : s.main = .reserve i) : Move config s event s' := by
  simp only [mainNext, hmain] at h
  split at h
  next =>
    split at h
    next => exact .of_eq h (.start (.reserved hmain))
    next => exact .of_eq h (.crash (.outside trivial))
  next => exact .of_eq h (.start (.allReserved hmain))

/-- The main thread sends the alarms of the start. -/
theorem Move.of_main_drain (hmain : s.main = .drain) : Move config s event s' := by
  have hfrom : Serving s.main := by rw [hmain]; trivial
  simp only [mainNext, hmain] at h
  split at h
  next hreport => exact .of_eq h (.crash (.main (.nullDrain hmain hreport)))
  next =>
    split at h
    next => exact .of_eq h (.crash (.outside trivial))
    next =>
      split at h
      next => exact .of_eq h (.crash (.outside trivial))
      next => exact .of_eq h (.goes hfrom rfl)
  next hreport =>
    split at h
    next => exact .of_eq h (.serve (.sent hfrom hreport))
    next htype => exact .of_eq h (.crash (.main (.notAlarm hmain hreport htype)))

/-- The main thread receives an event. -/
theorem Move.of_main_receive (hmain : s.main = .receive) : Move config s event s' := by
  have hfrom : Serving s.main := by rw [hmain]; trivial
  simp only [mainNext, hmain] at h
  split at h
  next => exact .of_eq h (.goes hfrom rfl)
  next =>
    split at h
    next =>
      split at h
      next => exact .of_eq h (.goes hfrom rfl)
      next => exact .of_eq h (.crash (.outside trivial))
    next => exact .of_eq h (.goes hfrom rfl)

/-- The main thread changes the parsers of a context. -/
theorem Move.of_main_update (hmain : s.main = .update i) : Move config s event s' := by
  have hfrom : Serving s.main := by rw [hmain]; trivial
  simp only [mainNext, hmain] at h
  split at h
  next hlt =>
    split at h
    next => exact .of_eq h (.serve (.updated choice.handles hmain))
    next =>
      split at h
      next =>
        exact .of_pushReport h (fun hreport => .main (.nullUpdate hmain hlt hreport))
          (.goes hfrom rfl) fun _ _ hreport hpush => .serve (.alarmed hmain hreport hpush)
      next => exact .of_eq h (.goes hfrom rfl)
  next =>
    split at h
    next => exact .of_eq h (.goes hfrom rfl)
    next => exact .of_eq h (.crash (.outside trivial))

/-- The main thread sends the events of the report channels. -/
theorem Move.of_main_send (hmain : s.main = .send i) : Move config s event s' := by
  have hfrom : Serving s.main := by rw [hmain]; trivial
  simp only [mainNext, hmain] at h
  split at h
  next hlt =>
    split at h
    next hreport => exact .of_eq h (.crash (.main (.nullSend hmain hlt hreport)))
    next => exact .of_eq h (.goes hfrom rfl)
    next hreport => exact .of_eq h (.serve (.sent hfrom hreport))
  next => exact .of_eq h (.goes hfrom rfl)

/-- A step of the main thread is one of these moves. -/
theorem Move.of_mainNext : Move config s event s' := by
  cases hmain : s.main with
  | start role i => exact .of_main_start h hmain
  | create role i =>
    simp only [mainNext, hmain] at h
    split at h
    next => exact .of_eq h (.start (.created hmain))
    next => exact .of_eq h (.crash (.outside trivial))
  | await role i => exact .of_main_await h hmain
  | reserve i => exact .of_main_reserve h hmain
  | drain => exact .of_main_drain h hmain
  | receive => exact .of_main_receive h hmain
  | update i => exact .of_main_update h hmain
  | send i => exact .of_main_send h hmain
  | exited =>
    simp only [mainNext, hmain] at h
    cases h

end Main

section Step

/-- A step of a thread, or the end of the process when `main` has returned. -/
theorem Move.of_orDestroyed {result : Option (PipelineEvent × Pipeline)}
    (h : s.orDestroyed result = some (event, s'))
    (hmove : result = some (event, s') → Move config s event s') : Move config s event s' := by
  unfold orDestroyed at h
  split at h
  next hmain =>
    obtain ⟨_, -, heq⟩ := Option.map_eq_some_iff.mp h
    exact .of_eq (congrArg some heq) (.crash (.destroyed hmain))
  next => exact hmove h

/-- A step is one of these, from a process that has not crashed. -/
theorem Step.move (h : Step config s event s') : s.crash = none ∧ Move config s event s' := by
  obtain ⟨action, hnext⟩ := h
  unfold next at hnext
  split at hnext
  next => cases hnext
  next halive =>
    refine ⟨Option.not_isSome_iff_eq_none.mp halive, ?_⟩
    cases action with
    | main choice => exact .of_mainNext hnext
    | source i choice => exact .of_orDestroyed hnext .of_sourceNext
    | parser p choice => exact .of_orDestroyed hnext .of_parserNext
    | sink k choice => exact .of_orDestroyed hnext .of_sinkNext
    | race result =>
      cases result with
      | none =>
        dsimp only at hnext
        split at hnext
        next hracing => exact .of_eq hnext (.crash (.raced hracing))
        next => cases hnext
      | some race =>
        dsimp only at hnext
        split at hnext
        next hcontended => exact .of_eq hnext (.raced hcontended)
        next => cases hnext

end Step

end Pipeline

end Demos.Oak
