import Demos.Oak.Channel.Creation
import Demos.Oak.Event.Model

/-!
# The running process

The main thread starts the sinks, the parsers and the sources one after the other and waits for each
to say that it runs. From then on sources read records and push them to parsers, parsers push what
they parsed to sinks, sinks write, and the main thread handles events. Every look at the state of
another thread and every call on a channel is one step, and the steps of all threads interleave in
any order. What the addons, the clock, the loader and the outside world decide is an input of a
step; a call that ends the process is a crash.

A channel is a null pointer before its thread has created it. With one thread that pushes and one
that pops it is the bounded queue that `Channel` refines. With several threads that push `Channel`
may lose, double or reorder what it holds, so its contents may become anything then. This concerns
the streams of the parsers if there are several sources, those of the sinks if there are several
parsers, and the report channel of the first parser once the main thread handles events and may push
alarms to it.

A record carries which source read it, how many that source had read before, and which parser popped
it. The program reads none of the three.
-/

namespace Demos.Oak

open Demos.Lib

/-- `OAK_THREAD_MAX`. -/
def oakThreadMax : ℕ := 32

/-- The number of contexts that `InitRuntimeEnviron` uses for a configured number of threads. -/
def numContext (numThreads : ℤ) : ℕ :=
  if numThreads ≤ 0 then 1
  else if (oakThreadMax : ℤ) < numThreads then oakThreadMax
  else numThreads.toNat

/-- `ThreadState`. -/
inductive ThreadState where
  | init
  | running
  | stop
deriving DecidableEq, Repr

/-- The kinds of worker threads. -/
inductive Role where
  | sink
  | parser
  | source
deriving DecidableEq, Repr

/-- An `oak_metadata` on its way through the process. -/
structure Record where
  source : ℕ
  seq : ℕ
  protocolType : UInt64
  parser : Option ℕ := none
deriving DecidableEq, Repr

/-- Where a sink thread is. -/
inductive SinkPc where
  | absent
  | created
  | opened
  | loop
  | writing (record : Record) (i : ℕ)
  | leaving
  | left
deriving DecidableEq, Repr

/-- `SinkContext` and its thread. -/
structure SinkWorker where
  state : ThreadState := .stop
  stream : Option (List Record) := none
  capacity : ℕ := 0
  numHandles : ℕ := 0
  pc : SinkPc := .absent
deriving DecidableEq, Repr

/-- Where a parser thread is; between `delivering` and `pushing` it has seen that the sink runs. -/
inductive ParserPc where
  | absent
  | created
  | opened
  | loop
  | popped (record : Record)
  | delivering (record : Record)
  | pushing (record : Record)
  | leaving
  | leavingEvents
  | left
deriving DecidableEq, Repr

/-- `ParserContext` and its thread; of the parsers only the protocol types are kept. -/
structure ParserWorker where
  state : ThreadState := .stop
  stream : Option (List Record) := none
  capacity : ℕ := 0
  report : Option (List OutgoingEvent) := none
  reportCapacity : ℕ := 0
  handles : List UInt64 := []
  offset : ℕ := 0
  pc : ParserPc := .absent
deriving DecidableEq, Repr

/-- Where a source thread is. -/
inductive SourcePc where
  | absent
  | created
  | opened
  | loop
  | delivering (record : Record)
  | pushing (record : Record)
  | left
deriving DecidableEq, Repr

/-- `SourceContext` and its thread, with the number of records it has read. -/
structure SourceWorker where
  state : ThreadState := .stop
  hasHandle : Bool := false
  offset : ℕ := 0
  numRead : ℕ := 0
  pc : SourcePc := .absent
deriving DecidableEq, Repr

/-- Where the main thread is: in `CreateWorker`, at the alarms of the start, in `HandleInputEvent`
or in `HandleOutputEvent`. -/
inductive MainPc where
  | start (role : Role) (i : ℕ)
  | create (role : Role) (i : ℕ)
  | await (role : Role) (i : ℕ)
  | reserve (i : ℕ)
  | drain
  | receive
  | update (i : ℕ)
  | send (i : ℕ)
  | exited
deriving DecidableEq, Repr

/-- The main thread handles events: it may change the tables of the parsers and push alarms. -/
def MainPc.handles : MainPc → Bool
  | .receive | .update _ | .send _ | .exited => true
  | _ => false

/-- The ways the process can end before it is stopped. A thread is `notCreated` if `pthread_create`
fails, and `notPlaced` if it cannot be named or bound to its cores. Two threads are `raced` if they
push to one channel, or change and walk through one table, at the same time. The contexts are
`destroyed` when `main` returns, and the threads still use them. -/
inductive Crash where
  | noCore
  | notCreated
  | notPlaced
  | openFailed
  | badChannel (fault : Fault)
  | badModule
  | badEvent
  | notWritten
  | notAlarm
  | notInit
  | nullChannel
  | outOfBounds
  | raced
  | destroyed
deriving DecidableEq, Repr

/-- The main thread and the contexts by index. -/
structure Pipeline where
  main : MainPc
  sinks : ℕ → SinkWorker
  parsers : ℕ → ParserWorker
  sources : ℕ → SourceWorker
  crash : Option Crash

/-- What a step shows. -/
inductive PipelineEvent where
  | silent
  | read (source : ℕ) (record : Record)
  | offline (role : Role) (i target : ℕ)
  | full (role : Role) (i target : ℕ)
  | routed (source parser : ℕ) (record : Record)
  | popped (parser : ℕ) (record : Record)
  | parsed (parser : ℕ) (record : Record)
  | forwarded (parser sink : ℕ) (record : Record)
  | taken (sink : ℕ) (record : Record)
  | wrote (sink handle : ℕ) (record : Record)
  | finished (sink : ℕ) (record : Record)
  | released (record : Record)
  | leaked (record : Record)
  | reported (parser : ℕ) (event : OutgoingEvent)
  | sent (parser : ℕ) (event : OutgoingEvent)
  | left (role : Role) (i : ℕ)
  | crashed
deriving DecidableEq, Repr

namespace Pipeline

/-- The contexts after `InitRuntimeEnviron`, and the main thread before `CreateWorker`. -/
def init : Pipeline where
  main := .start .sink 0
  sinks _ := {}
  parsers _ := {}
  sources _ := {}
  crash := none

/-- The number of contexts in use. -/
def count (config : Config) : Role → ℕ
  | .sink => numContext config.sink.numThreads
  | .parser => numContext config.parser.numThreads
  | .source => numContext config.source.numThreads

/-- Replace a sink. -/
def setSink (s : Pipeline) (k : ℕ) (sink : SinkWorker) : Pipeline :=
  { s with sinks := Function.update s.sinks k sink }

/-- Replace a parser. -/
def setParser (s : Pipeline) (p : ℕ) (parser : ParserWorker) : Pipeline :=
  { s with parsers := Function.update s.parsers p parser }

/-- Replace a source. -/
def setSource (s : Pipeline) (i : ℕ) (source : SourceWorker) : Pipeline :=
  { s with sources := Function.update s.sources i source }

/-- The process ends. -/
def fail (s : Pipeline) (crash : Crash) : PipelineEvent × Pipeline :=
  (.crashed, { s with crash := some crash })

/-- `context->state` of a worker. -/
def state (s : Pipeline) : Role → ℕ → ThreadState
  | .sink, i => (s.sinks i).state
  | .parser, i => (s.parsers i).state
  | .source, i => (s.sources i).state

/-- `context->state.store(THREAD_INIT)`. -/
def storeInit (s : Pipeline) : Role → ℕ → Pipeline
  | .sink, i => s.setSink i { s.sinks i with state := .init }
  | .parser, i => s.setParser i { s.parsers i with state := .init }
  | .source, i => s.setSource i { s.sources i with state := .init }

/-- `System::CreateThread` where no call fails. -/
def createThread (s : Pipeline) : Role → ℕ → Pipeline
  | .sink, i => s.setSink i { s.sinks i with pc := .created }
  | .parser, i => s.setParser i { s.parsers i with pc := .created }
  | .source, i => s.setSource i { s.sources i with pc := .created }

/-- `report->Push(event)` where the result is ignored, and the main thread is at `main` then. -/
def pushReport (s : Pipeline) (main : MainPc) (p : ℕ) (event : OutgoingEvent) :
    PipelineEvent × Pipeline :=
  match (s.parsers p).report with
  | none => s.fail .nullChannel
  | some queue =>
    match enqueue (s.parsers p).reportCapacity queue event with
    | none => (.silent, { s with main := main })
    | some queue => (.reported p event,
        { s.setParser p { s.parsers p with report := some queue } with main := main })

/-- What a step of a sink thread meets: the number of modules it opens, if all open, and whether
`StartRoutine` can name and bind it. The mask that it binds the thread to is copied from the wrong
address. -/
structure SinkChoice where
  opened : Option ℕ
  placed : Bool := true

/-- One step of `SinkThreadRoutine`. -/
def sinkNext (config : Config) (s : Pipeline) (k : ℕ) (choice : SinkChoice) :
    Option (PipelineEvent × Pipeline) :=
  let sink := s.sinks k
  match sink.pc with
  | .absent => none
  | .created =>
    if choice.placed = false then s.fail .notPlaced
    else if sink.state ≠ .init then s.fail .notInit
    else match sinkChannel config.sink fun _ => () with
      | .error fault => s.fail (.badChannel fault)
      | .ok stream =>
        match choice.opened with
        | none => s.fail .openFailed
        | some numHandles =>
          some (.silent, s.setSink k { sink with
            stream := some [], capacity := stream.capacity, numHandles := numHandles,
            pc := .opened })
  | .opened => some (.silent, s.setSink k { sink with state := .running, pc := .loop })
  | .loop =>
    if sink.state = .stop then some (.left .sink k, s.setSink k { sink with pc := .leaving })
    else if sink.numHandles = 0 then some (.silent, s)
    else match sink.stream with
      | none => s.fail .nullChannel
      | some [] => some (.silent, s)
      | some (record :: rest) =>
        some (.taken k record,
          s.setSink k { sink with stream := some rest, pc := .writing record 0 })
  | .writing record i =>
    if i < sink.numHandles then
      some (.wrote k i record, s.setSink k { sink with pc := .writing record (i + 1) })
    else some (.finished k record, s.setSink k { sink with pc := .loop })
  | .leaving =>
    match sink.stream with
    | none => s.fail .nullChannel
    | some [] => some (.silent, s.setSink k { sink with pc := .left })
    | some (record :: rest) =>
      some (.released record, s.setSink k { sink with stream := some rest })
  | .left => none

/-- What a step of a parser thread meets: whether it can be named and bound, whether the arguments
of the configured modules are fit to be read, the protocol types it opens at its start, an event to
report, and the result and the number of fields of parsing. -/
structure ParserChoice where
  placed : Bool := true
  readable : Bool := true
  handles : List UInt64
  event : Option OutgoingEvent
  res : ℤ
  fieldsSize : ℕ

/-- One step of `ParserThreadRoutine`. -/
def parserNext (config : Config) (s : Pipeline) (p : ℕ) (choice : ParserChoice) :
    Option (PipelineEvent × Pipeline) :=
  let parser := s.parsers p
  match parser.pc with
  | .absent => none
  | .created =>
    if choice.placed = false then s.fail .notPlaced
    else if parser.state ≠ .init then s.fail .notInit
    else match parserChannels config.parser fun _ => () with
      | .error fault => s.fail (.badChannel fault)
      | .ok (stream, report) =>
        some (.silent, s.setParser p { parser with
          stream := some [], capacity := stream.capacity, report := some [],
          reportCapacity := report.capacity, pc := .opened })
  | .opened =>
    if choice.readable = false then s.fail .badModule
    -- a module that does not open is reported by the first context only
    else match choice.event with
    | some event => if p = 0 then s.pushReport s.main p event else some (.silent, s)
    | none =>
      some (.silent, s.setParser p { parser with
        handles := choice.handles, state := .running, pc := .loop })
  | .loop =>
    if parser.state = .stop then
      some (.left .parser p, s.setParser p { parser with pc := .leaving })
    else match choice.event with
      | some event => s.pushReport s.main p event
      | none =>
        if parser.handles = [] then some (.silent, s)
        else match parser.stream with
          | none => s.fail .nullChannel
          | some [] => some (.silent, s)
          | some (record :: rest) =>
            let record := { record with parser := some p }
            some (.popped p record,
              s.setParser p { parser with stream := some rest, pc := .popped record })
  | .popped record =>
    -- the parser is looked up and called under the lock
    if record.protocolType ∈ parser.handles then
      if choice.res ≠ 0 ∨ choice.fieldsSize = 0 then
        some (.released record, s.setParser p { parser with pc := .loop })
      else some (.parsed p record, s.setParser p { parser with pc := .delivering record })
    else some (.leaked record, s.setParser p { parser with pc := .loop })
  | .delivering record =>
    if parser.offset < count config .sink then
      if oakThreadMax ≤ parser.offset then s.fail .outOfBounds
      else if (s.sinks parser.offset).state ≠ .running then
        some (.offline .parser p parser.offset,
          s.setParser p { parser with offset := parser.offset + 1 })
      else some (.silent, s.setParser p { parser with pc := .pushing record })
    else
      some (.released record, s.setParser p { parser with offset := 0, pc := .loop })
  | .pushing record =>
    let k := parser.offset
    match (s.sinks k).stream with
    | none => s.fail .nullChannel
    | some queue =>
      match enqueue (s.sinks k).capacity queue record with
      | none =>
        some (.full .parser p k,
          s.setParser p { parser with offset := k + 1, pc := .delivering record })
      | some queue =>
        some (.forwarded p k record,
          (s.setSink k { s.sinks k with stream := some queue }).setParser p
            { parser with pc := .loop })
  | .leaving =>
    match parser.stream with
    | none => s.fail .nullChannel
    | some [] => some (.silent, s.setParser p { parser with pc := .leavingEvents })
    | some (record :: rest) =>
      some (.released record, s.setParser p { parser with stream := some rest })
  | .leavingEvents =>
    -- the second loop pops the stream again and takes a record for an event
    match parser.stream with
    | none => s.fail .nullChannel
    | some [] => some (.silent, s.setParser p { parser with pc := .left })
    | some (record :: rest) =>
      some (.leaked record, s.setParser p { parser with stream := some rest })
  | .left => none

/-- What a step of a source thread meets: whether it has a handle once all modules are opened, if
all open, the protocol type of the record it reads, if it reads one, and whether it can be named and
bound. -/
structure SourceChoice where
  opened : Option Bool
  read : Option UInt64
  placed : Bool := true

/-- One step of `SourceThreadRoutine`. -/
def sourceNext (config : Config) (s : Pipeline) (i : ℕ) (choice : SourceChoice) :
    Option (PipelineEvent × Pipeline) :=
  let source := s.sources i
  match source.pc with
  | .absent => none
  | .created =>
    if choice.placed = false then s.fail .notPlaced
    else if source.state ≠ .init then s.fail .notInit
    else match choice.opened with
      | none => s.fail .openFailed
      | some hasHandle =>
        some (.silent, s.setSource i { source with hasHandle := hasHandle, pc := .opened })
  | .opened => some (.silent, s.setSource i { source with state := .running, pc := .loop })
  | .loop =>
    if source.state = .stop then some (.left .source i, s.setSource i { source with pc := .left })
    else match source.hasHandle, choice.read with
      | true, some protocolType =>
        let record : Record := { source := i, seq := source.numRead, protocolType := protocolType }
        some (.read i record,
          s.setSource i { source with numRead := source.numRead + 1, pc := .delivering record })
      | _, _ => some (.silent, s)
  | .delivering record =>
    if source.offset < count config .parser then
      if oakThreadMax ≤ source.offset then s.fail .outOfBounds
      else if (s.parsers source.offset).state ≠ .running then
        some (.offline .source i source.offset,
          s.setSource i { source with offset := source.offset + 1 })
      else some (.silent, s.setSource i { source with pc := .pushing record })
    else
      some (.released record, s.setSource i { source with offset := 0, pc := .loop })
  | .pushing record =>
    let p := source.offset
    match (s.parsers p).stream with
    | none => s.fail .nullChannel
    | some queue =>
      match enqueue (s.parsers p).capacity queue record with
      | none =>
        some (.full .source i p,
          s.setSource i { source with offset := p + 1, pc := .delivering record })
      | some queue =>
        some (.routed i p record,
          (s.setParser p { s.parsers p with stream := some queue }).setSource i
            { source with pc := .loop })
  | .left => none

/-- What a step of the main thread meets: whether a core is available, whether a thread is created,
whether the main thread can be bound, whether an event arrives, whether its arguments are fit to be
read, the protocol types of a context after the event or an alarm in place of them, whether the
configuration can be written, and whether a signal stops the process. -/
structure MainChoice where
  core : Bool
  created : Bool := true
  placed : Bool := true
  event : Bool
  readable : Bool
  handles : List UInt64
  alarm : Option OutgoingEvent
  writable : Bool
  stop : Bool

/-- Where `CreateWorker` goes on once all threads of a kind run. -/
def afterRole : Role → MainPc
  | .sink => .start .parser 0
  | .parser => .reserve 0
  | .source => .drain

/-- One step of `main` from `CreateWorker` on. -/
def mainNext (config : Config) (s : Pipeline) (choice : MainChoice) :
    Option (PipelineEvent × Pipeline) :=
  match s.main with
  | .start role i =>
    if i < count config role then
      -- the cores of the sources are reserved before the first of them starts
      if role ≠ .source ∧ choice.core = false then s.fail .noCore
      else some (.silent, { s.storeInit role i with main := .create role i })
    else some (.silent, { s with main := afterRole role })
  | .create role i =>
    if choice.created then some (.silent, { s.createThread role i with main := .await role i })
    else s.fail .notCreated
  | .await role i =>
    if s.state role i = .running then some (.silent, { s with main := .start role (i + 1) })
    else some (.silent, s)
  | .reserve i =>
    if i < count config .source then
      if choice.core then some (.silent, { s with main := .reserve (i + 1) }) else s.fail .noCore
    else some (.silent, { s with main := .start .source 0 })
  | .drain =>
    match (s.parsers 0).report with
    | none => s.fail .nullChannel
    | some [] =>
      if choice.writable = false then s.fail .notWritten
      else if choice.placed = false then s.fail .notPlaced
      else some (.silent, { s with main := .receive })
    | some (event :: rest) =>
      if event.type = .alarm then
        some (.sent 0 event, s.setParser 0 { s.parsers 0 with report := some rest })
      else s.fail .notAlarm
  | .receive =>
    if choice.stop then some (.silent, { s with main := .exited })
    else if choice.event then
      if choice.readable then some (.silent, { s with main := .update 0 }) else s.fail .badEvent
    else some (.silent, { s with main := .send 0 })
  | .update i =>
    if i < count config .parser then
      match choice.alarm with
      | none =>
        some (.silent, { s.setParser i { s.parsers i with handles := choice.handles } with
          main := .update (i + 1) })
      | some alarm =>
        -- the module does not open for this context, and the loop is left
        if i = 0 then s.pushReport (.send 0) i alarm
        else some (.silent, { s with main := .send 0 })
    else if choice.writable then some (.silent, { s with main := .send 0 })
    else s.fail .notWritten
  | .send i =>
    if i < count config .parser then
      match (s.parsers i).report with
      | none => s.fail .nullChannel
      | some [] => some (.silent, { s with main := .send (i + 1) })
      | some (event :: rest) =>
        some (.sent i event, s.setParser i { s.parsers i with report := some rest })
    else some (.silent, { s with main := .receive })
  | .exited => none

/-- What several threads that push to one channel leave in it. -/
inductive Race where
  | parserStream (p : ℕ) (queue : List Record)
  | sinkStream (k : ℕ) (queue : List Record)
  | report (queue : List OutgoingEvent)

/-- Several threads push to the channel, and it exists. -/
def Contended (config : Config) (s : Pipeline) : Race → Prop
  | .parserStream p _ => 1 < count config .source ∧ (s.parsers p).stream.isSome
  | .sinkStream k _ => 1 < count config .parser ∧ (s.sinks k).stream.isSome
  | .report _ => s.main.handles ∧ (s.parsers 0).report.isSome

instance (config : Config) (s : Pipeline) : (race : Race) → Decidable (s.Contended config race)
  | .parserStream _ _ | .sinkStream _ _ | .report _ => inferInstanceAs (Decidable (_ ∧ _))

/-- The channel with these contents. -/
def disturb (s : Pipeline) : Race → Pipeline
  | .parserStream p queue => s.setParser p { s.parsers p with stream := some queue }
  | .sinkStream k queue => s.setSink k { s.sinks k with stream := some queue }
  | .report queue => s.setParser 0 { s.parsers 0 with report := some queue }

/-- There are channels to which several threads push, or tables that the main thread may change
while a parser walks through them. -/
def Racing (config : Config) (s : Pipeline) : Prop :=
  1 < count config .source ∨ 1 < count config .parser ∨ s.main.handles

instance (config : Config) (s : Pipeline) : Decidable (s.Racing config) :=
  inferInstanceAs (Decidable (_ ∨ _))

/-- Which thread moves, and what it meets; or threads race, and what they leave or nothing. -/
inductive Action where
  | main (choice : MainChoice)
  | source (i : ℕ) (choice : SourceChoice)
  | parser (p : ℕ) (choice : ParserChoice)
  | sink (k : ℕ) (choice : SinkChoice)
  | race (result : Option Race)

/-- A thread that goes on when `main` has returned uses a context that is destroyed. -/
def orDestroyed (s : Pipeline) (result : Option (PipelineEvent × Pipeline)) :
    Option (PipelineEvent × Pipeline) :=
  if s.main = .exited then result.map fun _ => s.fail .destroyed else result

/-- One step of the process; a process that has crashed has none. -/
def next (config : Config) (s : Pipeline) (action : Action) : Option (PipelineEvent × Pipeline) :=
  if s.crash.isSome then none
  else match action with
    | .main choice => s.mainNext config choice
    | .source i choice => s.orDestroyed (s.sourceNext config i choice)
    | .parser p choice => s.orDestroyed (s.parserNext config p choice)
    | .sink k choice => s.orDestroyed (s.sinkNext config k choice)
    | .race (some race) =>
      if s.Contended config race then some (.silent, s.disturb race) else none
    | .race none => if s.Racing config then s.fail .raced else none

/-- The steps of the process, whoever moves. -/
def Step (config : Config) : Pipeline → PipelineEvent → Pipeline → Prop := Moves (next config)

end Pipeline

end Demos.Oak
