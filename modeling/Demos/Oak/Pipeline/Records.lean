import Demos.Lib.Network
import Demos.Oak.Pipeline.StartUp

/-!
# The way of the records

A record that a source has read is in the hands of one thread, in one channel, finished by one sink
or gone, and every step of the process moves at most one record from one of these places to the end
of another, as long as one thread pushes to each stream channel. So no record is lost or doubled
then, and the records that take the same way, through one parser to one sink, come out in the order
in which they were read.
-/

namespace Demos.Oak

open Demos.Lib

namespace Pipeline

variable {config : Config} {s s' : Pipeline} {event : PipelineEvent} {labels : List PipelineEvent}
  {record : Record} {i k p : ℕ} {sink : SinkWorker} {parser : ParserWorker}
  {source : SourceWorker}

section Places

/-- Where a record can be. -/
inductive Place where
  | atSource (i : ℕ)
  | parserStream (p : ℕ)
  | atParser (p : ℕ)
  | sinkStream (k : ℕ)
  | atSink (k : ℕ)
  | finished (k : ℕ)
  | gone
deriving DecidableEq

/-- The record that a source thread has read and not handed on. -/
def sourceHand : SourcePc → List Record
  | .delivering record | .pushing record => [record]
  | _ => []

/-- The record that a parser thread has popped and not handed on. -/
def parserHand : ParserPc → List Record
  | .popped record | .delivering record | .pushing record => [record]
  | _ => []

/-- The record that a sink thread has popped and not finished. -/
def sinkHand : SinkPc → List Record
  | .writing record _ => [record]
  | _ => []

/-- The record that a step of the sink finishes. -/
def finishes (k : ℕ) : PipelineEvent → Option Record
  | .finished sink record => if sink = k then some record else none
  | _ => none

/-- The record that a step frees or forgets. -/
def drops : PipelineEvent → Option Record
  | .released record | .leaked record => some record
  | _ => none

/-- The record that a step of a source reads. -/
def reads : PipelineEvent → Option Record
  | .read _ record => some record
  | _ => none

/-- A step that reads, drops and finishes nothing. -/
def Quiet (event : PipelineEvent) : Prop :=
  reads event = none ∧ drops event = none ∧ ∀ k, finishes k event = none

/-- The records that a sink has finished, in order. -/
def finishedBy (k : ℕ) (labels : List PipelineEvent) : List Record := labels.filterMap (finishes k)

/-- The records at each place, the oldest first. -/
def held (labels : List PipelineEvent) (s : Pipeline) : Place → List Record
  | .atSource i => sourceHand (s.sources i).pc
  | .parserStream p => (s.parsers p).stream.getD []
  | .atParser p => parserHand (s.parsers p).pc
  | .sinkStream k => (s.sinks k).stream.getD []
  | .atSink k => sinkHand (s.sinks k).pc
  | .finished k => finishedBy k labels
  | .gone => labels.filterMap drops

/-- The records that the sources have read, in order. -/
def readRecords (labels : List PipelineEvent) : List Record := labels.filterMap reads

/-- Which source read the record, and how many it had read before. -/
def recordKey (record : Record) : ℕ × ℕ := (record.source, record.seq)

/-- A changed sink holds what its channel and its thread hold. -/
theorem held_setSink (labels : List PipelineEvent) (s : Pipeline) (k : ℕ) (sink : SinkWorker) :
    held labels (s.setSink k sink) = Function.update
      (Function.update (held labels s) (.sinkStream k) (sink.stream.getD [])) (.atSink k)
      (sinkHand sink.pc) := by
  funext place
  cases place with
  | sinkStream j | atSink j => by_cases hj : j = k <;> simp [held, setSink, hj]
  | _ => simp [held, setSink]

/-- A changed parser holds what its channel and its thread hold. -/
theorem held_setParser (labels : List PipelineEvent) (s : Pipeline) (p : ℕ)
    (parser : ParserWorker) :
    held labels (s.setParser p parser) = Function.update
      (Function.update (held labels s) (.parserStream p) (parser.stream.getD [])) (.atParser p)
      (parserHand parser.pc) := by
  funext place
  cases place with
  | parserStream j | atParser j => by_cases hj : j = p <;> simp [held, setParser, hj]
  | _ => simp [held, setParser]

/-- A changed source holds what its thread holds. -/
theorem held_setSource (labels : List PipelineEvent) (s : Pipeline) (i : ℕ)
    (source : SourceWorker) :
    held labels (s.setSource i source) =
      Function.update (held labels s) (.atSource i) (sourceHand source.pc) := by
  funext place
  cases place with
  | atSource j => by_cases hj : j = i <;> simp [held, setSource, hj]
  | _ => simp [held, setSource]

/-- A step that finishes and drops nothing leaves what was finished and dropped. -/
theorem held_quiet (hquiet : drops event = none ∧ ∀ k, finishes k event = none)
    (labels : List PipelineEvent) (s : Pipeline) : held (labels ++ [event]) s = held labels s := by
  funext place
  cases place <;> simp [held, finishedBy, hquiet]

/-- A finished record comes last among those of its sink. -/
theorem held_finished (labels : List PipelineEvent) (s : Pipeline) (k : ℕ) (record : Record) :
    held (labels ++ [.finished k record]) s = Function.update (held labels s) (.finished k)
      (held labels s (.finished k) ++ [record]) := by
  funext place
  cases place with
  | finished j =>
    by_cases hj : k = j
    · subst hj
      simp [held, finishedBy, finishes]
    · simp [held, finishedBy, finishes, hj, Ne.symm hj]
  | _ => simp [held, drops]

/-- A dropped record comes last among those that are gone. -/
theorem held_dropped (hdrops : drops event = some record) (labels : List PipelineEvent)
    (s : Pipeline) : held (labels ++ [event]) s = Function.update (held labels s) .gone
      (held labels s .gone ++ [record]) := by
  have hfinishes : ∀ k, finishes k event = none := by
    intro k
    cases event <;> simp_all [drops, finishes]
  funext place
  cases place <;> simp [held, finishedBy, hfinishes, hdrops]

end Places

section Passages

/-- The passages of the records: what a step shows says how a record moves. -/
inductive Way : PipelineEvent → Passage Place Record → Prop
  | rest {event : PipelineEvent} (hquiet : Quiet event) : Way event .rest
  | read (i : ℕ) (record : Record) : Way (.read i record) (.enter (.atSource i) record)
  | route (i p : ℕ) (record : Record) :
      Way (.routed i p record) (.pass (.atSource i) (.parserStream p) record record)
  | pop (p : ℕ) (record : Record) :
      Way (.popped p { record with parser := some p })
        (.pass (.parserStream p) (.atParser p) record { record with parser := some p })
  | forward (p k : ℕ) (record : Record) :
      Way (.forwarded p k record) (.pass (.atParser p) (.sinkStream k) record record)
  | take (k : ℕ) (record : Record) :
      Way (.taken k record) (.pass (.sinkStream k) (.atSink k) record record)
  | finish (k : ℕ) (record : Record) :
      Way (.finished k record) (.pass (.atSink k) (.finished k) record record)
  | drop {event : PipelineEvent} {record : Record} (hdrops : drops event = some record)
      (place : Place) : Way event (.pass place .gone record record)

/-- One thread pushes to each stream channel: there is one source and one parser, as there is by
default. -/
structure OneWay (config : Config) : Prop where
  source : count config .source = 1
  parser : count config .parser = 1

theorem oneWay_default : OneWay {} := ⟨rfl, rfl⟩

/-- The records move as the step shows. -/
def Moved (labels : List PipelineEvent) (event : PipelineEvent) (s s' : Pipeline) : Prop :=
  ∃ passage, Way event passage ∧ Passes (held labels s) (held (labels ++ [event]) s') passage

/-- A step that moves nothing and shows nothing of the records. -/
theorem moved_quiet (hquiet : Quiet event) (h : held labels s' = held labels s) :
    Moved labels event s s' := by
  refine ⟨.rest, .rest hquiet, ?_⟩
  rw [held_quiet hquiet.2, h]
  exact .rest fun _ => rfl

/-- A source that holds what it held. -/
theorem held_setSource_same (hhand : sourceHand source.pc = sourceHand (s.sources i).pc) :
    held labels (s.setSource i source) = held labels s := by
  rw [held_setSource, hhand]
  exact Function.update_eq_self (.atSource i) (held labels s)

/-- The thread of a sink lets go of its record, or takes another. -/
theorem held_setSink_hand (hstream : sink.stream.getD [] = (s.sinks k).stream.getD []) :
    held labels (s.setSink k sink) =
      Function.update (held labels s) (.atSink k) (sinkHand sink.pc) := by
  rw [held_setSink, hstream]
  congr 1
  exact Function.update_eq_self (.sinkStream k) (held labels s)

/-- A sink that holds what it held. -/
theorem held_setSink_same (hstream : sink.stream.getD [] = (s.sinks k).stream.getD [])
    (hhand : sinkHand sink.pc = sinkHand (s.sinks k).pc) :
    held labels (s.setSink k sink) = held labels s := by
  rw [held_setSink_hand hstream, hhand]
  exact Function.update_eq_self (.atSink k) (held labels s)

/-- The channel of a sink changes, not what its thread holds. -/
theorem held_setSink_stream (hhand : sinkHand sink.pc = sinkHand (s.sinks k).pc) :
    held labels (s.setSink k sink) =
      Function.update (held labels s) (.sinkStream k) (sink.stream.getD []) := by
  rw [held_setSink, hhand]
  apply Function.update_eq_self_iff.mpr
  rw [Function.update_of_ne (by simp)]
  rfl

/-- The thread of a parser lets go of its record, or takes another. -/
theorem held_setParser_hand (hstream : parser.stream.getD [] = (s.parsers p).stream.getD []) :
    held labels (s.setParser p parser) =
      Function.update (held labels s) (.atParser p) (parserHand parser.pc) := by
  rw [held_setParser, hstream]
  congr 1
  exact Function.update_eq_self (.parserStream p) (held labels s)

/-- A parser that holds what it held. -/
theorem held_setParser_same (hstream : parser.stream.getD [] = (s.parsers p).stream.getD [])
    (hhand : parserHand parser.pc = parserHand (s.parsers p).pc) :
    held labels (s.setParser p parser) = held labels s := by
  rw [held_setParser_hand hstream, hhand]
  exact Function.update_eq_self (.atParser p) (held labels s)

/-- The channel of a parser changes, not what its thread holds. -/
theorem held_setParser_stream (hhand : parserHand parser.pc = parserHand (s.parsers p).pc) :
    held labels (s.setParser p parser) =
      Function.update (held labels s) (.parserStream p) (parser.stream.getD []) := by
  rw [held_setParser, hhand]
  apply Function.update_eq_self_iff.mpr
  rw [Function.update_of_ne (by simp)]
  rfl

/-- A record is dropped from the front of a place. -/
theorem moved_drop {place : Place} {rest : List Record} (hdrops : drops event = some record)
    (hplace : place ≠ .gone) (hfront : held labels s place = record :: rest)
    (h : held labels s' = Function.update (held labels s) place rest) :
    Moved labels event s s' := by
  refine ⟨_, .drop hdrops place, ?_⟩
  rw [held_dropped hdrops, h, Function.update_of_ne hplace.symm]
  exact passes_pass hplace hfront record

/-- A sink thread goes on with what it holds. -/
theorem moved_sink_quiet {pc : SinkPc} (hquiet : Quiet event) (hpc : (s.sinks k).pc = pc)
    (hstream : sink.stream = (s.sinks k).stream) (hhand : sinkHand sink.pc = sinkHand pc) :
    Moved labels event s (s.setSink k sink) :=
  moved_quiet hquiet (held_setSink_same (by rw [hstream]) (by rw [hhand, hpc]))

/-- The steps of a sink thread. -/
theorem SinkMove.moved (hstartUp : StartUp config s)
    (h : SinkMove config k (s.sinks k) event sink) :
    Moved labels event s (s.setSink k sink) := by
  cases h with
  | opened stream numHandles hpc hstate =>
    have hnone : (s.sinks k).stream = none := by
      obtain ⟨status, his, -⟩ := hstartUp.allowed .sink k
      cases status <;> simp_all [Is, SinkIs]
    apply moved_quiet ⟨rfl, rfl, fun _ => rfl⟩
    apply held_setSink_same
    · simp [hnone]
    · simp [hpc, sinkHand]
  | started hpc | stopped hpc hstate | wrote hpc hlt | ended hpc =>
    exact moved_sink_quiet ⟨rfl, rfl, fun _ => rfl⟩ hpc rfl rfl
  | @taken record rest hpc hstream =>
    refine ⟨_, .take k record, ?_⟩
    have hhand : held labels s (.atSink k) = [] := by simp [held, hpc, sinkHand]
    have hfront : held labels s (.sinkStream k) = record :: rest := by simp [held, hstream]
    rw [held_quiet ⟨rfl, fun _ => rfl⟩, held_setSink]
    have hpasses := passes_pass (b := .atSink k) (by simp) hfront record
    rwa [hhand] at hpasses
  | @finished record i hpc hge =>
    refine ⟨_, .finish k record, ?_⟩
    have hfront : held labels s (.atSink k) = record :: [] := by simp [held, hpc, sinkHand]
    have hafter : held labels (s.setSink k { s.sinks k with pc := .loop }) =
        Function.update (held labels s) (.atSink k) [] := held_setSink_hand rfl
    rw [held_finished, hafter, Function.update_of_ne (by simp)]
    exact passes_pass (by simp) hfront record
  | @drained record rest hpc hstream =>
    have hfront : held labels s (.sinkStream k) = record :: rest := by simp [held, hstream]
    exact moved_drop rfl (by simp) hfront (held_setSink_stream (by rw [hpc]))

/-- A parser thread goes on with what it holds. -/
theorem moved_parser_quiet {p : ℕ} {parser : ParserWorker} {pc : ParserPc} (hquiet : Quiet event)
    (hpc : (s.parsers p).pc = pc) (hstream : parser.stream = (s.parsers p).stream)
    (hhand : parserHand parser.pc = parserHand pc) :
    Moved labels event s (s.setParser p parser) :=
  moved_quiet hquiet (held_setParser_same (by rw [hstream]) (by rw [hhand, hpc]))

/-- A parser thread drops the record in its hand. -/
theorem moved_parser_drop (hdrops : drops event = some record)
    (hhand : parserHand (s.parsers p).pc = [record])
    (hstream : parser.stream.getD [] = (s.parsers p).stream.getD [])
    (hempty : parserHand parser.pc = []) : Moved labels event s (s.setParser p parser) := by
  have hfront : held labels s (.atParser p) = record :: [] := hhand
  apply moved_drop hdrops (by simp) hfront
  rw [held_setParser_hand hstream, hempty]

/-- The steps of a parser thread in its own context. -/
theorem ParserMove.moved (hstartUp : StartUp config s)
    (h : ParserMove config s p (s.parsers p) event parser) :
    Moved labels event s (s.setParser p parser) := by
  cases h with
  | opened stream report hpc hstate =>
    have hnone : (s.parsers p).stream = none := by
      obtain ⟨status, his, -⟩ := hstartUp.allowed .parser p
      cases status with
      | ready =>
        obtain ⟨-, -, -, hworks⟩ := his
        cases hworks <;> simp_all
      | _ => simp_all [Is, ParserIs]
    apply moved_quiet ⟨rfl, rfl, fun _ => rfl⟩
    apply held_setParser_same
    · simp [hnone]
    · simp [hpc, parserHand]
  | reported hpc hreport hpush =>
    exact moved_quiet ⟨rfl, rfl, fun _ => rfl⟩ (held_setParser_same rfl rfl)
  | started _ hpc | stopped hpc | parsed hpc | offline hpc | chosen hpc | full hpc | drains hpc
  | ended hpc => exact moved_parser_quiet ⟨rfl, rfl, fun _ => rfl⟩ hpc rfl rfl
  | @popped record rest hpc hstream =>
    refine ⟨_, .pop p record, ?_⟩
    have hhand : held labels s (.atParser p) = [] := by simp [held, hpc, parserHand]
    have hfront : held labels s (.parserStream p) = record :: rest := by simp [held, hstream]
    rw [held_quiet ⟨rfl, fun _ => rfl⟩, held_setParser]
    have hpasses := passes_pass (b := .atParser p) (by simp) hfront
      { record with parser := some p }
    rwa [hhand] at hpasses
  | unparsed hpc | unknown hpc | dropped hpc =>
    exact moved_parser_drop rfl (by simp [hpc, parserHand]) rfl rfl
  | @drained record rest hpc hstream | @drainedAsEvent record rest hpc hstream =>
    have hfront : held labels s (.parserStream p) = record :: rest := by simp [held, hstream]
    exact moved_drop rfl (by simp) hfront (held_setParser_stream (by rw [hpc]))

/-- A parser thread pushes its record to a sink. -/
theorem Forwards.moved (h : Forwards s p event s') : Moved labels event s s' := by
  obtain @⟨record, queue, queue', hpc, hstream, hpush⟩ := h
  obtain ⟨-, rfl⟩ := enqueue_eq_some_iff.mp hpush
  refine ⟨_, .forward p (s.parsers p).offset record, ?_⟩
  have hfront : held labels s (.atParser p) = record :: [] := by simp [held, hpc, parserHand]
  have hback : held labels s (.sinkStream (s.parsers p).offset) = queue := by simp [held, hstream]
  have hpasses := passes_pass (b := .sinkStream (s.parsers p).offset) (by simp) hfront record
  rw [hback] at hpasses
  rw [held_quiet ⟨rfl, fun _ => rfl⟩, held_setParser_hand, held_setSink_stream,
    Function.update_comm (by simp)]
  · exact hpasses
  · rfl
  · rfl

/-- A source thread goes on with what it holds. -/
theorem moved_source_quiet {pc : SourcePc} (hquiet : Quiet event) (hpc : (s.sources i).pc = pc)
    (hhand : sourceHand source.pc = sourceHand pc) : Moved labels event s (s.setSource i source) :=
  moved_quiet hquiet (held_setSource_same (by rw [hhand, hpc]))

/-- The steps of a source thread in its own context. -/
theorem SourceMove.moved (h : SourceMove config s i (s.sources i) event source) :
    Moved labels event s (s.setSource i source) := by
  cases h with
  | opened _ hpc | started hpc | stopped hpc | offline hpc | chosen hpc | full hpc =>
    exact moved_source_quiet ⟨rfl, rfl, fun _ => rfl⟩ hpc rfl
  | read protocolType hpc =>
    refine ⟨.enter (.atSource i)
      { source := i, seq := (s.sources i).numRead, protocolType := protocolType },
      .read i _, ?_⟩
    have hhand : held labels s (.atSource i) = [] := by simp [held, hpc, sourceHand]
    rw [held_quiet ⟨rfl, fun _ => rfl⟩, held_setSource]
    have hpasses := passes_enter (held labels s) (.atSource i)
      { source := i, seq := (s.sources i).numRead, protocolType := protocolType }
    rwa [hhand] at hpasses
  | @dropped record hpc hge =>
    have hfront : held labels s (.atSource i) = record :: [] := by simp [held, hpc, sourceHand]
    exact moved_drop rfl (by simp) hfront (held_setSource ..)

/-- A source thread pushes its record to a parser. -/
theorem Routes.moved (h : Routes s i event s') : Moved labels event s s' := by
  obtain @⟨record, queue, queue', hpc, hstream, hpush⟩ := h
  obtain ⟨-, rfl⟩ := enqueue_eq_some_iff.mp hpush
  refine ⟨_, .route i (s.sources i).offset record, ?_⟩
  have hfront : held labels s (.atSource i) = record :: [] := by simp [held, hpc, sourceHand]
  have hback : held labels s (.parserStream (s.sources i).offset) = queue := by
    simp [held, hstream]
  have hpasses := passes_pass (b := .parserStream (s.sources i).offset) (by simp) hfront record
  rw [hback] at hpasses
  rw [held_quiet ⟨rfl, fun _ => rfl⟩, held_setSource, held_setParser_stream,
    Function.update_comm (by simp)]
  · exact hpasses
  · rfl

/-- Storing the state of a worker moves no record. -/
theorem held_storeInit (labels : List PipelineEvent) (s : Pipeline) (role : Role) (i : ℕ) :
    held labels (s.storeInit role i) = held labels s := by
  cases role with
  | sink => exact held_setSink_same rfl rfl
  | parser => exact held_setParser_same rfl rfl
  | source => exact held_setSource_same rfl

/-- A thread that is created holds nothing yet. -/
theorem held_createThread {role : Role} (his : s.Is config .armed role i) :
    held labels (s.createThread role i) = held labels s := by
  cases role with
  | sink => exact held_setSink_same rfl (by simp [his.2.1, sinkHand])
  | parser => exact held_setParser_same rfl (by simp [his.2.1, parserHand])
  | source => exact held_setSource_same (by simp [his.2, sourceHand])

/-- The main thread moves no record while it starts the others. -/
theorem StartMove.moved (hstartUp : StartUp config s) (h : StartMove config s s') :
    Moved labels .silent s s' := by
  apply moved_quiet ⟨rfl, rfl, fun _ => rfl⟩
  cases h with
  | @stored role i hmain hlt => exact held_storeInit labels s role i
  | @created role i hmain =>
    obtain ⟨status, his, hallowed⟩ := hstartUp.allowed role i
    obtain rfl : status = .armed := by
      simpa [Allowed, hmain, confirmed, not_lt_seen] using hallowed
    have hsame : held labels (s.createThread role i) = held labels s := held_createThread his
    exact hsame
  | _ => rfl

/-- The main thread moves no record while it handles events. -/
theorem ServeMove.moved (h : ServeMove config s event s') : Moved labels event s s' := by
  cases h with
  | goes hfrom hto => exact moved_quiet ⟨rfl, rfl, fun _ => rfl⟩ rfl
  | @updated i handles hmain =>
    have hsame : held labels (s.setParser i { s.parsers i with handles := handles }) =
      held labels s := held_setParser_same rfl rfl
    exact moved_quiet ⟨rfl, rfl, fun _ => rfl⟩ hsame
  | @alarmed i queue queue' e hmain hreport hpush =>
    have hsame : held labels (s.setParser i { s.parsers i with report := some queue' }) =
      held labels s := held_setParser_same rfl rfl
    exact moved_quiet ⟨rfl, rfl, fun _ => rfl⟩ hsame
  | sent hfrom hreport => exact moved_quiet ⟨rfl, rfl, fun _ => rfl⟩ (held_setParser_same rfl rfl)

/-- Threads that race do not move a record: no two of them push to a stream channel. -/
theorem held_disturb {race : Race} (hone : OneWay config) (hrace : s.Contended config race) :
    held labels (s.disturb race) = held labels s := by
  cases race with
  | parserStream p queue => exact absurd hrace.1 hone.source.not_gt
  | sinkStream k queue => exact absurd hrace.1 hone.parser.not_gt
  | report queue => exact held_setParser_same rfl rfl

/-- Every step moves at most one record, on its way. -/
theorem Move.moved (hone : OneWay config) (hstartUp : StartUp config s)
    (h : Move config s event s') : Moved labels event s s' := by
  cases h with
  | idle | crash hcause => exact moved_quiet ⟨rfl, rfl, fun _ => rfl⟩ rfl
  | raced hrace => exact moved_quiet ⟨rfl, rfl, fun _ => rfl⟩ (held_disturb hone hrace)
  | start hmove | sink k hmove | parser p hmove => exact hmove.moved hstartUp
  | serve hmove | forwards p hmove | source i hmove | routes i hmove => exact hmove.moved

end Passages

section Once

variable {passage : Passage Place Record}

/-- A source numbers the records it reads. -/
theorem Move.numRead (h : Move config s event s') (i : ℕ) :
    (s'.sources i).numRead = (s.sources i).numRead ∧ (∀ record, event ≠ .read i record) ∨
      (s'.sources i).numRead = (s.sources i).numRead + 1 ∧ ∃ protocolType, event =
        .read i { source := i, seq := (s.sources i).numRead, protocolType := protocolType } := by
  cases h with
  | idle | crash hcause => exact .inl ⟨rfl, by simp⟩
  | @raced race _ => cases race <;> exact .inl ⟨rfl, by simp⟩
  | start hmove =>
    refine .inl ⟨?_, by simp⟩
    cases hmove with
    | @stored role j hmain hlt =>
      cases role with
      | source => by_cases hi : i = j <;> simp [storeInit, setSource, hi]
      | _ => rfl
    | @created role j hmain =>
      cases role with
      | source => by_cases hi : i = j <;> simp [createThread, setSource, hi]
      | _ => rfl
    | _ => rfl
  | serve hmove | sink k hmove | parser p hmove | forwards p hmove =>
    cases hmove <;> exact .inl ⟨rfl, by simp⟩
  | source j hmove =>
    by_cases hi : i = j
    · subst hi
      cases hmove with
      | read protocolType hpc => exact .inr ⟨by simp [setSource], protocolType, rfl⟩
      | _ => exact .inl ⟨by simp [setSource], by simp⟩
    · refine .inl ⟨by simp [setSource, hi], ?_⟩
      cases hmove <;> simp [Ne.symm hi]
  | routes j hmove =>
    cases hmove
    refine .inl ⟨?_, by simp⟩
    by_cases hi : i = j <;> simp [setSource, setParser, hi]

/-- What is known of a record at a place. -/
def Tagged : Place → Record → Prop
  | .atSource i, record => record.source = i
  | .atParser p, record => record.parser = some p
  | _, _ => True

/-- Where the records are. -/
structure Tracked (labels : List PipelineEvent) (s : Pipeline) : Prop where
  nodup : ((readRecords labels).map recordKey).Nodup
  numbered {i n : ℕ} : (i, n) ∈ (readRecords labels).map recordKey ↔ n < (s.sources i).numRead
  placed : Placed recordKey (held labels s) { key | key ∈ (readRecords labels).map recordKey }
  tagged (place : Place) : ∀ record ∈ held labels s place, Tagged place record

/-- Nothing has been read. -/
theorem tracked_init : Tracked [] init where
  nodup := List.nodup_nil
  numbered := by simp [readRecords, init]
  placed := by
    have hheld : held [] init = fun _ => [] := by
      funext place
      cases place <;> rfl
    rw [hheld]
    simpa [readRecords] using placed_nil recordKey
  tagged place record hrecord := by cases place <;> cases hrecord

/-- What a step reads is what its passage issues. -/
theorem Way.issues (h : Way event passage) :
    passage.issues recordKey = { key | key ∈ (readRecords [event]).map recordKey } := by
  cases h with
  | rest hquiet => simp [Passage.issues, readRecords, hquiet.1]
  | read i record =>
    ext key
    simp [Passage.issues, readRecords, reads]
  | drop hdrops place =>
    have hreads : reads event = none := by cases event <;> simp_all [drops, reads]
    simp [Passage.issues, readRecords, hreads]
  | _ => simp [Passage.issues, readRecords, reads]

/-- What a source reads is new. -/
theorem Move.fair {passage : Passage Place Record} (hmove : Move config s event s')
    (hway : Way event passage) (h : Tracked labels s) :
    passage.Fair recordKey { key | key ∈ (readRecords labels).map recordKey } := by
  cases hway with
  | read i record =>
    obtain ⟨-, hne⟩ | ⟨-, protocolType, heq⟩ := hmove.numRead i
    · exact absurd rfl (hne record)
    · cases heq
      exact fun hmem => lt_irrefl _ (h.numbered.mp hmem)
  | _ => trivial

/-- A record that passes to a place is what one of that place is. -/
theorem Move.tagged (hmove : Move config s event s') (hway : Way event passage)
    (hpasses : Passes (held labels s) (held (labels ++ [event]) s') passage) (h : Tracked labels s)
    (place : Place) : ∀ record ∈ held (labels ++ [event]) s' place, Tagged place record := by
  apply hpasses.forall_mem h.tagged
  · rintro place record rfl
    cases hway with
    | read i =>
      obtain ⟨-, hne⟩ | ⟨-, protocolType, heq⟩ := hmove.numRead i
      · exact absurd rfl (hne record)
      · cases heq
        rfl
  · rintro a b record record' rfl -
    cases hway <;> simp [Tagged]

theorem readRecords_snoc (labels : List PipelineEvent) (event : PipelineEvent) :
    readRecords (labels ++ [event]) = readRecords labels ++ readRecords [event] :=
  List.filterMap_append

/-- The numbers of the records go on where they ended. -/
theorem Move.numbered (hmove : Move config s event s') (h : Tracked labels s) {n : ℕ} :
    (i, n) ∈ (readRecords (labels ++ [event])).map recordKey ↔ n < (s'.sources i).numRead := by
  rw [readRecords_snoc, List.map_append, List.mem_append, h.numbered]
  obtain ⟨hsame, hne⟩ | ⟨hmore, protocolType, rfl⟩ := hmove.numRead i
  · -- a step that reads for another source has another key
    have hother : (i, n) ∉ (readRecords [event]).map recordKey := by
      cases event with
      | read j record =>
        obtain ⟨-, hne'⟩ | ⟨-, protocolType, heq⟩ := hmove.numRead j
        · exact absurd rfl (hne' record)
        · have hij : i ≠ j := by
            rintro rfl
            exact hne record rfl
          cases heq
          simp [readRecords, reads, recordKey, hij]
      | _ => simp [readRecords, reads]
    rw [hsame, or_iff_left hother]
  · rw [hmore]
    simp [readRecords, reads, recordKey]
    omega

/-- Every step leaves every record at one place. -/
theorem Move.tracked (hone : OneWay config) (hstartUp : StartUp config s) (h : Tracked labels s)
    (hmove : Move config s event s') : Tracked (labels ++ [event]) s' := by
  have hmoved : Moved labels event s s' := hmove.moved hone hstartUp
  obtain ⟨passage, hway, hpasses⟩ := hmoved
  have hfair := hmove.fair hway h
  refine ⟨?_, hmove.numbered h, ?_, hmove.tagged hway hpasses h⟩
  · rw [readRecords_snoc, List.map_append, List.nodup_append']
    refine ⟨h.nodup, ?_, ?_⟩
    · cases hreads : reads event <;> simp [readRecords, hreads]
    · intro key hold hnew
      have hissues : key ∈ passage.issues recordKey := by
        rw [hway.issues]
        exact hnew
      cases passage with
      | enter place record =>
        obtain rfl := hissues
        exact hfair hold
      | _ => exact hissues.elim
  · have hissued : { key | key ∈ (readRecords (labels ++ [event])).map recordKey } =
        passage.issues recordKey ∪ { key | key ∈ (readRecords labels).map recordKey } := by
      ext key
      rw [hway.issues, readRecords_snoc]
      simp [or_comm]
    rw [hissued]
    exact hpasses.placed hfair h.placed

/-- In every reachable state every record is where it is tracked. -/
theorem tracked_of_run (hone : OneWay config) (hrun : Run (Step config) init labels s) :
    Tracked labels s :=
  run_invariant tracked_init (fun _ _ _ _ hstartUp h hmove => hmove.tracked hone hstartUp h) hrun

/-- With one source and one parser, however the threads interleave, no record is lost or doubled: a
record that the source has read is at one place and once there, and nothing else is anywhere. -/
theorem records_conserved (hone : OneWay config) (hrun : Run (Step config) init labels s) :
    (∀ key ∈ (readRecords labels).map recordKey,
      ∃! place, key ∈ (held labels s place).map recordKey) ∧
    ∀ place, ((held labels s place).map recordKey).Nodup ∧
      (held labels s place).map recordKey ⊆ (readRecords labels).map recordKey := by
  have h := (tracked_of_run hone hrun).placed
  refine ⟨fun key hkey => ?_, fun place => ⟨h.nodup place, fun key hkey => ?_⟩⟩
  · obtain ⟨place, hplace⟩ := h.mem_iff.mp hkey
    exact ⟨place, hplace, fun place' hplace' => h.unique hplace' hplace⟩
  · exact h.mem_iff.mpr ⟨place, hkey⟩

/-- A record that has gone through the process is finished, and not anywhere else. -/
theorem records_conserved_default :
    ∃ labels s, Run (Step {}) init labels s ∧
      (0, 0) ∈ (held labels s (.finished 0)).map recordKey ∧
      ∀ place, (0, 0) ∈ (held labels s place).map recordKey → place = .finished 0 := by
  have hexec : (exec (next {}) init (startsUp ++ oneRecord)).map (fun result =>
      decide ((0, 0) ∈ (held result.1 result.2 (.finished 0)).map recordKey ∧
        (0, 0) ∈ (readRecords result.1).map recordKey)) = some true := by
    decide +kernel
  obtain ⟨labels, s, hrun, hdone⟩ := exists_run_of_exec hexec
  obtain ⟨hfinished, hread⟩ := of_decide_eq_true hdone
  refine ⟨labels, s, hrun, hfinished, fun place hplace => ?_⟩
  exact ((records_conserved oneWay_default hrun).1 (0, 0) hread).unique hplace hfinished

end Once

section Order

/-- The places that a record of a source passes on its way through a parser to a sink, the last
first. -/
def passing (i p k : ℕ) : List Place :=
  [.finished k, .atSink k, .sinkStream k, .atParser p, .parserStream p, .atSource i]

/-- The records that count on the way: those of the source and, behind the parsers, of the parser.
-/
def onRoute (i p : ℕ) : Place → Record → Bool
  | .sinkStream _, record | .atSink _, record | .finished _, record =>
    record.source == i && record.parser == some p
  | _, record => record.source == i

/-- A record that comes to a place of the way comes from the place before. -/
theorem Way.follows {passage : Passage Place Record} (hway : Way event passage)
    {held' : Place → List Record} (hpasses : Passes (held labels s) held' passage)
    (h : Tracked labels s) (i p k : ℕ) :
    passage.Follows Record.seq (onRoute i p) (passing i p k) := by
  -- the place that a record leaves is known by its tag
  have htag : ∀ {a b x y}, passage = .pass a b x y → Tagged a x := by
    rintro a b x y rfl
    cases hpasses with
    | pass hne hfrom => exact h.tagged a x (hfrom ▸ List.mem_cons_self)
  cases hway with
  | rest => trivial
  | read j record =>
    intro hmem hcounts
    obtain rfl : j = i := by simpa [passing] using hmem
    exact ⟨[.finished k, .atSink k, .sinkStream k, .atParser p, .parserStream p], rfl⟩
  | route j q record =>
    intro hmem hcounts
    obtain rfl : q = p := by simpa [passing] using hmem
    have hsource : record.source = j := htag rfl
    obtain rfl : j = i := by simpa [onRoute, hsource] using hcounts
    exact ⟨rfl, hcounts, [.finished k, .atSink k, .sinkStream k, .atParser q], [], rfl⟩
  | pop q record =>
    intro hmem hcounts
    obtain rfl : q = p := by simpa [passing] using hmem
    exact ⟨rfl, hcounts, [.finished k, .atSink k, .sinkStream k], [.atSource i], rfl⟩
  | forward q j record =>
    intro hmem hcounts
    obtain rfl : j = k := by simpa [passing] using hmem
    have hparser : record.parser = some q := htag rfl
    simp only [onRoute, hparser, Bool.and_eq_true, beq_iff_eq, Option.some.injEq] at hcounts
    obtain ⟨hsource, rfl⟩ := hcounts
    exact ⟨rfl, by simpa [onRoute] using hsource, [.finished j, .atSink j],
      [.parserStream q, .atSource i], rfl⟩
  | take j record =>
    intro hmem hcounts
    obtain rfl : j = k := by simpa [passing] using hmem
    exact ⟨rfl, hcounts, [.finished j], [.atParser p, .parserStream p, .atSource i], rfl⟩
  | finish j record =>
    intro hmem hcounts
    obtain rfl : j = k := by simpa [passing] using hmem
    exact ⟨rfl, hcounts, [], [.sinkStream j, .atParser p, .parserStream p, .atSource i], rfl⟩
  | drop hdrops place =>
    intro hmem
    simp [passing] at hmem

/-- Along every way the records stand in the order in which they were read. -/
def InOrder (labels : List PipelineEvent) (s : Pipeline) : Prop :=
  ∀ i p k, ((along (onRoute i p) (held labels s) (passing i p k)).map Record.seq).Pairwise (· < ·)

/-- What a source has read before was read before. -/
theorem Tracked.seq_lt (h : Tracked labels s)
    (hrecord : record ∈ along (onRoute i p) (held labels s) (passing i p k)) :
    record.seq < (s.sources i).numRead := by
  obtain ⟨place, -, hplace⟩ := List.mem_flatMap.mp hrecord
  obtain ⟨hheld, hcounts⟩ := List.mem_filter.mp hplace
  have hsource : record.source = i := by cases place <;> simp_all [onRoute]
  subst hsource
  exact h.numbered.mp (h.placed.mem_iff.mpr ⟨place, List.mem_map_of_mem hheld⟩)

/-- Every step keeps the records in order. -/
theorem Move.inOrder (hone : OneWay config) (hstartUp : StartUp config s)
    (h : Tracked labels s ∧ InOrder labels s) (hmove : Move config s event s') :
    Tracked (labels ++ [event]) s' ∧ InOrder (labels ++ [event]) s' := by
  obtain ⟨htracked, horder⟩ := h
  refine ⟨hmove.tracked hone hstartUp htracked, fun i p k => ?_⟩
  have hmoved : Moved labels event s s' := hmove.moved hone hstartUp
  obtain ⟨passage, hway, hpasses⟩ := hmoved
  refine hpasses.pairwise (by simp [passing]) (hway.follows hpasses htracked i p k) ?_
    (horder i p k)
  rintro place record rfl hcounts earlier hearlier
  cases hway with
  | read j =>
    obtain ⟨-, hne⟩ | ⟨-, protocolType, heq⟩ := hmove.numRead j
    · exact absurd rfl (hne record)
    · cases heq
      obtain rfl : j = i := by simpa [onRoute] using hcounts
      exact htracked.seq_lt hearlier

/-- With one source and one parser, however the threads interleave, a sink finishes the records that
the source read and the parser parsed in the order in which the source read them. -/
theorem records_in_order (hone : OneWay config) (hrun : Run (Step config) init labels s)
    (i p k : ℕ) :
    (((finishedBy k labels).filter fun record =>
      record.source = i ∧ record.parser = some p).map Record.seq).Pairwise (· < ·) := by
  have hrest : InOrder [] init := by
    intro i p k
    exact List.Pairwise.nil
  have hrun : Tracked labels s ∧ InOrder labels s :=
    run_invariant (I := fun labels s => Tracked labels s ∧ InOrder labels s) ⟨tracked_init, hrest⟩
      (fun _ _ _ _ hstartUp h hmove => hmove.inOrder hone hstartUp h) hrun
  have horder := hrun.2 i p k
  rw [passing, along_cons, List.map_append] at horder
  have hcounts : onRoute i p (.finished k) =
      fun record => decide (record.source = i ∧ record.parser = some p) := by
    funext record
    simp [onRoute, Bool.beq_eq_decide_eq]
  rw [← hcounts]
  exact (List.pairwise_append.mp horder).1

/-- Two records go through the process one after the other. -/
theorem records_in_order_default :
    ∃ labels s, Run (Step {}) init labels s ∧
      finishedBy 0 labels = [⟨0, 0, 7, some 0⟩, ⟨0, 1, 7, some 0⟩] ∧
      (((finishedBy 0 labels).filter fun record =>
        record.source = 0 ∧ record.parser = some 0).map Record.seq).Pairwise (· < ·) := by
  have hexec : (exec (next {}) init (startsUp ++ oneRecord ++ oneRecord)).map (fun result =>
      decide (finishedBy 0 result.1 = [⟨0, 0, 7, some 0⟩, ⟨0, 1, 7, some 0⟩])) = some true := by
    decide +kernel
  obtain ⟨labels, s, hrun, hdone⟩ := exists_run_of_exec hexec
  exact ⟨labels, s, hrun, of_decide_eq_true hdone,
    records_in_order oneWay_default hrun 0 0 0⟩

end Order

end Pipeline

end Demos.Oak
