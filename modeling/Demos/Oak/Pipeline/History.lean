import Demos.Oak.Pipeline.Records

/-!
# What has happened to a record

The steps that a run shows tell the whole way of a record. A record that a sink has finished was
read, routed, popped, parsed, forwarded and taken before, in this order, if there is one source and
one parser; every handle of a sink is given the same records in the same order; and what the main
thread sends is what the report channels accepted, in order, where one thread pushes to them.
-/

namespace Demos.Oak

open Demos.Lib

namespace Pipeline

variable {config : Config} {s s' : Pipeline} {event : PipelineEvent} {labels : List PipelineEvent}
  {record : Record} {k p : ℕ} {sink sink' : SinkWorker} {parser : ParserWorker}

section Stages

/-- What has happened to a record that a parser has popped. -/
def untilPopped (p : ℕ) (record : Record) : List PipelineEvent :=
  [.read record.source { record with parser := none },
    .routed record.source p { record with parser := none }, .popped p record]

/-- What has happened to a record that a sink has finished. -/
def untilFinished (p k : ℕ) (record : Record) : List PipelineEvent :=
  untilPopped p record ++
    [.parsed p record, .forwarded p k record, .taken k record, .finished k record]

/-- What a record at a place has behind it. -/
def Behind (labels : List PipelineEvent) : Place → Record → Prop
  | .atSource i, record => record.source = i ∧ record.parser = none ∧
      [.read i record].Sublist labels
  | .parserStream p, record => record.parser = none ∧
      [.read record.source record, .routed record.source p record].Sublist labels
  | .atParser p, record => record.parser = some p ∧ (untilPopped p record).Sublist labels
  | .sinkStream k, record => ∃ p, record.parser = some p ∧
      (untilPopped p record ++
        [PipelineEvent.parsed p record, .forwarded p k record]).Sublist labels
  | .atSink k, record => ∃ p, record.parser = some p ∧
      (untilPopped p record ++
        [PipelineEvent.parsed p record, .forwarded p k record, .taken k record]).Sublist labels
  | .finished k, record => ∃ p, record.parser = some p ∧ (untilFinished p k record).Sublist labels
  | .gone, _ => True

/-- A parser has parsed the record in its hand. -/
def HasParsed (parser : ParserWorker) (record : Record) : Prop :=
  parser.pc = .delivering record ∨ parser.pc = .pushing record

/-- What every record has behind it. -/
structure Histories (labels : List PipelineEvent) (s : Pipeline) : Prop where
  behind (place : Place) : ∀ record ∈ held labels s place, Behind labels place record
  parsed {p : ℕ} {record : Record} : HasParsed (s.parsers p) record →
    record.parser = some p ∧
      (untilPopped p record ++ [PipelineEvent.parsed p record]).Sublist labels

/-- What a record has behind it stays behind it. -/
theorem Behind.mono {place : Place} (h : Behind labels place record) (event : PipelineEvent) :
    Behind (labels ++ [event]) place record := by
  have hmore : labels.Sublist (labels ++ [event]) := List.sublist_append_left labels [event]
  cases place with
  | atSource i => exact ⟨h.1, h.2.1, h.2.2.trans hmore⟩
  | parserStream p | atParser p => exact ⟨h.1, h.2.trans hmore⟩
  | sinkStream k | atSink k | finished k => exact h.imp fun p hp => ⟨hp.1, hp.2.trans hmore⟩
  | gone => trivial

theorem sublist_snoc {before : List PipelineEvent} (h : before.Sublist labels)
    (event : PipelineEvent) : (before ++ [event]).Sublist (labels ++ [event]) :=
  h.append (List.Sublist.refl [event])

/-- Where a parser thread is changes when it moves, is created or has pushed its record. -/
theorem Move.parserPc (hmove : Move config s event s') (p : ℕ) :
    (s'.parsers p).pc = (s.parsers p).pc ∨ (s'.parsers p).pc = .created ∨
      (s'.parsers p).pc = .loop ∨ ParserMove config s p (s.parsers p) event (s'.parsers p) := by
  cases hmove with
  | idle | crash | sink | source => exact .inl rfl
  | @raced race _ =>
    left
    cases race with
    | parserStream i queue => by_cases hp : p = i <;> simp [disturb, setParser, hp]
    | sinkStream k queue => rfl
    | report queue => by_cases hp : p = 0 <;> simp [disturb, setParser, hp]
  | start hmove =>
    cases hmove with
    | @stored role i hmain hlt =>
      cases role with
      | parser =>
        left
        by_cases hp : p = i <;> simp [storeInit, setParser, hp]
      | _ => exact .inl rfl
    | @created role i hmain =>
      cases role with
      | parser =>
        by_cases hp : p = i
        · subst hp
          exact .inr (.inl (by simp [createThread, setParser]))
        · exact .inl (by simp [createThread, setParser, hp])
      | _ => exact .inl rfl
    | _ => exact .inl rfl
  | serve hmove =>
    left
    cases hmove with
    | goes hfrom hto => rfl
    | @updated i | @alarmed i | @sent i => by_cases hp : p = i <;> simp [setParser, hp]
  | parser q hmove =>
    by_cases hp : p = q
    · subst hp
      exact .inr (.inr (.inr (by simpa [setParser] using hmove)))
    · exact .inl (by simp [setParser, hp])
  | forwards q hmove =>
    cases hmove
    by_cases hp : p = q
    · exact .inr (.inr (.inl (by simp [setParser, hp])))
    · exact .inl (by simp [setParser, setSink, hp])
  | routes i hmove =>
    left
    cases hmove
    by_cases hp : p = (s.sources i).offset <;> simp [setParser, setSource, hp]

/-- A parser thread comes to deliver a record by parsing it. -/
theorem Move.hasParsed {p : ℕ} (hmove : Move config s event s')
    (hparsed : HasParsed (s'.parsers p) record) :
    HasParsed (s.parsers p) record ∨
      (s.parsers p).pc = .popped record ∧ event = .parsed p record := by
  unfold HasParsed at hparsed ⊢
  obtain hsame | hcreated | hloop | hparser := hmove.parserPc p
  · rw [hsame] at hparsed
    exact .inl hparsed
  · simp [hcreated] at hparsed
  · simp [hloop] at hparsed
  · generalize s'.parsers p = parser at hparser hparsed
    cases hparser <;> simp_all

/-- A parser thread pushes the record that it has parsed. -/
theorem Move.pushing (hmove : Move config s (.forwarded p k record) s') :
    (s.parsers p).pc = .pushing record := by
  cases hmove with
  | forwards p hmove =>
    cases hmove with
    | intro hpc hstream hpush => exact hpc
  | serve hmove | sink _ hmove | parser _ hmove | source _ hmove | routes _ hmove => cases hmove

/-- A record that passes to a place has the step behind it as well. -/
theorem Move.behind {passage : Passage Place Record} (hmove : Move config s event s')
    (hway : Way event passage)
    (hpasses : Passes (held labels s) (held (labels ++ [event]) s') passage)
    (h : Histories labels s) (place : Place) :
    ∀ record ∈ held (labels ++ [event]) s' place, Behind (labels ++ [event]) place record := by
  apply hpasses.forall_mem fun place record hrecord => (h.behind place record hrecord).mono event
  · rintro place record rfl
    cases hway with
    | read i =>
      obtain ⟨-, hne⟩ | ⟨-, protocolType, heq⟩ := hmove.numRead i
      · exact absurd rfl (hne record)
      · cases heq
        exact ⟨rfl, rfl, List.sublist_append_right labels _⟩
  · rintro a b record record' rfl hrecord
    have hbehind := h.behind a record hrecord
    cases hway with
    | route i p =>
      obtain ⟨rfl, hparser, hsublist⟩ := hbehind
      exact ⟨hparser, sublist_snoc hsublist _⟩
    | pop p =>
      obtain ⟨hparser, hsublist⟩ := hbehind
      refine ⟨rfl, ?_⟩
      have hrecord : { record with parser := none } = record := by rw [← hparser]
      simpa [untilPopped, hrecord] using
        sublist_snoc hsublist (.popped p { record with parser := some p })
    | forward p k =>
      obtain ⟨hparser, hsublist⟩ := h.parsed (.inr hmove.pushing)
      exact ⟨p, hparser, sublist_snoc hsublist _⟩
    | take k | finish k =>
      obtain ⟨p, hparser, hsublist⟩ := hbehind
      exact ⟨p, hparser, sublist_snoc hsublist _⟩
    | drop hdrops => trivial

/-- Every step adds itself to what its record has behind it. -/
theorem Move.histories (hone : OneWay config) (hstartUp : StartUp config s)
    (h : Histories labels s) (hmove : Move config s event s') :
    Histories (labels ++ [event]) s' := by
  have hmoved : Moved labels event s s' := hmove.moved hone hstartUp
  obtain ⟨passage, hway, hpasses⟩ := hmoved
  refine ⟨hmove.behind hway hpasses h, fun {p record} hparsed => ?_⟩
  obtain hbefore | ⟨hpopped, rfl⟩ := hmove.hasParsed hparsed
  · obtain ⟨hparser, hsublist⟩ := h.parsed hbefore
    exact ⟨hparser, hsublist.trans (List.sublist_append_left labels [event])⟩
  · have hhand : record ∈ held labels s (.atParser p) := by simp [held, hpopped, parserHand]
    obtain ⟨hparser, hsublist⟩ := h.behind (.atParser p) record hhand
    exact ⟨hparser, sublist_snoc hsublist _⟩

theorem histories_init : Histories [] init where
  behind place record hrecord := by cases place <;> cases hrecord
  parsed hparsed := by simp [HasParsed, init] at hparsed

/-- With one source and one parser, a record that a sink has finished was read by its source, routed
to the parser, popped and parsed there, forwarded to that sink and taken by it, in this order. -/
theorem record_history (hone : OneWay config) (hrun : Run (Step config) init labels s) {k : ℕ}
    {record : Record} (hfinished : .finished k record ∈ labels) :
    ∃ p, record.parser = some p ∧ (untilFinished p k record).Sublist labels := by
  have hhistories : Histories labels s :=
    run_invariant histories_init
      (fun _ _ _ _ hstartUp h hmove => hmove.histories hone hstartUp h) hrun
  have hheld : record ∈ held labels s (.finished k) :=
    List.mem_filterMap.mpr ⟨_, hfinished, by simp [finishes]⟩
  exact hhistories.behind (.finished k) record hheld

/-- The history of a record that has gone through the process. -/
theorem record_history_default :
    ∃ labels s, Run (Step {}) init labels s ∧ .finished 0 ⟨0, 0, 7, some 0⟩ ∈ labels ∧
      (∃ p, some 0 = some p ∧ (untilFinished p 0 ⟨0, 0, 7, some 0⟩).Sublist labels) := by
  have hexec : (exec (next {}) init (startsUp ++ oneRecord)).map (fun result =>
      decide (.finished 0 ⟨0, 0, 7, some 0⟩ ∈ result.1)) = some true := by
    decide +kernel
  obtain ⟨labels, s, hrun, hdone⟩ := exists_run_of_exec hexec
  have hfinished := of_decide_eq_true hdone
  exact ⟨labels, s, hrun, hfinished, record_history oneWay_default hrun hfinished⟩

end Stages

section Handles

/-- The record that a step gives to a handle of a sink. -/
def writes (k j : ℕ) : PipelineEvent → Option Record
  | .wrote sink handle record => if sink = k ∧ handle = j then some record else none
  | _ => none

/-- The records that a handle of a sink has been given, in order. -/
def writtenBy (k j : ℕ) (labels : List PipelineEvent) : List Record :=
  labels.filterMap (writes k j)

/-- The record that a handle has been given and the sink has not finished. -/
def unfinished (j : ℕ) : SinkPc → List Record
  | .writing record i => if j < i then [record] else []
  | _ => []

theorem finishedBy_snoc (k : ℕ) (labels : List PipelineEvent) (event : PipelineEvent) :
    finishedBy k (labels ++ [event]) = finishedBy k labels ++ (finishes k event).toList := by
  cases hfinishes : finishes k event <;> simp [finishedBy, hfinishes]

theorem writtenBy_snoc (k j : ℕ) (labels : List PipelineEvent) (event : PipelineEvent) :
    writtenBy k j (labels ++ [event]) = writtenBy k j labels ++ (writes k j event).toList := by
  cases hwrites : writes k j event <;> simp [writtenBy, hwrites]

/-- What a step that concerns other workers leaves of a sink. -/
structure SinkFrame (k : ℕ) (event : PipelineEvent) (sink sink' : SinkWorker) : Prop where
  pc_eq : sink'.pc = sink.pc ∨ sink.pc = .absent ∧ sink'.pc = .created
  numHandles_eq : sink'.numHandles = sink.numHandles
  finishes_eq : finishes k event = none
  writes_eq (j : ℕ) : writes k j event = none

/-- A step changes where a sink is only if it is one of the sink, or creates it. -/
theorem Move.sinkFrame (hstartUp : StartUp config s) (hmove : Move config s event s') (k : ℕ) :
    SinkFrame k event (s.sinks k) (s'.sinks k) ∨
      SinkMove config k (s.sinks k) event (s'.sinks k) := by
  cases hmove with
  | idle | crash hcause => exact .inl ⟨.inl rfl, rfl, rfl, fun _ => rfl⟩
  | @raced race _ =>
    left
    cases race with
    | sinkStream i queue =>
      refine ⟨.inl ?_, ?_, rfl, fun _ => rfl⟩ <;> by_cases hk : k = i <;>
        simp [disturb, setSink, hk]
    | _ => exact ⟨.inl rfl, rfl, rfl, fun _ => rfl⟩
  | start hmove =>
    left
    cases hmove with
    | @stored role i hmain hlt =>
      cases role with
      | sink =>
        refine ⟨.inl ?_, ?_, rfl, fun _ => rfl⟩ <;> by_cases hk : k = i <;>
          simp [storeInit, setSink, hk]
      | _ => exact ⟨.inl rfl, rfl, rfl, fun _ => rfl⟩
    | @created role i hmain =>
      cases role with
      | sink =>
        by_cases hk : k = i
        · subst hk
          obtain ⟨status, his, hallowed⟩ := hstartUp.allowed .sink k
          obtain rfl : status = .armed := by
            simpa [Allowed, hmain, confirmed, not_lt_seen] using hallowed
          exact ⟨.inr ⟨his.2.1, by simp [createThread, setSink]⟩, by simp [createThread, setSink],
            rfl, fun _ => rfl⟩
        · exact ⟨.inl (by simp [createThread, setSink, hk]), by simp [createThread, setSink, hk],
            rfl, fun _ => rfl⟩
      | _ => exact ⟨.inl rfl, rfl, rfl, fun _ => rfl⟩
    | _ => exact ⟨.inl rfl, rfl, rfl, fun _ => rfl⟩
  | serve hmove | parser p hmove | source i hmove | routes i hmove =>
    cases hmove <;> exact .inl ⟨.inl rfl, rfl, rfl, fun _ => rfl⟩
  | sink i hmove =>
    by_cases hk : k = i
    · subst hk
      exact .inr (by simpa [setSink] using hmove)
    · left
      refine ⟨.inl (by simp [setSink, hk]), by simp [setSink, hk], ?_, fun j => ?_⟩
      · cases hmove <;> simp [finishes, Ne.symm hk]
      · cases hmove <;> simp [writes, Ne.symm hk]
  | forwards p hmove =>
    left
    cases hmove
    refine ⟨.inl ?_, ?_, rfl, fun _ => rfl⟩ <;> by_cases hk : k = (s.parsers p).offset <;>
      simp [setSink, setParser, hk]

/-- What the handles of a sink have been given. -/
structure Written (labels : List PipelineEvent) (k : ℕ) (sink : SinkWorker) : Prop where
  unopened : sink.pc = .absent ∨ sink.pc = .created →
    finishedBy k labels = [] ∧ ∀ j, writtenBy k j labels = []
  written {j : ℕ} : j < sink.numHandles →
    writtenBy k j labels = finishedBy k labels ++ unfinished j sink.pc

/-- A step of another worker. -/
theorem SinkFrame.written (h : Written labels k sink) (hframe : SinkFrame k event sink sink') :
    Written (labels ++ [event]) k sink' := by
  obtain ⟨hpc, hnumHandles, hfinishes, hwrites⟩ := hframe
  have hfinished : finishedBy k (labels ++ [event]) = finishedBy k labels := by
    simp [finishedBy_snoc, hfinishes]
  have hwritten : ∀ j, writtenBy k j (labels ++ [event]) = writtenBy k j labels := by
    simp [writtenBy_snoc, hwrites]
  refine ⟨fun hunopened => ?_, fun {j} hj => ?_⟩
  · simp only [hfinished, hwritten]
    apply h.unopened
    obtain hpc | ⟨habsent, -⟩ := hpc
    · rwa [← hpc]
    · exact .inl habsent
  · rw [hfinished, hwritten, h.written (hnumHandles ▸ hj)]
    obtain hpc | ⟨habsent, hcreated⟩ := hpc
    · rw [hpc]
    · simp [habsent, hcreated, unfinished]

/-- A step of the sink. -/
theorem SinkMove.written (h : Written labels k sink) (hmove : SinkMove config k sink event sink') :
    Written (labels ++ [event]) k sink' := by
  cases hmove with
  | opened stream numHandles hpc hstate =>
    obtain ⟨hfinished, hwritten⟩ := h.unopened (.inr hpc)
    refine ⟨by simp, fun {j} hj => ?_⟩
    simp [finishedBy_snoc, writtenBy_snoc, hfinished, hwritten, finishes, writes, unfinished]
  | @wrote record i hpc hlt =>
    refine ⟨by simp, fun {j} hj => ?_⟩
    have hbefore := h.written hj
    rw [finishedBy_snoc, writtenBy_snoc, hbefore, hpc]
    -- the handle is served before, now or later
    obtain hji | rfl | hij := lt_trichotomy j i
    · simp [finishes, writes, unfinished, hji, hji.ne', Nat.lt_succ_of_lt hji]
    · simp [finishes, writes, unfinished]
    · simp [finishes, writes, unfinished, hij.ne, hij.not_gt, Nat.not_lt.mpr hij]
  | @finished record i hpc hge =>
    refine ⟨by simp, fun {j} hj => ?_⟩
    have hbefore := h.written hj
    rw [finishedBy_snoc, writtenBy_snoc, hbefore, hpc]
    simp [finishes, writes, unfinished, hj.trans_le hge]
  | _ =>
    refine ⟨by simp_all, fun {j} hj => ?_⟩
    have hbefore := h.written hj
    simp_all [finishedBy_snoc, writtenBy_snoc, finishes, writes, unfinished]

/-- Every handle of a sink is given the records that the sink takes, each once and in the same
order: those it has finished, and the one it writes once its turn has come. -/
theorem handles_agree (hrun : Run (Step config) init labels s) {k j : ℕ}
    (hj : j < (s.sinks k).numHandles) :
    writtenBy k j labels = finishedBy k labels ++ unfinished j (s.sinks k).pc := by
  have hwritten : ∀ k, Written labels k (s.sinks k) := by
    refine run_invariant (I := fun labels s => ∀ k, Written labels k (s.sinks k)) ?_ ?_ hrun
    · intro k
      exact ⟨fun _ => ⟨rfl, fun _ => rfl⟩, fun _ => rfl⟩
    · intro labels s event s' hstartUp h hmove k
      obtain hframe | hsink := hmove.sinkFrame hstartUp k
      · exact hframe.written (h k)
      · exact hsink.written (h k)
  exact (hwritten k).written hj

/-- The one handle of the sink has been given the record that the sink has finished. -/
theorem handles_agree_default :
    ∃ labels s, Run (Step {}) init labels s ∧ 0 < (s.sinks 0).numHandles ∧
      writtenBy 0 0 labels = finishedBy 0 labels ++ unfinished 0 (s.sinks 0).pc := by
  have hexec : (exec (next {}) init (startsUp ++ oneRecord)).map (fun result =>
      decide (0 < (result.2.sinks 0).numHandles)) = some true := by
    decide +kernel
  obtain ⟨labels, s, hrun, hdone⟩ := exists_run_of_exec hexec
  exact ⟨labels, s, hrun, of_decide_eq_true hdone, handles_agree hrun (of_decide_eq_true hdone)⟩

end Handles

section Reports

/-- The event that a report channel accepts. -/
def accepts (p : ℕ) : PipelineEvent → Option OutgoingEvent
  | .reported parser event => if parser = p then some event else none
  | _ => none

/-- The event that the main thread takes from a report channel and sends. -/
def sends (p : ℕ) : PipelineEvent → Option OutgoingEvent
  | .sent parser event => if parser = p then some event else none
  | _ => none

/-- The events that a report channel has accepted, in order. -/
def acceptedBy (p : ℕ) (labels : List PipelineEvent) : List OutgoingEvent :=
  labels.filterMap (accepts p)

/-- The events of a report channel that the main thread has sent, in order. -/
def sentOf (p : ℕ) (labels : List PipelineEvent) : List OutgoingEvent :=
  labels.filterMap (sends p)

/-- What a step does to a report channel. -/
inductive ReportChange (p : ℕ) (event : PipelineEvent)
    (report report' : Option (List OutgoingEvent)) :
    Prop
  | same (hreport : report'.getD [] = report.getD []) (haccepts : accepts p event = none)
      (hsends : sends p event = none)
  | pushed {e : OutgoingEvent} (hevent : event = .reported p e)
      (hreport : report'.getD [] = report.getD [] ++ [e])
  | taken {e : OutgoingEvent} (hevent : event = .sent p e)
      (hreport : report.getD [] = e :: report'.getD [])

/-- A parser thread touches its own report channel. -/
theorem ParserMove.reportChange (hstartUp : StartUp config s)
    (hmove : ParserMove config s p (s.parsers p) event parser) :
    ReportChange p event (s.parsers p).report parser.report := by
  cases hmove with
  | opened stream report hpc hstate =>
    have hnone : (s.parsers p).report = none := by
      obtain ⟨status, his, -⟩ := hstartUp.allowed .parser p
      cases status with
      | ready =>
        obtain ⟨-, -, -, hworks⟩ := his
        cases hworks <;> simp_all
      | _ => simp_all [Is, ParserIs]
    exact .same (by simp [hnone]) rfl rfl
  | @reported queue queue' e hpc hreport hpush =>
    obtain ⟨-, rfl⟩ := enqueue_eq_some_iff.mp hpush
    exact .pushed rfl (by simp [hreport])
  | _ => exact .same rfl rfl rfl

/-- The steps of a parser thread leave the other report channels. -/
theorem ParserMove.other {q : ℕ} {parser' : ParserWorker} (hne : q ≠ p)
    (hmove : ParserMove config s p parser event parser') :
    accepts q event = none ∧ sends q event = none := by
  cases hmove <;> simp [accepts, sends, Ne.symm hne]

/-- One thread pushes to the report channel: that of a parser but the first, or the first one until
the main thread handles events and may push alarms. -/
def Alone (p : ℕ) (main : MainPc) : Prop := p ≠ 0 ∨ main.handles = false

/-- A step of the process adds to a report channel, takes from it or leaves it. -/
theorem Move.reportChange (hstartUp : StartUp config s) (hmove : Move config s event s')
    (halone : Alone p s.main) :
    ReportChange p event (s.parsers p).report (s'.parsers p).report := by
  cases hmove with
  | idle | crash hcause => exact .same rfl rfl rfl
  | @raced race hrace =>
    refine .same ?_ rfl rfl
    cases race with
    | parserStream i queue => by_cases hp : p = i <;> simp [disturb, setParser, hp]
    | sinkStream k queue => rfl
    | report queue =>
      obtain hp | hmain := halone
      · simp [disturb, setParser, hp]
      · simp [hmain, Contended] at hrace
  | start hmove =>
    refine .same ?_ rfl rfl
    cases hmove with
    | @stored role i hmain hlt =>
      cases role with
      | parser => by_cases hp : p = i <;> simp [storeInit, setParser, hp]
      | _ => rfl
    | @created role i hmain =>
      cases role with
      | parser => by_cases hp : p = i <;> simp [createThread, setParser, hp]
      | _ => rfl
    | _ => rfl
  | serve hmove =>
    cases hmove with
    | goes hfrom hto => exact .same rfl rfl rfl
    | @updated i handles hmain =>
      refine .same ?_ rfl rfl
      by_cases hp : p = i <;> simp [setParser, hp]
    | @alarmed i queue queue' e hmain hreport hpush =>
      obtain ⟨-, rfl⟩ := enqueue_eq_some_iff.mp hpush
      by_cases hp : p = i
      · subst hp
        exact .pushed rfl (by simp [setParser, hreport])
      · exact .same (by simp [setParser, hp]) (by simp [accepts, Ne.symm hp]) rfl
    | @sent i e rest hfrom hreport =>
      by_cases hp : p = i
      · subst hp
        exact .taken rfl (by simp [setParser, hreport])
      · exact .same (by simp [setParser, hp]) rfl (by simp [sends, Ne.symm hp])
  | sink k hmove | source i hmove => cases hmove <;> exact .same rfl rfl rfl
  | parser q hmove =>
    by_cases hp : p = q
    · subst hp
      simpa [setParser] using hmove.reportChange hstartUp
    · obtain ⟨haccepts, hsends⟩ := hmove.other hp
      exact .same (by simp [setParser, hp]) haccepts hsends
  | forwards q hmove =>
    cases hmove
    refine .same ?_ rfl rfl
    by_cases hp : p = q <;> simp [setParser, setSink, hp]
  | routes i hmove =>
    cases hmove
    refine .same ?_ rfl rfl
    by_cases hp : p = (s.sources i).offset <;> simp [setParser, setSource, hp]

/-- The main thread handles events for ever. -/
theorem Move.handles (hmove : Move config s event s') (hmain : s.main.handles = true) :
    s'.main.handles = true := by
  cases hmove with
  | @raced race _ => cases race <;> exact hmain
  | start hmove => cases hmove <;> simp_all [MainPc.handles]
  | serve hmove =>
    cases hmove with
    | goes hfrom hto => exact hto
    | sent hfrom hreport => exact hmain
    | _ => rfl
  | forwards p hmove | routes i hmove =>
    cases hmove
    exact hmain
  | _ => exact hmain

/-- What the report channels to which one thread pushes have accepted was sent or is in them. -/
structure Reports (labels : List PipelineEvent) (s : Pipeline) : Prop where
  fifo {p : ℕ} : Alone p s.main →
    acceptedBy p labels = sentOf p labels ++ (s.parsers p).report.getD []
  notAlarm : s.crash = some .notAlarm → ∃ e, .reported 0 e ∈ labels ∧ e.type ≠ .alarm

/-- What a report channel has accepted after a step. -/
theorem ReportChange.fifo {report report' : Option (List OutgoingEvent)}
    (hchange : ReportChange p event report report')
    (h : acceptedBy p labels = sentOf p labels ++ report.getD []) :
    acceptedBy p (labels ++ [event]) = sentOf p (labels ++ [event]) ++ report'.getD [] := by
  unfold acceptedBy sentOf at h ⊢
  cases hchange with
  | same hreport haccepts hsends => simp [haccepts, hsends, h, hreport]
  | pushed hevent hreport | taken hevent hreport => simp [hevent, accepts, sends, h, hreport]

/-- Every step keeps the reports in order. -/
theorem Move.reports (hstartUp : StartUp config s) (h : Reports labels s)
    (hmove : Move config s event s') : Reports (labels ++ [event]) s' := by
  have halone : ∀ {p}, Alone p s'.main → Alone p s.main := by
    intro p halone
    refine halone.imp_right fun hmain => ?_
    by_contra hhandles
    rw [hmove.handles (by simpa using hhandles)] at hmain
    cases hmain
  refine ⟨fun hp => (hmove.reportChange hstartUp (halone hp)).fifo (h.fifo (halone hp)),
    fun hcrash => ?_⟩
  have hmono : (∃ e, PipelineEvent.reported 0 e ∈ labels ∧ e.type ≠ .alarm) →
      ∃ e, .reported 0 e ∈ labels ++ [event] ∧ e.type ≠ .alarm := by
    rintro ⟨e, hmem, htype⟩
    exact ⟨e, List.mem_append_left _ hmem, htype⟩
  apply hmono
  obtain hsame | ⟨crash, hcause, rfl⟩ := hmove.crash_eq
  · exact h.notAlarm (hsame ▸ hcrash)
  · cases hcrash
    cases hcause with
    | outside houtside => exact houtside.elim
    | main hmain =>
      cases hmain with
      | @notAlarm e rest hmain hreport htype =>
        have hmem : e ∈ acceptedBy 0 labels := by
          simp [h.fifo (.inr (by rw [hmain]; rfl)), hreport]
        obtain ⟨shown, hshown, haccepts⟩ := List.mem_filterMap.mp hmem
        cases shown <;> simp_all [accepts]
        exact ⟨e, hshown, htype⟩
    | sink k hcause | parser p hcause | source i hcause => cases hcause

/-- The main thread sends the events of a report channel in the order in which the channel accepted
them, each once and no others, for every parser but the first, and for the first until the main
thread handles events; and it finds an event that is no alarm before that only if the first parser
has reported one. -/
theorem reports_in_order (hrun : Run (Step config) init labels s) :
    (∀ p, Alone p s.main →
      acceptedBy p labels = sentOf p labels ++ (s.parsers p).report.getD []) ∧
      (s.crash = some .notAlarm → ∃ e, .reported 0 e ∈ labels ∧ e.type ≠ .alarm) := by
  have hinit : Reports [] init := ⟨fun _ => rfl, fun hcrash => by cases hcrash⟩
  have hreports : Reports labels s :=
    run_invariant hinit (fun _ _ _ _ hstartUp h hmove => hmove.reports hstartUp h) hrun
  exact ⟨fun _ => hreports.fifo, hreports.notAlarm⟩

/-- A metrics event reported before the main thread has sent the alarms of the start ends the
process. -/
theorem reports_in_order_crash :
    ∃ labels s, Run (Step {}) init labels s ∧ s.crash = some .notAlarm ∧
      ∃ e, .reported 0 e ∈ labels ∧ e.type ≠ .alarm := by
  have hexec : (exec (next {}) init (startsUp.dropLast ++ [.parser 0
      { handles := [], event := some ⟨.metrics, []⟩, res := 0, fieldsSize := 0 }, goOn])).map
        (fun result => decide (result.2.crash = some .notAlarm)) = some true := by
    decide +kernel
  obtain ⟨labels, s, hrun, hdone⟩ := exists_run_of_exec hexec
  have hcrash := of_decide_eq_true hdone
  exact ⟨labels, s, hrun, hcrash, (reports_in_order hrun).2 hcrash⟩

end Reports

end Pipeline

end Demos.Oak
