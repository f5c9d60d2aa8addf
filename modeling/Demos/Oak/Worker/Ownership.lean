import Demos.Lib.Run
import Demos.Oak.Worker.Model

/-!
# Ownership of records

Every iteration of a worker loop either hands the record it obtained to one downstream channel or
frees its contents and deletes its struct. Two exits of the parser thread miss this: a record whose
protocol has no parser when it is looked up keeps its struct, and the events of the report channel
are never drained. The pop and the lookup of an iteration are two steps, between which the main
thread may change the table of parsers.
-/

namespace Demos.Oak

open Demos.Lib

variable {Handle : Type}

/-- The effect ends the ownership of the record, or a part of it. -/
def Effect.touches (ptr : ℕ) : Effect → Bool
  | .pushed _ other => other = ptr
  | .contentsFreed other => other = ptr
  | .deleted other => other = ptr
  | _ => false

/-- The effects on one record, in order. -/
def touching (ptr : ℕ) (effects : List Effect) : List Effect :=
  effects.filter (Effect.touches ptr)

/-- The record is released exactly once: its contents and then its struct. -/
def ReleasedOnce (ptr : ℕ) (effects : List Effect) : Prop :=
  touching ptr effects = [.contentsFreed ptr, .deleted ptr]

/-- The record is pushed to exactly one channel and not released, or released exactly once. -/
def AccountedOnce (ptr : ℕ) (effects : List Effect) : Prop :=
  (∃ channel, touching ptr effects = [.pushed channel ptr]) ∨ ReleasedOnce ptr effects

/-- Every record that the effects obtain is accounted for. -/
def AllAccounted (effects : List Effect) : Prop :=
  ∀ ptr, .obtained ptr ∈ effects → AccountedOnce ptr effects

/-- The events that the effects release. -/
def releasedEvents (effects : List Effect) : List OutgoingEvent :=
  effects.filterMap fun
    | .eventReleased event => some event
    | _ => none

/-- Once the delivering loop is over, the record is accounted for. -/
theorem allAccounted_delivery (ptr : ℕ) (channel : Option ℕ) :
    AllAccounted (.obtained ptr :: deliveryEffects ptr channel) := by
  intro ptr' hmem
  cases channel with
  | some channel =>
    obtain rfl : ptr' = ptr := by simpa [deliveryEffects] using hmem
    exact .inl ⟨channel, by simp [touching, deliveryEffects, Effect.touches]⟩
  | none =>
    obtain rfl : ptr' = ptr := by simpa [deliveryEffects] using hmem
    exact .inr (by simp [ReleasedOnce, touching, deliveryEffects, Effect.touches])

/-- The iterations of a source thread, with their effects as labels. -/
def sourceNext (thread : SourceThread) (input : SourceInput) :
    Option (List Effect × SourceThread) :=
  some (sourceIterate thread input)

/-- Every iteration of a source thread accounts for the record that it allocates. -/
theorem allAccounted_sourceIterate (thread : SourceThread) (input : SourceInput) :
    AllAccounted (sourceIterate thread input).1 := by
  unfold sourceIterate
  split
  · intro ptr hmem
    simp at hmem
  · exact allAccounted_delivery input.ptr _

/-- The first part of an iteration: the report that is due, the test for parsers and the pop. None
of it takes the lock of the context. -/
def ParserThread.popStream (thread : ParserThread Handle) (input : ParserInput) :
    Option Metadata × ParserThread Handle :=
  let thread := thread.reportDue input
  match thread.context.handles.isEmpty, thread.stream with
  | false, record :: rest => (some record, { thread with stream := rest })
  | _, _ => (none, { thread with errorCount := countError thread.errorCount })

/-- An iteration during which no other thread acts is the pop and then the lookup. -/
theorem parserIterate_eq_parts (thread : ParserThread Handle) (input : ParserInput) :
    parserIterate thread input =
      match thread.popStream input with
      | (some record, popped) => (.obtained record.ptr :: (popped.handleRecord input record).1,
          (popped.handleRecord input record).2)
      | (none, idle) => ([], idle) := by
  simp only [parserIterate, ParserThread.popStream]
  cases (thread.reportDue input).context.handles.isEmpty with
  | true => rfl
  | false => cases (thread.reportDue input).stream <;> rfl

/-- A parser thread between two steps, with the record that its iteration has popped and not looked
up yet. The main thread may change the table of parsers in between. -/
structure ParserTurn (Handle : Type) where
  thread : ParserThread Handle
  popped : Option Metadata

/-- What a step of the parser thread shows: the lookup and the rest of an iteration had these
effects, or the thread left its loop with these records and events still in its channels. -/
inductive ParserEvent where
  | other
  | iterated (effects : List Effect)
  | left (records : List ℕ) (events : List OutgoingEvent) (effects : List Effect)

/-- What can happen: a source pushes a record, the main thread changes the context, an iteration
reports and pops, it looks up the record and handles it, or the thread is stopped. -/
inductive ParserAction (Handle : Type) where
  | arrive (record : Metadata)
  | main (context : ParserContext Handle)
  | pop (input : ParserInput)
  | handle (input : ParserInput)
  | leave

/-- The addresses of the records in the stream channel. -/
def ParserThread.pending (thread : ParserThread Handle) : List ℕ :=
  thread.stream.map Metadata.ptr

/-- The transitions of a parser thread; a record that arrives is none of those in the channel. -/
def parserNext (turn : ParserTurn Handle) :
    ParserAction Handle → Option (ParserEvent × ParserTurn Handle)
  | .arrive record =>
    if record.ptr ∈ turn.thread.pending then none
    else
      let thread := { turn.thread with stream := turn.thread.stream ++ [record] }
      some (.other, ⟨thread, turn.popped⟩)
  | .main context => some (.other, ⟨{ turn.thread with context := context }, turn.popped⟩)
  | .pop input =>
    match turn.thread.running, turn.popped with
    | true, none =>
      let (popped, thread) := turn.thread.popStream input
      some (.other, ⟨thread, popped⟩)
    | _, _ => none
  | .handle input =>
    match turn.popped with
    | none => none
    | some record =>
      let (effects, thread) := turn.thread.handleRecord input record
      some (.iterated (.obtained record.ptr :: effects), ⟨thread, none⟩)
  | .leave =>
    match turn.thread.running, turn.popped with
    | true, none =>
      let (effects, after) := parserLeave turn.thread
      some (.left turn.thread.pending turn.thread.context.report effects, ⟨after, none⟩)
    | _, _ => none

/-- The step relation of a parser thread. -/
def ParserStep : ParserTurn Handle → ParserEvent → ParserTurn Handle → Prop :=
  Moves parserNext

/-- Everything a step of a parser thread can do. -/
inductive ParserMove (turn : ParserTurn Handle) : ParserEvent → ParserTurn Handle → Prop
  | arrived (record : Metadata) (hfresh : record.ptr ∉ turn.thread.pending) :
      ParserMove turn .other
        ⟨{ turn.thread with stream := turn.thread.stream ++ [record] }, turn.popped⟩
  | changed (context : ParserContext Handle) :
      ParserMove turn .other ⟨{ turn.thread with context := context }, turn.popped⟩
  | popped (input : ParserInput) :
      ParserMove turn .other ⟨(turn.thread.popStream input).2, (turn.thread.popStream input).1⟩
  | handled (input : ParserInput) {record : Metadata} (hpopped : turn.popped = some record) :
      ParserMove turn
        (.iterated (.obtained record.ptr :: (turn.thread.handleRecord input record).1))
        ⟨(turn.thread.handleRecord input record).2, none⟩
  | left : ParserMove turn
      (.left turn.thread.pending turn.thread.context.report (parserLeave turn.thread).1)
      ⟨(parserLeave turn.thread).2, none⟩

/-- A step of a parser thread is one of these moves. -/
theorem ParserStep.move {turn after : ParserTurn Handle} {event : ParserEvent}
    (h : ParserStep turn event after) : ParserMove turn event after := by
  obtain ⟨action, hnext⟩ := h
  cases action with
  | arrive record =>
    simp only [parserNext] at hnext
    split at hnext
    · simp at hnext
    · rename_i hfresh
      cases hnext
      exact .arrived record hfresh
  | main context =>
    cases hnext
    exact .changed context
  | pop input =>
    simp only [parserNext] at hnext
    split at hnext
    · cases hnext
      exact .popped input
    · simp at hnext
  | handle input =>
    simp only [parserNext] at hnext
    split at hnext
    · simp at hnext
    · rename_i record hpopped
      cases hnext
      exact .handled input hpopped
  | leave =>
    simp only [parserNext] at hnext
    split at hnext
    · cases hnext
      exact .left
    · simp at hnext

/-- The records that the step obtained, and those that were left in the channels, are accounted
for. -/
def ParserEvent.Accounted : ParserEvent → Prop
  | .other => True
  | .iterated effects => AllAccounted effects
  | .left records events effects =>
    (∀ ptr ∈ records, ReleasedOnce ptr effects) ∧ releasedEvents effects = events

/-- When a popped record is looked up its protocol has a parser, and the thread leaves its loop with
an empty report channel. -/
def Disciplined (turn : ParserTurn Handle) : ParserEvent → Prop
  | .other => True
  | .iterated _ => ∀ record, turn.popped = some record →
      record.protocolType ∈ turn.thread.context.handles
  | .left _ _ _ => turn.thread.context.report = []

/-- A report changes no parser of the context. -/
theorem reportMetrics_handles (reports : List (UInt64 × ℕ)) (context : ParserContext Handle) :
    (reportMetrics reports context).handles = context.handles := by
  induction reports generalizing context with
  | nil => rfl
  | cons report rest ih =>
    rw [reportMetrics, ih]
    unfold ParserContext.reportTag
    split <;> rfl

/-- The report at the start of an iteration changes neither the parsers nor the stream channel. -/
theorem ParserThread.reportDue_frame (thread : ParserThread Handle) (input : ParserInput) :
    (thread.reportDue input).context.handles = thread.context.handles ∧
      (thread.reportDue input).stream = thread.stream := by
  unfold reportDue
  split
  · exact ⟨reportMetrics_handles _ _, rfl⟩
  · exact ⟨rfl, rfl⟩

/-- A record whose protocol has a parser is delivered or released. -/
theorem ParserThread.parseRecord_effects (thread : ParserThread Handle) (input : ParserInput)
    (record : Metadata) :
    ∃ channel, (thread.parseRecord input record).1 = deliveryEffects record.ptr channel := by
  unfold parseRecord
  split
  · exact ⟨none, rfl⟩
  · exact ⟨_, rfl⟩

/-- Handling a record takes nothing from the stream channel. -/
theorem ParserThread.handleRecord_stream (thread : ParserThread Handle) (input : ParserInput)
    (record : Metadata) : (thread.handleRecord input record).2.stream = thread.stream := by
  unfold handleRecord parseRecord
  split
  · split <;> rfl
  · rfl

/-- The pop takes the oldest record of the stream channel or nothing. -/
theorem ParserThread.popStream_stream (thread : ParserThread Handle) (input : ParserInput) :
    (thread.popStream input).2.stream <:+ thread.stream := by
  have hstream := (thread.reportDue_frame input).2
  simp only [popStream]
  split
  · rename_i record rest _ hcons
    exact ⟨[record], by rw [← hstream, hcons]; rfl⟩
  · rw [← hstream]

/-- A record whose contents alone are freed is not accounted for. -/
theorem not_allAccounted_unknown (ptr : ℕ) :
    ¬ AllAccounted [.obtained ptr, .contentsFreed ptr] := by
  intro hall
  have haccounted := hall ptr (by simp)
  simp [AccountedOnce, ReleasedOnce, touching, Effect.touches] at haccounted

/-- A popped record is accounted for exactly when its protocol has a parser at the lookup. -/
theorem allAccounted_handleRecord_iff (thread : ParserThread Handle) (input : ParserInput)
    (record : Metadata) :
    AllAccounted (.obtained record.ptr :: (thread.handleRecord input record).1) ↔
      record.protocolType ∈ thread.context.handles := by
  unfold ParserThread.handleRecord
  by_cases hknown : record.protocolType ∈ thread.context.handles
  · rw [if_pos hknown]
    obtain ⟨channel, hchannel⟩ := thread.parseRecord_effects input record
    rw [hchannel]
    exact iff_of_true (allAccounted_delivery record.ptr channel) hknown
  · rw [if_neg hknown]
    exact iff_of_false (not_allAccounted_unknown record.ptr) hknown

/-- A draining loop treats every item once and leaves an empty channel. -/
theorem popAll_eq {A : Type} (body : A → List Effect) (queue : List A) :
    popAll body queue = (queue.flatMap body, []) := by
  induction queue with
  | nil => rfl
  | cons item rest ih => rw [popAll, ih, List.flatMap_cons]

/-- The effects of leaving the loop: only the records of the stream channel are released. -/
theorem parserLeave_effects (thread : ParserThread Handle) :
    (parserLeave thread).1 = thread.stream.flatMap releaseRecord := by
  simp [parserLeave, popAll_eq]

/-- Releasing other records does not touch a record. -/
theorem touching_flatMap_of_notMem {ptr : ℕ} {records : List Metadata}
    (h : ptr ∉ records.map Metadata.ptr) : touching ptr (records.flatMap releaseRecord) = [] := by
  unfold touching
  rw [List.filter_eq_nil_iff]
  intro effect hmem
  obtain ⟨record, hrecord, heffect⟩ := List.mem_flatMap.mp hmem
  have hne : record.ptr ≠ ptr := fun heq => h (heq ▸ List.mem_map_of_mem hrecord)
  simp only [releaseRecord, List.mem_cons, List.not_mem_nil, or_false] at heffect
  rcases heffect with rfl | rfl | rfl <;> simp [Effect.touches, hne]

/-- Draining a channel of distinct records releases each of them exactly once. -/
theorem releasedOnce_flatMap {ptr : ℕ} {records : List Metadata}
    (hnodup : (records.map Metadata.ptr).Nodup) (hmem : ptr ∈ records.map Metadata.ptr) :
    ReleasedOnce ptr (records.flatMap releaseRecord) := by
  induction records with
  | nil => simp at hmem
  | cons record rest ih =>
    rw [List.map_cons, List.nodup_cons] at hnodup
    unfold ReleasedOnce touching
    rw [List.flatMap_cons, List.filter_append]
    by_cases hptr : record.ptr = ptr
    · have hrest := touching_flatMap_of_notMem (hptr ▸ hnodup.1)
      unfold touching at hrest
      simp [hrest, releaseRecord, Effect.touches, hptr]
    · have hlater : ptr ∈ rest.map Metadata.ptr := by
        rw [List.map_cons, List.mem_cons] at hmem
        exact hmem.resolve_left (Ne.symm hptr)
      have hrest := ih hnodup.2 hlater
      unfold ReleasedOnce touching at hrest
      simp [hrest, releaseRecord, Effect.touches, hptr]

/-- No draining loop releases an event. -/
theorem releasedEvents_flatMap (records : List Metadata) :
    releasedEvents (records.flatMap releaseRecord) = [] := by
  unfold releasedEvents
  rw [List.filterMap_eq_nil_iff]
  intro effect hmem
  obtain ⟨record, _, heffect⟩ := List.mem_flatMap.mp hmem
  simp only [releaseRecord, List.mem_cons, List.not_mem_nil, or_false] at heffect
  rcases heffect with rfl | rfl | rfl <;> rfl

/-- The records in the stream channel are distinct. -/
def ParserTurn.Distinct (turn : ParserTurn Handle) : Prop := turn.thread.pending.Nodup

/-- A step accounts for everything exactly under the condition. -/
theorem ParserStep.accounted_iff {turn after : ParserTurn Handle} {event : ParserEvent}
    (hstep : ParserStep turn event after) (hdistinct : turn.Distinct) :
    event.Accounted ↔ Disciplined turn event := by
  cases hstep.move with
  | arrived | changed | popped => exact Iff.rfl
  | handled input hpopped =>
    refine (allAccounted_handleRecord_iff turn.thread input _).trans ?_
    simp [Disciplined, hpopped]
  | left =>
    simp only [ParserEvent.Accounted, Disciplined, parserLeave_effects, releasedEvents_flatMap]
    have hreleased : ∀ ptr ∈ turn.thread.pending,
        ReleasedOnce ptr (turn.thread.stream.flatMap releaseRecord) :=
      fun ptr hptr => releasedOnce_flatMap hdistinct hptr
    rw [and_iff_right hreleased]
    exact eq_comm

/-- A step keeps the records in the stream channel distinct. -/
theorem ParserStep.distinct {turn after : ParserTurn Handle} {event : ParserEvent}
    (hstep : ParserStep turn event after) (hdistinct : turn.Distinct) : after.Distinct := by
  unfold ParserTurn.Distinct ParserThread.pending at hdistinct ⊢
  cases hstep.move with
  | arrived record hfresh =>
    rw [List.map_append, List.map_singleton, List.nodup_append]
    refine ⟨hdistinct, by simp, ?_⟩
    intro ptr hptr ptr' hptr'
    obtain rfl := List.mem_singleton.mp hptr'
    exact fun heq => hfresh (heq ▸ hptr)
  | changed context => exact hdistinct
  | popped input =>
    exact hdistinct.sublist ((turn.thread.popStream_stream input).sublist.map Metadata.ptr)
  | handled input _ =>
    rw [ParserThread.handleRecord_stream]
    exact hdistinct
  | left => simp [parserLeave, popAll_eq]

/-- In every run of a source thread every iteration accounts for its record; in every run of a
parser thread whose steps meet the condition every step accounts for the records and events it is
responsible for; and a step that does not meet the condition does not. -/
theorem records_accounted :
    (∀ (start thread : SourceThread) (iterations : List (List Effect)),
      Run (Moves sourceNext) start iterations thread →
        ∀ effects ∈ iterations, AllAccounted effects) ∧
    (∀ (start turn : ParserTurn Handle) (events : List ParserEvent), start.Distinct →
      Run (Guarded ParserStep Disciplined) start events turn →
        ∀ event ∈ events, event.Accounted) ∧
    ∀ (turn after : ParserTurn Handle) (event : ParserEvent), turn.Distinct →
      ParserStep turn event after → (event.Accounted ↔ Disciplined turn event) := by
  refine ⟨?_, ?_, fun _ _ _ hdistinct hstep => hstep.accounted_iff hdistinct⟩
  · intro start thread iterations hrun
    refine hrun.invariant (I := fun iterations _ => ∀ effects ∈ iterations, AllAccounted effects)
      (by simp) ?_
    rintro iterations thread effects after hall ⟨input, hnext⟩
    obtain ⟨rfl, -⟩ := Prod.mk.inj (Option.some.inj hnext)
    simp only [List.forall_mem_append, List.forall_mem_singleton]
    exact ⟨hall, allAccounted_sourceIterate thread input⟩
  · intro start turn events hdistinct hrun
    refine (hrun.invariant (I := fun events turn => turn.Distinct ∧
      ∀ event ∈ events, event.Accounted) ⟨hdistinct, by simp⟩ ?_).2
    rintro events turn event after ⟨hdistinct, hall⟩ ⟨hstep, hguard⟩
    simp only [List.forall_mem_append, List.forall_mem_singleton]
    exact ⟨hstep.distinct hdistinct, hall, (hstep.accounted_iff hdistinct).mpr hguard⟩

/-- A parser thread with a parser for protocol 6 and one record of this protocol. -/
def oneRecord (protocolType : UInt64) : ParserThread ℕ where
  running := true
  context := { (ParserContext.new 0 1023 : ParserContext ℕ) with
    handles := .ofList [((6 : UInt64), 0)] }
  stream := [{
    ptr := 1
    protocolType := protocolType
    upStreamSize := 100
    downStreamSize := 20
    fieldsSize := 1 }]
  reportInterval := 60
  numSink := 1
  offset := 0
  nextTimepoint := 60
  errorCount := 0

/-- Every downstream thread runs and accepts. -/
def allReady : Downstream where
  running _ := true
  accepts _ := true

/-- An iteration in which no report is due and parsing succeeds. -/
def parsesRecord : ParserInput where
  now := 10
  reports := []
  res := 0
  fieldsSize := 2
  sinks := allReady

/-- A source thread with one parser thread downstream. -/
def oneParser : SourceThread where
  hasHandle := true
  numParser := 1
  offset := 0
  errorCount := 0

/-- The parser thread whose iteration has popped the record `record`. -/
def inHand (record : Metadata) : ParserTurn ℕ :=
  ⟨{ oneRecord record.protocolType with stream := [] }, some record⟩

/-- The pop of the record of `oneRecord`. -/
theorem parserStep_pop (protocolType : UInt64) :
    ParserStep ⟨oneRecord protocolType, none⟩ .other (inHand ⟨1, protocolType, 100, 20, 1⟩) :=
  ⟨.pop parsesRecord, rfl⟩

/-- The record of `oneRecord` alone is in the channel. -/
theorem distinct_oneRecord (protocolType : UInt64) :
    ParserTurn.Distinct ⟨oneRecord protocolType, none⟩ :=
  List.nodup_cons.mpr ⟨List.not_mem_nil, List.nodup_nil⟩

/-- A record that is read, pushed, popped, looked up, parsed and delivered is accounted for at every
step. -/
theorem records_accounted_delivered :
    AllAccounted [.obtained 1, .pushed 0 1] ∧
      (ParserEvent.iterated [.obtained 1, .pushed 0 1]).Accounted ∧
      ((ParserEvent.iterated [.obtained 1, .pushed 0 1]).Accounted ↔
        Disciplined (inHand ⟨1, 6, 100, 20, 1⟩) (.iterated [.obtained 1, .pushed 0 1])) := by
  have hsource : Run (Moves sourceNext) oneParser [[.obtained 1, .pushed 0 1]] oneParser :=
    .single ⟨⟨true, 1, allReady⟩, rfl⟩
  obtain ⟨after, hstep⟩ : ∃ after, ParserStep (inHand ⟨1, 6, 100, 20, 1⟩)
      (.iterated [.obtained 1, .pushed 0 1]) after :=
    ⟨_, .handle parsesRecord, rfl⟩
  have hguard : Disciplined (inHand ⟨1, 6, 100, 20, 1⟩)
      (.iterated [.obtained 1, .pushed 0 1]) := by
    intro record hpopped
    cases hpopped
    decide
  have hparser : Run (Guarded ParserStep Disciplined) ⟨oneRecord 6, none⟩
      [.other, .iterated [.obtained 1, .pushed 0 1]] after :=
    .snoc (.single ⟨parserStep_pop 6, trivial⟩) ⟨hstep, hguard⟩
  refine ⟨?_, ?_, ?_⟩
  · exact (@records_accounted ℕ).1 oneParser oneParser _ hsource _ (by simp)
  · exact records_accounted.2.1 ⟨oneRecord 6, none⟩ after _ (distinct_oneRecord 6) hparser _
      (by simp)
  · exact records_accounted.2.2 (inHand ⟨1, 6, 100, 20, 1⟩) after _ List.nodup_nil hstep

/-- A record of a protocol without a parser keeps its struct, and so does a record whose parser the
main thread removes between the pop and the lookup. -/
theorem records_leak_when_unknown :
    (∃ turn, Run ParserStep (⟨oneRecord 7, none⟩ : ParserTurn ℕ)
      [.other, .iterated [.obtained 1, .contentsFreed 1]] turn) ∧
    (∃ turn, Run ParserStep (⟨oneRecord 6, none⟩ : ParserTurn ℕ)
      [.other, .other, .iterated [.obtained 1, .contentsFreed 1]] turn) ∧
    ¬ ∀ (start turn : ParserTurn ℕ) (events : List ParserEvent), start.Distinct →
      Run ParserStep start events turn → ∀ event ∈ events, event.Accounted := by
  have hunknown : Run ParserStep (⟨oneRecord 7, none⟩ : ParserTurn ℕ)
      [.other, .iterated [.obtained 1, .contentsFreed 1]] _ :=
    .snoc (.single (parserStep_pop 7)) ⟨.handle parsesRecord, rfl⟩
  have hremoved : Run ParserStep (⟨oneRecord 6, none⟩ : ParserTurn ℕ)
      [.other, .other, .iterated [.obtained 1, .contentsFreed 1]] _ :=
    .snoc (.snoc (.single (parserStep_pop 6)) ⟨.main (.new 0 1023), rfl⟩)
      ⟨.handle parsesRecord, rfl⟩
  refine ⟨⟨_, hunknown⟩, ⟨_, hremoved⟩, ?_⟩
  intro hall
  have haccounted := hall _ _ _ (distinct_oneRecord 7) hunknown _
    (List.mem_cons_of_mem _ (List.mem_singleton_self _))
  exact not_allAccounted_unknown 1 haccounted

end Demos.Oak
