import Demos.Lib.Assoc
import Demos.Oak.Worker.Dispatch
import Demos.Oak.Worker.Metrics

/-!
# The count of parsed records

The counter `output_data` of a protocol should count the records that the parser thread goes on to
dispatch since the counter was last reset. The thread tests the fields that the source has put into
the record, and discards the record by the fields that the parser has found. The two agree along
every run in which each parsed record has fields of both kinds or of neither.
-/

namespace Demos.Oak

open Demos.Lib

variable {Handle : Type} {thread thread' start : ParserThread Handle} {input : ParserInput}

/-- What a step does to the counters of the tags: a record was parsed, with this result and this
number of fields, or the counters of these protocols started over. -/
inductive OutputEvent where
  | parsed (record : Metadata) (res : ℤ) (fieldsSize : ℕ)
  | reset (ids : List UInt64)
  | other
deriving DecidableEq, Repr

/-- The part of an iteration behind the report. -/
def ParserThread.popRecord (thread : ParserThread Handle) (input : ParserInput) :
    List Effect × ParserThread Handle :=
  match thread.context.handles.isEmpty, thread.stream with
  | false, record :: rest =>
    let (effects, thread) := { thread with stream := rest }.handleRecord input record
    (.obtained record.ptr :: effects, thread)
  | _, _ => ([], { thread with errorCount := countError thread.errorCount })

/-- An iteration reports what is due and then handles a record. -/
theorem parserIterate_eq (thread : ParserThread Handle) (input : ParserInput) :
    parserIterate thread input = (thread.reportDue input).popRecord input := rfl

/-- The record that the iteration parses, if there is one. -/
def ParserThread.parsedEvent (thread : ParserThread Handle) (input : ParserInput) : OutputEvent :=
  match thread.context.handles.isEmpty, thread.stream with
  | false, record :: _ =>
    if record.protocolType ∈ thread.context.handles then
      .parsed record input.res input.fieldsSize
    else .other
  | _, _ => .other

/-- The protocols whose counters a report starts over. -/
def ParserThread.reportedIds (thread : ParserThread Handle) (input : ParserInput) : List UInt64 :=
  if thread.nextTimepoint < input.now then input.reports.map Prod.fst else []

/-- What can happen: a source pushes a record, the main thread updates, forgets or clears modules or
takes an event, and the loop reports and handles a record. -/
inductive OutputAction (Handle : Type) where
  | arrive (record : Metadata)
  | update (module : ModuleConfig) (load : LoadOutcome Handle)
  | erase (id : UInt64)
  | clear
  | take
  | report (input : ParserInput)
  | handle (input : ParserInput)

/-- The transitions of a parser thread and of the threads around it. -/
def outputNext (thread : ParserThread Handle) :
    OutputAction Handle → Option (OutputEvent × ParserThread Handle)
  | .arrive record => some (.other, { thread with stream := thread.stream ++ [record] })
  | .update module load =>
    match updateParser thread.context module load with
    | .error _ => none
    | .ok (updated, context) =>
      some (.reset (if updated then [module.id] else []), { thread with context := context })
  | .erase id => some (.other, { thread with context := thread.context.erase id })
  | .clear => some (.other, { thread with context := thread.context.clear })
  | .take => some (.other, { thread with context := thread.context.takeReports 1 })
  | .report input => some (.reset (thread.reportedIds input), thread.reportDue input)
  | .handle input => some (thread.parsedEvent input, (thread.popRecord input).2)

/-- The transitions in any order. -/
def OutputStep : ParserThread Handle → OutputEvent → ParserThread Handle → Prop :=
  Moves outputNext

/-- The number of dispatched records of a protocol after one more step. -/
def OutputEvent.advance (id : UInt64) (count : ℕ) : OutputEvent → ℕ
  | .parsed record res fieldsSize =>
    if record.protocolType = id ∧ res = 0 ∧ fieldsSize ≠ 0 then count + 1 else count
  | .reset ids => if id ∈ ids then 0 else count
  | .other => count

/-- The records of a protocol for which parsing returned zero and filled in fields, since its
counters last started over. -/
def dispatchedSince (id : UInt64) (history : List OutputEvent) : ℕ :=
  history.foldl (OutputEvent.advance id) 0

/-- Every counter is the number of the dispatched records. -/
def OutputCounted (history : List OutputEvent) (thread : ParserThread Handle) : Prop :=
  ∀ id tag, thread.context.tags[id]? = some tag →
    tag.outputData.toNat = dispatchedSince id history

/-- A parsed record has fields from the source exactly if it has fields from the parser, and the
counter does not wrap. -/
def SameFields (thread : ParserThread Handle) : OutputEvent → Prop
  | .parsed record res fieldsSize =>
    ∀ tag, thread.context.tags[record.protocolType]? = some tag → res = 0 →
      (record.fieldsSize ≠ 0 ↔ fieldsSize ≠ 0) ∧
        (fieldsSize ≠ 0 → tag.outputData.toNat + 1 < 2 ^ 64)
  | _ => True

/-- The counters of these protocols are zero, and the other tags were there before. -/
def Restarted (ids : List UInt64) (tags tags' : Std.ExtTreeMap UInt64 ProtocolTag) : Prop :=
  ∀ (id : UInt64) (tag : ProtocolTag), tags'[id]? = some tag →
    (id ∈ ids ∧ tag.outputData = 0) ∨ (id ∉ ids ∧ tags[id]? = some tag)

/-- What a step can do to the tags. -/
inductive OutputMove (tags : Std.ExtTreeMap UInt64 ProtocolTag) :
    OutputEvent → Std.ExtTreeMap UInt64 ProtocolTag → Prop
  | counted {record : Metadata} {fieldsSize : ℕ} {tag : ProtocolTag}
      (htag : tags[record.protocolType]? = some tag) :
      OutputMove tags (.parsed record 0 fieldsSize)
        (tags.insert record.protocolType (tag.count record))
  | ignored {record : Metadata} {res : ℤ} {fieldsSize : ℕ}
      (hignored : tags[record.protocolType]? = none ∨ res ≠ 0) :
      OutputMove tags (.parsed record res fieldsSize) tags
  | restarted {ids : List UInt64} {tags' : Std.ExtTreeMap UInt64 ProtocolTag}
      (hreset : Restarted ids tags tags') : OutputMove tags (.reset ids) tags'
  | kept {tags' : Std.ExtTreeMap UInt64 ProtocolTag} (hkept : Restarted [] tags tags') :
      OutputMove tags .other tags'

theorem Restarted.refl (tags : Std.ExtTreeMap UInt64 ProtocolTag) : Restarted [] tags tags :=
  fun _ _ htag => .inr ⟨List.not_mem_nil, htag⟩

/-- One protocol after the others. -/
theorem Restarted.cons {tags tags' tags'' : Std.ExtTreeMap UInt64 ProtocolTag} {id : UInt64}
    {ids : List UInt64} (hfirst : Restarted [id] tags tags') (hrest : Restarted ids tags' tags'') :
    Restarted (id :: ids) tags tags'' := by
  intro key tag htag
  obtain ⟨hmem, hzero⟩ | ⟨hnot, hbefore⟩ := hrest key tag htag
  · exact .inl ⟨List.mem_cons_of_mem id hmem, hzero⟩
  · obtain ⟨hmem, hzero⟩ | ⟨hother, hold⟩ := hfirst key tag hbefore
    · obtain rfl := List.mem_singleton.mp hmem
      exact .inl ⟨List.mem_cons_self, hzero⟩
    · have hne : key ≠ id := fun heq => hother (List.mem_singleton.mpr heq)
      exact .inr ⟨List.not_mem_cons_of_ne_of_not_mem hne hnot, hold⟩

/-- A tag with a counter of zero starts its protocol over. -/
theorem restarted_insert (tags : Std.ExtTreeMap UInt64 ProtocolTag) (id : UInt64)
    {tag : ProtocolTag} (hzero : tag.outputData = 0) :
    Restarted [id] tags (tags.insert id tag) := by
  refine forall_getElem?_insert.mpr ⟨.inl ⟨List.mem_singleton_self id, hzero⟩, ?_⟩
  intro key tag' hkey hold
  exact .inr ⟨by simpa using hkey, hold⟩

/-- Reporting a tag starts its counters over. -/
theorem restarted_reportTag (context : ParserContext Handle) (id : UInt64) :
    Restarted [id] context.tags (context.reportTag id).tags := by
  unfold ParserContext.reportTag
  split
  next hnone =>
    intro key tag htag
    have hne : key ≠ id := by
      rintro rfl
      simp [hnone] at htag
    exact .inr ⟨by simpa using hne, htag⟩
  next tag htag => exact restarted_insert context.tags id rfl

/-- A report starts the counters of its protocols over and leaves the others. -/
theorem restarted_reportMetrics (reports : List (UInt64 × ℕ)) (context : ParserContext Handle) :
    Restarted (reports.map Prod.fst) context.tags (reportMetrics reports context).tags := by
  induction reports generalizing context with
  | nil => exact Restarted.refl context.tags
  | cons report rest ih =>
    exact (restarted_reportTag (context.takeReports report.2) report.1).cons (ih _)

/-- A tag that is prepared for a module counts from zero. -/
theorem protocolTag_outputData {config : Dict} {tag : ProtocolTag}
    (h : protocolTag config = .ok tag) : tag.outputData = 0 := by
  simp only [protocolTag, bind_eq_ok_iff] at h
  obtain ⟨_, _, _, _, _, _, htag⟩ := h
  cases htag
  rfl

/-- An update starts the counters of its module over, if it succeeds. -/
theorem restarted_updateParser {context context' : ParserContext Handle} {module : ModuleConfig}
    {load : LoadOutcome Handle} {updated : Bool}
    (h : updateParser context module load = .ok (updated, context')) :
    Restarted (if updated then [module.id] else []) context.tags context'.tags := by
  simp only [updateParser, bind_eq_ok_iff] at h
  obtain ⟨tag, htag, opened, -, hresult⟩ := h
  cases opened with
  | none =>
    cases hresult
    have htags : (context.openFailed module tag).tags = context.tags := by
      unfold ParserContext.openFailed
      split <;> rfl
    rw [htags]
    exact Restarted.refl context.tags
  | some object =>
    cases hresult
    exact restarted_insert context.tags module.id (protocolTag_outputData htag)

/-- The rest of an iteration counts the record it parses. -/
theorem outputMove_popRecord (thread : ParserThread Handle) (input : ParserInput) :
    OutputMove thread.context.tags (thread.parsedEvent input)
      (thread.popRecord input).2.context.tags := by
  unfold ParserThread.parsedEvent ParserThread.popRecord
  split
  next record rest hne hstream =>
    simp only [ParserThread.handleRecord]
    split
    next hmem =>
      rw [ParserThread.parseRecord_context]
      simp only [ParserContext.account]
      split
      next hnone => exact .ignored (.inl hnone)
      next tag htag =>
        by_cases hres : input.res = 0
        · simp only [hres, if_true]
          exact .counted htag
        · simp only [hres, if_false]
          exact .ignored (.inr hres)
    next => exact .kept (Restarted.refl _)
  next => exact .kept (Restarted.refl _)

/-- Every step is one of the moves on the tags. -/
theorem OutputStep.move {event : OutputEvent} (h : OutputStep thread event thread') :
    OutputMove thread.context.tags event thread'.context.tags := by
  obtain ⟨action, hnext⟩ := h
  cases action with
  | arrive | take =>
    cases hnext
    exact .kept (Restarted.refl _)
  | update module load =>
    simp only [outputNext] at hnext
    split at hnext
    next => cases hnext
    next updated context hupdate =>
      cases hnext
      exact .restarted (restarted_updateParser hupdate)
  | erase id =>
    cases hnext
    refine .kept fun key tag htag => .inr ⟨List.not_mem_nil, ?_⟩
    simp only [ParserContext.erase, Std.ExtTreeMap.getElem?_erase] at htag
    split at htag
    next => cases htag
    next => exact htag
  | clear =>
    cases hnext
    refine .kept fun key tag htag => ?_
    simp [ParserContext.clear] at htag
  | report input =>
    cases hnext
    refine .restarted ?_
    unfold ParserThread.reportedIds ParserThread.reportDue
    split
    next => exact restarted_reportMetrics input.reports thread.context
    next => exact Restarted.refl _
  | handle input =>
    cases hnext
    exact outputMove_popRecord thread input

theorem dispatchedSince_append (id : UInt64) (history : List OutputEvent) (event : OutputEvent) :
    dispatchedSince id (history ++ [event]) = event.advance id (dispatchedSince id history) := by
  rw [dispatchedSince, List.foldl_append]
  rfl

/-- The counter of a parsed record and the count of its protocol advance alike exactly if the record
has fields of both kinds or of neither and the counter does not wrap. -/
theorem outputData_count_iff {tag : ProtocolTag} {count : ℕ} (record : Metadata) (fieldsSize : ℕ)
    (hcount : tag.outputData.toNat = count) :
    (tag.count record).outputData.toNat =
        OutputEvent.advance record.protocolType count (.parsed record 0 fieldsSize) ↔
      (record.fieldsSize ≠ 0 ↔ fieldsSize ≠ 0) ∧
        (fieldsSize ≠ 0 → tag.outputData.toNat + 1 < 2 ^ 64) := by
  have hlt := tag.outputData.toNat_lt
  have hvalue := Counter.outputData.value_count tag record
  simp only [Counter.value, Counter.amount] at hvalue
  rw [hvalue]
  by_cases hsource : record.fieldsSize = 0 <;> by_cases hparser : fieldsSize = 0 <;>
    simp [OutputEvent.advance, hsource, hparser, Nat.pos_of_ne_zero] <;> omega

/-- A step keeps the counters exact precisely if the record it parses meets the condition. -/
theorem OutputStep.counted_iff {history : List OutputEvent} {event : OutputEvent}
    (hcounted : OutputCounted history thread) (hstep : OutputStep thread event thread') :
    OutputCounted (history ++ [event]) thread' ↔ SameFields thread event := by
  have hmove := hstep.move
  unfold OutputCounted
  simp only [dispatchedSince_append]
  generalize htags : thread'.context.tags = tags' at hmove ⊢
  cases hmove with
  | @counted record fieldsSize tag htag =>
    have hiff := outputData_count_iff record fieldsSize (hcounted _ tag htag)
    simp only [SameFields, htag, Option.some.injEq, forall_eq', forall_const]
    rw [← hiff, forall_getElem?_insert, and_iff_left_iff_imp]
    intro _ id tag' hid hold
    rw [hcounted id tag' hold, OutputEvent.advance, if_neg fun hboth => hid hboth.1.symm]
  | @ignored record res fieldsSize hignored =>
    have hguard : SameFields thread (.parsed record res fieldsSize) := by
      intro tag htag hres
      rcases hignored with hnone | hne
      · simp [hnone] at htag
      · exact absurd hres hne
    refine iff_of_true ?_ hguard
    intro id tag htag
    rw [hcounted id tag htag, OutputEvent.advance, if_neg]
    rintro ⟨rfl, hres, -⟩
    rcases hignored with hnone | hne
    · simp [hnone] at htag
    · exact hne hres
  | @restarted ids tags' hreset =>
    refine iff_of_true ?_ trivial
    intro id tag htag
    rw [OutputEvent.advance]
    obtain ⟨hmem, hzero⟩ | ⟨hnot, hold⟩ := hreset id tag htag
    · rw [if_pos hmem, hzero]
      rfl
    · rw [if_neg hnot]
      exact hcounted id tag hold
  | @kept tags' hkept =>
    refine iff_of_true ?_ trivial
    intro id tag htag
    obtain ⟨hmem, -⟩ | ⟨-, hold⟩ := hkept id tag htag
    · exact absurd hmem List.not_mem_nil
    · exact hcounted id tag hold

/-- From counters of zero on, every counter is the number of the dispatched records along every run
whose parsed records meet the condition, and a step of any run that is exact so far stays exact
precisely under the condition. -/
theorem outputData_eq_dispatched (hzero : start.context.Unmeasured) :
    (∀ history thread, Run (Guarded OutputStep SameFields) start history thread →
      OutputCounted history thread) ∧
    ∀ history thread event thread', Run OutputStep start history thread →
      OutputCounted history thread → OutputStep thread event thread' →
      (OutputCounted (history ++ [event]) thread' ↔ SameFields thread event) := by
  refine ⟨?_, fun _ _ _ _ _ hcounted hstep => hstep.counted_iff hcounted⟩
  intro history thread hrun
  refine hrun.invariant (I := fun history thread => OutputCounted history thread) ?_ ?_
  · intro id tag htag
    have hcounter : tag.outputData = 0 := hzero id tag htag .outputData
    rw [hcounter]
    rfl
  · rintro history thread event thread' hcounted ⟨hstep, hsame⟩
    exact (hstep.counted_iff hcounted).mpr hsame

/-- A record of protocol 6 with this number of fields from the source. -/
def sourceRecord (fieldsSize : ℕ) : Metadata where
  ptr := 1
  protocolType := 6
  upStreamSize := 100
  downStreamSize := 20
  fieldsSize := fieldsSize

/-- A parser thread with a parser and a tag for protocol 6 and this record in its stream. -/
def taggedThread (record : Metadata) : ParserThread ℕ :=
  { oneRecord 6 with
    context := { (oneRecord 6).context with
      tags := .ofList [((6 : UInt64), (⟨1, 0, 0, 0⟩ : ProtocolTag))] }
    stream := [record] }

/-- The tags of the thread. -/
theorem taggedThread_tags {record : Metadata} {id : UInt64} {tag : ProtocolTag}
    (htag : (taggedThread record).context.tags[id]? = some tag) : tag = ⟨1, 0, 0, 0⟩ := by
  have hmem := mem_of_getElem?_ofList htag
  simp only [List.mem_singleton, Prod.mk.injEq] at hmem
  exact hmem.2

/-- The thread has counted nothing. -/
theorem taggedThread_unmeasured (record : Metadata) :
    (taggedThread record).context.Unmeasured := by
  intro id tag htag counter
  rw [taggedThread_tags htag]
  cases counter <;> rfl

/-- A record with fields of both kinds is counted and dispatched. -/
theorem outputData_eq_dispatched_both :
    ∃ thread, OutputStep (taggedThread (sourceRecord 1)) (.parsed (sourceRecord 1) 0 2) thread ∧
      OutputCounted [.parsed (sourceRecord 1) 0 2] thread ∧
      (OutputCounted ([] ++ [.parsed (sourceRecord 1) 0 2]) thread ↔
        SameFields (taggedThread (sourceRecord 1)) (.parsed (sourceRecord 1) 0 2)) := by
  obtain ⟨thread, hstep⟩ : ∃ thread,
      OutputStep (taggedThread (sourceRecord 1)) (.parsed (sourceRecord 1) 0 2) thread :=
    ⟨_, .handle parsesRecord, rfl⟩
  have hsame : SameFields (taggedThread (sourceRecord 1)) (.parsed (sourceRecord 1) 0 2) := by
    intro tag htag _
    rw [taggedThread_tags htag]
    decide
  have hzero := taggedThread_unmeasured (sourceRecord 1)
  have hcounted : OutputCounted [] (taggedThread (sourceRecord 1)) := by
    intro id tag htag
    rw [taggedThread_tags htag]
    rfl
  exact ⟨thread, hstep, (outputData_eq_dispatched hzero).1 _ _ (.single ⟨hstep, hsame⟩),
    (outputData_eq_dispatched hzero).2 _ _ _ _ .nil hcounted hstep⟩

/-- A record without fields from the source is dispatched and not counted. -/
theorem outputData_misses_dispatched :
    ¬ ∀ (start thread : ParserThread ℕ) (history : List OutputEvent), start.context.Unmeasured →
      Run OutputStep start history thread → OutputCounted history thread := by
  intro hall
  have hexec : (exec outputNext (taggedThread (sourceRecord 0)) [.handle parsesRecord]).map
      (fun result => (result.2.context.tags[(6 : UInt64)]?, dispatchedSince 6 result.1)) =
      some (some ⟨1, 0, 120, 0⟩, 1) := by
    decide +kernel
  obtain ⟨history, thread, hrun, hresult⟩ := exists_run_of_exec hexec
  obtain ⟨htag, hdispatched⟩ := Prod.mk.inj hresult
  have hcounted := hall _ _ _ (taggedThread_unmeasured _) hrun 6 _ htag
  rw [hdispatched] at hcounted
  exact absurd hcounted (by decide)

end Demos.Oak
