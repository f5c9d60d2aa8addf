import Demos.Lib.Assoc
import Demos.Lib.Run
import Demos.Oak.Decimal
import Demos.Oak.Worker.Model

/-!
# Conservation of the measured flow

What a parser thread measures for a protocol is either still in the counters of its tag or has
been placed in the report channel, as the decimal texts of a metrics event. The thread adds
records to the counters and reports them in any order, and the main thread takes events from the
channel at any time. The balance is kept by exactly the steps that neither wrap a counter nor
report one that is too large for its text, and that find room in the channel for a counter that
is not zero.
-/

namespace Demos.Oak

open Demos.Lib

variable {Handle : Type} {context context' start : ParserContext Handle}

/-- The two counters of a tag. -/
inductive Counter where
  | inputFlow
  | outputData
deriving DecidableEq, Repr

/-- The key under which a metrics event carries the counter. -/
def Counter.key : Counter → Bytes
  | .inputFlow => oakMInputFlow
  | .outputData => oakMOutputData

/-- The counter in a tag. -/
def Counter.value (tag : ProtocolTag) : Counter → UInt64
  | .inputFlow => tag.inputFlow
  | .outputData => tag.outputData

/-- What a parsed record adds to the counter. -/
def Counter.amount (record : Metadata) : Counter → ℕ
  | .inputFlow => record.upStreamSize.toNat + record.downStreamSize.toNat
  | .outputData => if 0 < record.fieldsSize then 1 else 0

/-- The number that an event carries under a literal key. -/
def OutgoingEvent.number (event : OutgoingEvent) (key : Bytes) : ℤ :=
  match event.args.find? fun entry => entry.1 = key ++ [0] with
  | some entry => (stoll entry.2).toOption.getD 0
  | none => 0

/-- What a step of the parser thread or of the main thread does to the measured flow. -/
inductive MetricsEvent where
  | counted (record : Metadata)
  | placed (id : UInt64) (event : OutgoingEvent)
  | dropped (id : UInt64)
  | quiet
deriving DecidableEq, Repr

/-- The accounting of a record, the report of one tag, and the main thread taking an event. -/
inductive MetricsAction where
  | account (record : Metadata) (res : ℤ)
  | report (id : UInt64)
  | take

/-- The steps on a context; only the tags it has are reported. -/
def metricsNext (context : ParserContext Handle) :
    MetricsAction → Option (MetricsEvent × ParserContext Handle)
  | .account record res =>
    some (if record.protocolType ∈ context.tags ∧ res = 0 then .counted record else .quiet,
      context.account record res)
  | .report id =>
    (context.tags[id]?).map fun tag =>
      (if context.report.length < context.reportCapacity then .placed id (metricsEvent tag)
        else .dropped id,
      context.reportTag id)
  | .take => some (.quiet, context.takeReports 1)

/-- The steps on a context in any order. -/
def MetricsStep : ParserContext Handle → MetricsEvent → ParserContext Handle → Prop :=
  Moves metricsNext

/-- What a step adds to the counter of a protocol. -/
def MetricsEvent.added (id : UInt64) (counter : Counter) : MetricsEvent → ℤ
  | .counted record => if record.protocolType = id then counter.amount record else 0
  | _ => 0

/-- What a step places in the report channel for the counter of a protocol. -/
def MetricsEvent.reported (id : UInt64) (counter : Counter) : MetricsEvent → ℤ
  | .placed id' event => if id' = id then event.number counter.key else 0
  | _ => 0

/-- For every tag and counter, the placed amounts and the current value make up the added
amounts. -/
def Conserved (history : List MetricsEvent) (context : ParserContext Handle) : Prop :=
  ∀ id tag, context.tags[id]? = some tag → ∀ counter : Counter,
    (history.map (MetricsEvent.reported id counter)).sum + (counter.value tag).toNat =
      (history.map (MetricsEvent.added id counter)).sum

/-- A context whose counters are all zero. -/
def ParserContext.Unmeasured (context : ParserContext Handle) : Prop :=
  ∀ (id : UInt64) (tag : ProtocolTag), context.tags[id]? = some tag →
    ∀ counter : Counter, counter.value tag = 0

/-- No counter of the record's protocol wraps, a placed counter is in the range of its text, and
a counter that finds the channel full is zero. -/
def Lossless (context : ParserContext Handle) : MetricsEvent → Prop
  | .counted record => ∀ tag, context.tags[record.protocolType]? = some tag →
      ∀ counter : Counter, (counter.value tag).toNat + counter.amount record < 2 ^ 64
  | .placed id _ => ∀ tag, context.tags[id]? = some tag →
      ∀ counter : Counter, (counter.value tag).toNat < 2 ^ 63
  | .dropped id => ∀ tag, context.tags[id]? = some tag →
      ∀ counter : Counter, counter.value tag = 0
  | .quiet => True

@[simp]
theorem Counter.value_reset (counter : Counter) (tag : ProtocolTag) :
    counter.value tag.reset = 0 := by
  cases counter <;> rfl

/-- Accounting adds the amount of the record, modulo the width of the counter. -/
theorem Counter.value_count (counter : Counter) (tag : ProtocolTag) (record : Metadata) :
    (counter.value (tag.count record)).toNat =
      ((counter.value tag).toNat + counter.amount record) % 2 ^ 64 := by
  cases counter with
  | inputFlow =>
    simp [Counter.value, Counter.amount, ProtocolTag.count, UInt64.toNat_add, Nat.add_assoc]
  | outputData =>
    have hlt := tag.outputData.toNat_lt
    by_cases hfields : 0 < record.fieldsSize
    · simp [Counter.value, Counter.amount, ProtocolTag.count, hfields, UInt64.toNat_add]
    · simp only [Counter.value, Counter.amount, ProtocolTag.count, hfields, if_false]
      omega

/-- The text of a counter read as the signed number that `%ld` prints. -/
theorem number_metricsEvent (counter : Counter) (tag : ProtocolTag) :
    (metricsEvent tag).number counter.key = (counter.value tag).toInt64.toInt := by
  have hread : ∀ value : UInt64, (stoll (formatLd value.toInt64.toInt)).toOption.getD 0 =
      value.toInt64.toInt := by
    intro value
    rw [stoll_formatLd ⟨value.toInt64.le_toInt, value.toInt64.toInt_lt⟩]
    rfl
  cases counter with
  | inputFlow => exact hread tag.inputFlow
  | outputData => exact hread tag.outputData

/-- A counter is printed as its value exactly below the sign bit. -/
theorem toInt64_toInt_eq_iff (value : UInt64) :
    value.toInt64.toInt = (value.toNat : ℤ) ↔ value.toNat < 2 ^ 63 := by
  have hbits : value.toInt64.toInt = value.toBitVec.toInt := rfl
  have hnat : value.toBitVec.toNat = value.toNat := rfl
  rw [hbits, BitVec.toInt_eq_toNat_cond, hnat]
  have hlt := value.toNat_lt
  split <;> omega

/-- What a step does to the tags: it counts a record, resets a reported tag or leaves them. -/
inductive TagsMove (tags : Std.ExtTreeMap UInt64 ProtocolTag) :
    MetricsEvent → Std.ExtTreeMap UInt64 ProtocolTag → Prop
  | counted {record : Metadata} {tag : ProtocolTag}
      (htag : tags[record.protocolType]? = some tag) :
      TagsMove tags (.counted record) (tags.insert record.protocolType (tag.count record))
  | placed {id : UInt64} {tag : ProtocolTag} (htag : tags[id]? = some tag) :
      TagsMove tags (.placed id (metricsEvent tag)) (tags.insert id tag.reset)
  | dropped {id : UInt64} {tag : ProtocolTag} (htag : tags[id]? = some tag) :
      TagsMove tags (.dropped id) (tags.insert id tag.reset)
  | quiet : TagsMove tags .quiet tags

/-- The accounting of a record as a step on the tags. -/
theorem tagsMove_account (context : ParserContext Handle) (record : Metadata) (res : ℤ) :
    TagsMove context.tags
      (if record.protocolType ∈ context.tags ∧ res = 0 then .counted record else .quiet)
      (context.account record res).tags := by
  unfold ParserContext.account
  cases htag : context.tags[record.protocolType]? with
  | none =>
    have hmem : ¬ record.protocolType ∈ context.tags := by
      rw [Std.ExtTreeMap.mem_iff_isSome_getElem?, htag]
      exact Bool.false_ne_true
    rw [if_neg (fun hboth => hmem hboth.1)]
    exact .quiet
  | some tag =>
    have hmem : record.protocolType ∈ context.tags := by
      rw [Std.ExtTreeMap.mem_iff_isSome_getElem?, htag]
      rfl
    by_cases hres : res = 0
    · rw [if_pos ⟨hmem, hres⟩]
      simpa only [hres, if_true] using TagsMove.counted htag
    · rw [if_neg (fun hboth => hres hboth.2)]
      simpa only [hres, if_false] using TagsMove.quiet

/-- Every step on a context is one of the moves on its tags. -/
theorem MetricsStep.tagsMove {label : MetricsEvent} (h : MetricsStep context label context') :
    TagsMove context.tags label context'.tags := by
  obtain ⟨action, hnext⟩ := h
  cases action with
  | account record res =>
    cases hnext
    exact tagsMove_account context record res
  | report id =>
    obtain ⟨tag, htag, heq⟩ := Option.map_eq_some_iff.mp hnext
    obtain ⟨rfl, rfl⟩ := Prod.mk.inj heq
    have htags : (context.reportTag id).tags = context.tags.insert id tag.reset := by
      simp [ParserContext.reportTag, htag]
    rw [htags]
    split_ifs
    · exact .placed htag
    · exact .dropped htag
  | take =>
    cases hnext
    exact .quiet

/-- A step that replaces one tag keeps the balance exactly when it is balanced for that tag. -/
theorem conserved_insert_iff {history : List MetricsEvent} {label : MetricsEvent} {id : UInt64}
    {tag tag' : ProtocolTag} (hcons : Conserved history context)
    (htag : context.tags[id]? = some tag) (htags : context'.tags = context.tags.insert id tag')
    (hother : ∀ id', id' ≠ id → ∀ counter,
      label.reported id' counter = 0 ∧ label.added id' counter = 0) :
    Conserved (history ++ [label]) context' ↔ ∀ counter : Counter,
      label.reported id counter + (counter.value tag').toNat =
        (counter.value tag).toNat + label.added id counter := by
  have hsum : ∀ f : MetricsEvent → ℤ,
      ((history ++ [label]).map f).sum = (history.map f).sum + f label := by
    intro f
    simp
  rw [Conserved, htags, forall_getElem?_insert, and_iff_left]
  · refine forall_congr' fun counter => ?_
    have hbefore := hcons id tag htag counter
    rw [hsum, hsum]
    omega
  · intro id' tag'' hid htag'' counter
    have hbefore := hcons id' tag'' htag'' counter
    obtain ⟨hreported, hadded⟩ := hother id' hid counter
    rw [hsum, hsum]
    omega

/-- A step keeps the balance exactly when it loses nothing. -/
theorem MetricsStep.conserved_iff {history : List MetricsEvent} {label : MetricsEvent}
    (hcons : Conserved history context) (h : MetricsStep context label context') :
    Conserved (history ++ [label]) context' ↔ Lossless context label := by
  have hmove := h.tagsMove
  generalize htags : context'.tags = tags' at hmove
  cases hmove with
  | @counted record tag htag =>
    rw [conserved_insert_iff hcons htag htags
      (fun id hid counter => by simp [MetricsEvent.reported, MetricsEvent.added, hid.symm])]
    simp only [Lossless, htag, Option.some.injEq, forall_eq', MetricsEvent.reported,
      MetricsEvent.added, if_true, Counter.value_count]
    refine forall_congr' fun counter => ?_
    omega
  | @placed id tag htag =>
    rw [conserved_insert_iff hcons htag htags
      (fun id' hid counter => by simp [MetricsEvent.reported, MetricsEvent.added, hid.symm])]
    simp only [Lossless, htag, Option.some.injEq, forall_eq', MetricsEvent.reported,
      MetricsEvent.added, if_true, number_metricsEvent, Counter.value_reset, UInt64.toNat_zero,
      ← toInt64_toInt_eq_iff]
    refine forall_congr' fun counter => ?_
    omega
  | @dropped id tag htag =>
    rw [conserved_insert_iff hcons htag htags
      (fun id' hid counter => by simp [MetricsEvent.reported, MetricsEvent.added])]
    simp only [Lossless, htag, Option.some.injEq, forall_eq', MetricsEvent.reported,
      MetricsEvent.added, Counter.value_reset, UInt64.toNat_zero, ← UInt64.toNat_inj]
    refine forall_congr' fun counter => ?_
    omega
  | quiet =>
    refine iff_of_true ?_ trivial
    intro id tag htag counter
    rw [htags] at htag
    simpa [MetricsEvent.reported, MetricsEvent.added] using hcons id tag htag counter

/-- Counters that start at zero are balanced. -/
theorem ParserContext.Unmeasured.conserved (hzero : start.Unmeasured) : Conserved [] start := by
  intro id tag htag counter
  simp [hzero id tag htag counter]

/-- The measured flow is conserved along every run whose steps lose nothing, and a step of any
run that is balanced so far keeps the balance exactly when it loses nothing. -/
theorem metrics_conserved (hzero : start.Unmeasured) :
    (∀ history context, Run (Guarded MetricsStep Lossless) start history context →
      Conserved history context) ∧
    ∀ history context label context', Run MetricsStep start history context →
      Conserved history context → MetricsStep context label context' →
      (Conserved (history ++ [label]) context' ↔ Lossless context label) := by
  refine ⟨?_, ?_⟩
  · intro history context hrun
    refine hrun.invariant (I := fun history context => Conserved history context)
      hzero.conserved ?_
    rintro history context label context' hcons ⟨hstep, hlossless⟩
    exact (hstep.conserved_iff hcons).mpr hlossless
  · intro history context label context' _ hcons hstep
    exact hstep.conserved_iff hcons

/-- The main thread takes any number of events, one at a time. -/
theorem exists_run_takeReports (context : ParserContext Handle) (count : ℕ) :
    ∃ history, Run MetricsStep context history (context.takeReports count) := by
  induction count with
  | zero => exact ⟨[], .nil⟩
  | succ count ih =>
    obtain ⟨history, hrun⟩ := ih
    refine ⟨history ++ [.quiet], hrun.snoc ⟨.take, ?_⟩⟩
    simp [metricsNext, ParserContext.takeReports, List.drop_drop]

/-- Reporting a tag keeps the set of tags. -/
theorem ParserContext.mem_tags_reportTag {id key : UInt64} (h : key ∈ context.tags) :
    key ∈ (context.reportTag id).tags := by
  unfold ParserContext.reportTag
  split
  · exact h
  · exact Std.ExtTreeMap.mem_insert.mpr (.inr h)

/-- Reporting the tags while the main thread takes events is a run of the steps. -/
theorem exists_run_reportMetrics (reports : List (UInt64 × ℕ)) (context : ParserContext Handle)
    (hids : ∀ report ∈ reports, report.1 ∈ context.tags) :
    ∃ history, Run MetricsStep context history (reportMetrics reports context) := by
  induction reports generalizing context with
  | nil => exact ⟨[], .nil⟩
  | cons report rest ih =>
    obtain ⟨id, taken⟩ := report
    obtain ⟨before, hbefore⟩ := exists_run_takeReports context taken
    have hmem : id ∈ (context.takeReports taken).tags := hids _ List.mem_cons_self
    obtain ⟨tag, htag⟩ :=
      Option.isSome_iff_exists.mp (Std.ExtTreeMap.mem_iff_isSome_getElem?.mp hmem)
    have hstep : MetricsStep (context.takeReports taken) _
        ((context.takeReports taken).reportTag id) :=
      ⟨.report id, by rw [metricsNext, htag, Option.map_some]⟩
    obtain ⟨after, hafter⟩ := ih ((context.takeReports taken).reportTag id)
      fun report hreport => ParserContext.mem_tags_reportTag (hids report (.tail _ hreport))
    exact ⟨_, (hbefore.snoc hstep).append hafter⟩

/-- Parsing a record changes the context only by its accounting. -/
theorem ParserThread.parseRecord_context (thread : ParserThread Handle) (input : ParserInput)
    (record : Metadata) :
    (thread.parseRecord input record).2.context = thread.context.account record input.res := by
  unfold parseRecord
  simp only
  split <;> rfl

/-- What an iteration of the parser loop does to its context is a run of the steps. -/
theorem exists_run_parserIterate (thread : ParserThread Handle) (input : ParserInput)
    (hids : ∀ report ∈ input.reports, report.1 ∈ thread.context.tags) :
    ∃ history, Run MetricsStep thread.context history (parserIterate thread input).2.context := by
  have hdue : ∃ history,
      Run MetricsStep thread.context history (thread.reportDue input).context := by
    unfold ParserThread.reportDue
    split
    · exact exists_run_reportMetrics input.reports thread.context hids
    · exact ⟨[], .nil⟩
  obtain ⟨history, hrun⟩ := hdue
  unfold parserIterate
  generalize thread.reportDue input = due at hrun
  simp only
  split
  · rename_i record rest _ _
    simp only [ParserThread.handleRecord]
    split
    · rw [ParserThread.parseRecord_context]
      exact ⟨_, hrun.snoc ⟨.account record input.res, rfl⟩⟩
    · exact ⟨history, hrun⟩
  · exact ⟨history, hrun⟩

/-- A context with an empty report channel of one place and one tag, for protocol 6. -/
def oneTag (tag : ProtocolTag) : ParserContext ℕ :=
  { (ParserContext.new 0 1 : ParserContext ℕ) with
    tags := (∅ : Std.ExtTreeMap UInt64 ProtocolTag).insert 6 tag }

/-- The tags of the context. -/
theorem oneTag_getElem? {tag tag' : ProtocolTag} {id : UInt64}
    (h : (oneTag tag).tags[id]? = some tag') : tag' = tag := by
  rw [oneTag, Std.ExtTreeMap.getElem?_insert] at h
  by_cases hid : id = 6 <;> simp_all [eq_comm]

/-- A tag that is just created leaves the context without measurements. -/
theorem oneTag_unmeasured : (oneTag ⟨1, 0, 0, 0⟩).Unmeasured := by
  intro id tag htag counter
  obtain rfl := oneTag_getElem? htag
  cases counter <;> rfl

/-- A record of 120 bytes of protocol 6. -/
def flow120 : Metadata where
  ptr := 1
  protocolType := 6
  upStreamSize := 100
  downStreamSize := 20
  fieldsSize := 1

/-- A record that is counted and reported while the channel has room. -/
theorem metrics_conserved_placed :
    Conserved [.counted flow120, .placed 6 (metricsEvent ⟨1, 0, 120, 1⟩)]
        ((oneTag ⟨1, 0, 120, 1⟩).reportTag 6) ∧
      (Conserved ([] ++ [.counted flow120]) (oneTag ⟨1, 0, 120, 1⟩) ↔
        Lossless (oneTag ⟨1, 0, 0, 0⟩) (.counted flow120)) := by
  have hcount : MetricsStep (oneTag ⟨1, 0, 0, 0⟩) (.counted flow120) (oneTag ⟨1, 0, 120, 1⟩) :=
    ⟨.account flow120 0, rfl⟩
  have hreport : MetricsStep (oneTag ⟨1, 0, 120, 1⟩) (.placed 6 (metricsEvent ⟨1, 0, 120, 1⟩))
      ((oneTag ⟨1, 0, 120, 1⟩).reportTag 6) := ⟨.report 6, rfl⟩
  have hfits : Lossless (oneTag ⟨1, 0, 0, 0⟩) (.counted flow120) := by
    intro tag htag counter
    obtain rfl := oneTag_getElem? htag
    cases counter <;> decide
  have hrange : Lossless (oneTag ⟨1, 0, 120, 1⟩) (.placed 6 (metricsEvent ⟨1, 0, 120, 1⟩)) := by
    intro tag htag counter
    obtain rfl := oneTag_getElem? htag
    cases counter <;> decide
  have hrun : Run (Guarded MetricsStep Lossless) (oneTag ⟨1, 0, 0, 0⟩)
      [.counted flow120, .placed 6 (metricsEvent ⟨1, 0, 120, 1⟩)]
      ((oneTag ⟨1, 0, 120, 1⟩).reportTag 6) :=
    (Run.single ⟨hcount, hfits⟩).snoc ⟨hreport, hrange⟩
  exact ⟨(metrics_conserved oneTag_unmeasured).1 _ _ hrun,
    (metrics_conserved oneTag_unmeasured).2 _ _ _ _ .nil oneTag_unmeasured.conserved hcount⟩

/-- A report that finds the channel full loses what was measured since the last one. -/
theorem metrics_lost_when_full :
    ¬ ∀ (start context : ParserContext ℕ) (history : List MetricsEvent), start.Unmeasured →
      Run MetricsStep start history context → Conserved history context := by
  intro hall
  have hexec : (exec metricsNext (oneTag ⟨1, 0, 0, 0⟩)
      [.account flow120 0, .report 6, .account flow120 0, .report 6]).map (fun result =>
        ((result.1.map (MetricsEvent.reported 6 .inputFlow)).sum, result.2.tags[(6 : UInt64)]?,
          (result.1.map (MetricsEvent.added 6 .inputFlow)).sum)) =
      some (120, some ⟨1, 0, 0, 0⟩, 240) := by
    decide +kernel
  obtain ⟨history, context, hrun, hsums⟩ := exists_run_of_exec hexec
  simp only [Prod.mk.injEq] at hsums
  obtain ⟨hreported, htag, hadded⟩ := hsums
  have hbalance := hall _ _ _ oneTag_unmeasured hrun 6 _ htag .inputFlow
  rw [hreported, hadded] at hbalance
  exact absurd hbalance (by decide)

end Demos.Oak
