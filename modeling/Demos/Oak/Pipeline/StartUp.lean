import Demos.Lib.Run
import Demos.Oak.Pipeline.Moves

/-!
# Starting the threads

While `CreateWorker` runs, the place of the main thread says what every worker may be: the ones it
has seen running are ready, the one it waits for is starting or ready, and the rest do not exist
yet. The sinks are ready before the first parser starts and the parsers before the first source, so
a thread finds the ones it hands its records to running, with their channels in place. Nothing in
the program stores `THREAD_STOP` after the start, and so this never changes again.
-/

namespace Demos.Oak

open Demos.Lib

namespace Pipeline

variable {config : Config} {s s' : Pipeline} {event : PipelineEvent} {role : Role} {i k p : ℕ}
  {sink sink' : SinkWorker} {parser parser' : ParserWorker} {source source' : SourceWorker}
  {main : MainPc} {crash : Crash} {record : Record} {labels : List PipelineEvent}

section Status

/-- How far a worker has come. -/
inductive Status where
  | absent
  | armed
  | starting
  | ready
deriving DecidableEq

variable {status : Status}

/-- A sink that has come so far. -/
def SinkIs (sink : SinkWorker) : Status → Prop
  | .absent => sink.state = .stop ∧ sink.pc = .absent ∧ sink.stream = none
  | .armed => sink.state = .init ∧ sink.pc = .absent ∧ sink.stream = none
  | .starting => sink.state = .init ∧
      (sink.pc = .created ∧ sink.stream = none ∨ sink.pc = .opened ∧ sink.stream.isSome)
  | .ready => sink.state = .running ∧ sink.stream.isSome ∧
      (sink.pc = .loop ∨ ∃ record i, sink.pc = .writing record i)

/-- The places of a parser thread in its loop. -/
inductive ParserWorks (config : Config) (parser : ParserWorker) : Prop
  | loop (hpc : parser.pc = .loop)
  | popped {record : Record} (hpc : parser.pc = .popped record)
  | delivering {record : Record} (hpc : parser.pc = .delivering record)
  | pushing {record : Record} (hpc : parser.pc = .pushing record)
      (hlt : parser.offset < count config .sink)

/-- A parser that has come so far. -/
def ParserIs (config : Config) (parser : ParserWorker) : Status → Prop
  | .absent => parser.state = .stop ∧ parser.pc = .absent ∧ parser.stream = none ∧
      parser.report = none
  | .armed => parser.state = .init ∧ parser.pc = .absent ∧ parser.stream = none ∧
      parser.report = none
  | .starting => parser.state = .init ∧
      (parser.pc = .created ∧ parser.stream = none ∧ parser.report = none ∨
        parser.pc = .opened ∧ parser.stream.isSome ∧ parser.report.isSome)
  | .ready => parser.state = .running ∧ parser.stream.isSome ∧ parser.report.isSome ∧
      ParserWorks config parser

/-- The places of a source thread in its loop. -/
inductive SourceWorks (config : Config) (source : SourceWorker) : Prop
  | loop (hpc : source.pc = .loop)
  | delivering {record : Record} (hpc : source.pc = .delivering record)
  | pushing {record : Record} (hpc : source.pc = .pushing record)
      (hlt : source.offset < count config .parser)

/-- A source that has come so far. -/
def SourceIs (config : Config) (source : SourceWorker) : Status → Prop
  | .absent => source.state = .stop ∧ source.pc = .absent
  | .armed => source.state = .init ∧ source.pc = .absent
  | .starting => source.state = .init ∧ (source.pc = .created ∨ source.pc = .opened)
  | .ready => source.state = .running ∧ SourceWorks config source

/-- A worker that has come so far. -/
def Is (config : Config) (s : Pipeline) (status : Status) : Role → ℕ → Prop
  | .sink, i => SinkIs (s.sinks i) status
  | .parser, i => ParserIs config (s.parsers i) status
  | .source, i => SourceIs config (s.sources i) status

/-- A worker that moves is started: it stays what it is or becomes ready. -/
structure Advances (before after : Status) : Prop where
  started : before = .starting ∨ before = .ready
  after_eq : after = before ∨ after = .ready

/-- What a sink thread that moves becomes. -/
theorem SinkMove.advances (h : SinkMove config k sink event sink') (his : SinkIs sink status) :
    ∃ status', SinkIs sink' status' ∧ Advances status status' := by
  cases status with
  | absent | armed => cases h <;> simp_all [SinkIs]
  | starting =>
    cases h with
    | opened stream numHandles hpc hstate hstream =>
      exact ⟨.starting, ⟨hstate, .inr ⟨rfl, rfl⟩⟩, .inl rfl, .inl rfl⟩
    | started hpc =>
      obtain ⟨-, ⟨hcreated, -⟩ | ⟨-, hstream⟩⟩ := his
      · simp [hcreated] at hpc
      · exact ⟨.ready, ⟨rfl, hstream, .inl rfl⟩, .inl rfl, .inr rfl⟩
    | _ => simp_all [SinkIs]
  | ready =>
    refine ⟨.ready, ?_, .inr rfl, .inl rfl⟩
    cases h <;> simp_all [SinkIs]

/-- What a parser thread that moves becomes. -/
theorem ParserMove.advances (h : ParserMove config s p parser event parser')
    (his : ParserIs config parser status) :
    ∃ status', ParserIs config parser' status' ∧ Advances status status' := by
  cases status with
  | absent | armed => cases h <;> simp_all [ParserIs]
  | starting =>
    obtain ⟨hinit, hstarting⟩ := his
    cases h with
    | opened stream report hpc hstate hchannels =>
      exact ⟨.starting, ⟨hstate, .inr ⟨rfl, rfl, rfl⟩⟩, .inl rfl, .inl rfl⟩
    | reported hpc hreport hpush =>
      obtain ⟨-, -, hnone⟩ | ⟨hopened, hstream, -⟩ := hstarting
      · simp [hnone] at hreport
      · exact ⟨.starting, ⟨hinit, .inr ⟨hopened, hstream, rfl⟩⟩, .inl rfl, .inl rfl⟩
    | started handles hpc =>
      obtain ⟨hcreated, -⟩ | ⟨-, hstream, hreport⟩ := hstarting
      · simp [hcreated] at hpc
      · exact ⟨.ready, ⟨rfl, hstream, hreport, .loop rfl⟩, .inl rfl, .inr rfl⟩
    | _ => simp_all
  | ready =>
    obtain ⟨hrunning, hstream, hreport, hworks⟩ := his
    refine ⟨.ready, ?_, .inr rfl, .inl rfl⟩
    cases h with
    | opened | stopped => simp_all
    | reported hpc hqueue hpush =>
      refine ⟨hrunning, hstream, rfl, ?_⟩
      obtain hpc | hpc := hpc
      · cases hworks <;> simp_all
      · exact .loop hpc
    | started => exact ⟨rfl, hstream, hreport, .loop rfl⟩
    | popped => exact ⟨hrunning, rfl, hreport, .popped rfl⟩
    | unparsed | unknown | dropped => exact ⟨hrunning, hstream, hreport, .loop rfl⟩
    | parsed | offline | full => exact ⟨hrunning, hstream, hreport, .delivering rfl⟩
    | chosen hpc hlt => exact ⟨hrunning, hstream, hreport, .pushing rfl hlt⟩
    | drained | drainedAsEvent | drains | ended => cases hworks <;> simp_all

/-- What a source thread that moves becomes. -/
theorem SourceMove.advances (h : SourceMove config s i source event source')
    (his : SourceIs config source status) :
    ∃ status', SourceIs config source' status' ∧ Advances status status' := by
  cases status with
  | absent | armed => cases h <;> simp_all [SourceIs]
  | starting =>
    cases h with
    | opened hasHandle hpc hstate =>
      exact ⟨.starting, ⟨hstate, .inr rfl⟩, .inl rfl, .inl rfl⟩
    | started hpc => exact ⟨.ready, ⟨rfl, .loop rfl⟩, .inl rfl, .inr rfl⟩
    | _ => simp_all [SourceIs]
  | ready =>
    obtain ⟨hrunning, hworks⟩ := his
    refine ⟨.ready, ?_, .inr rfl, .inl rfl⟩
    cases h with
    | opened | stopped => simp_all
    | started => exact ⟨rfl, .loop rfl⟩
    | read | offline | full => exact ⟨hrunning, .delivering rfl⟩
    | chosen hpc hlt => exact ⟨hrunning, .pushing rfl hlt⟩
    | dropped => exact ⟨hrunning, .loop rfl⟩

end Status

section Allowed

/-- The order in which the kinds of workers are started. -/
def order : Role → ℕ
  | .sink => 0
  | .parser => 1
  | .source => 2

/-- How many workers of a kind the main thread has seen running while it starts others. -/
def seen (config : Config) (current : Role) (j : ℕ) (role : Role) : ℕ :=
  if order role < order current then count config role else if role = current then j else 0

/-- How many workers of a kind the main thread has seen running. -/
def confirmed (config : Config) : MainPc → Role → ℕ
  | .start current j | .create current j | .await current j => seen config current j
  | .reserve _ => seen config .source 0
  | _ => count config

/-- What a worker may be while the main thread is there. -/
def Allowed (config : Config) (main : MainPc) (role : Role) (i : ℕ) (status : Status) : Prop :=
  if i < confirmed config main role then status = .ready
  else if main = .create role i then status = .armed
  else if main = .await role i then status = .starting ∨ status = .ready
  else status = .absent

/-- The workers that the main thread starts are among those in use. -/
def InUse (config : Config) : MainPc → Prop
  | .start role i => i ≤ count config role
  | .create role i | .await role i => i < count config role
  | _ => True

/-- Every worker is what it may be. -/
structure StartUp (config : Config) (s : Pipeline) : Prop where
  inUse : InUse config s.main
  allowed (role : Role) (i : ℕ) : ∃ status, s.Is config status role i ∧
    Allowed config s.main role i status

/-- A worker that moves stays what it may be. -/
theorem Allowed.advances {before after : Status} (h : Allowed config main role i before)
    (hadvances : Advances before after) : Allowed config main role i after := by
  obtain ⟨hstarted, rfl | rfl⟩ := hadvances
  · exact h
  · unfold Allowed at h ⊢
    split
    next => rfl
    next hge =>
      rw [if_neg hge] at h
      split
      next hcreate => simp_all
      next hcreate =>
        rw [if_neg hcreate] at h
        split
        next => exact .inr rfl
        next hawait => simp_all

theorem startUp_init (config : Config) : StartUp config init where
  inUse := Nat.zero_le _
  allowed role i := by
    refine ⟨.absent, by cases role <;> simp [Is, SinkIs, ParserIs, SourceIs, init], ?_⟩
    cases role <;> simp [Allowed, init, confirmed, seen, order]

end Allowed

section Threads

variable {status : Status}

/-- A worker stays what it is or moves on. -/
def Keeps (before after : Status) : Prop := after = before ∨ Advances before after

/-- Whatever the worker was, it stays so or moves on. -/
def Retains (before after : Status → Prop) : Prop :=
  ∀ status, before status → ∃ status', after status' ∧ Keeps status status'

theorem Retains.of_imp {before after : Status → Prop} (h : ∀ status, before status → after status) :
    Retains before after :=
  fun status hbefore => ⟨status, h status hbefore, .inl rfl⟩

/-- A worker that moves on. -/
theorem Retains.of_advances {before after : Status → Prop}
    (h : ∀ {status}, before status → ∃ status', after status' ∧ Advances status status') :
    Retains before after := by
  intro status hbefore
  obtain ⟨status', hafter, hadvances⟩ := h hbefore
  exact ⟨status', hafter, .inr hadvances⟩

/-- Workers that stay what they are or move on keep the main thread right. -/
theorem StartUp.of_keeps (h : StartUp config s) (hmain : s'.main = s.main)
    (his : ∀ role i, Retains (s.Is config · role i) (s'.Is config · role i)) :
    StartUp config s' where
  inUse := hmain ▸ h.inUse
  allowed role i := by
    obtain ⟨status, hstatus, hallowed⟩ := h.allowed role i
    obtain ⟨status', hstatus', rfl | hadvances⟩ := his role i status hstatus
    · exact ⟨status', hstatus', hmain ▸ hallowed⟩
    · exact ⟨status', hstatus', hmain ▸ hallowed.advances hadvances⟩

/-- A sink that changes so. -/
theorem setSink_keeps (hsink : Retains (SinkIs (s.sinks k)) (SinkIs sink)) (role : Role) (i : ℕ) :
    Retains (s.Is config · role i) ((s.setSink k sink).Is config · role i) := by
  intro status his
  cases role with
  | sink =>
    by_cases hi : i = k
    · subst hi
      simpa [Is, setSink] using hsink status his
    · exact ⟨status, by simpa [Is, setSink, hi] using his, .inl rfl⟩
  | parser | source => exact ⟨status, his, .inl rfl⟩

/-- A parser that changes so. -/
theorem setParser_keeps (hparser : Retains (ParserIs config (s.parsers p)) (ParserIs config parser))
    (role : Role) (i : ℕ) :
    Retains (s.Is config · role i) ((s.setParser p parser).Is config · role i) := by
  intro status his
  cases role with
  | parser =>
    by_cases hi : i = p
    · subst hi
      simpa [Is, setParser] using hparser status his
    · exact ⟨status, by simpa [Is, setParser, hi] using his, .inl rfl⟩
  | sink | source => exact ⟨status, his, .inl rfl⟩

/-- A source that changes so. -/
theorem setSource_keeps {j : ℕ}
    (hsource : Retains (SourceIs config (s.sources j)) (SourceIs config source)) (role : Role)
    (i : ℕ) : Retains (s.Is config · role i) ((s.setSource j source).Is config · role i) := by
  intro status his
  cases role with
  | source =>
    by_cases hi : i = j
    · subst hi
      simpa [Is, setSource] using hsource status his
    · exact ⟨status, by simpa [Is, setSource, hi] using his, .inl rfl⟩
  | sink | parser => exact ⟨status, his, .inl rfl⟩

/-- The stream channel of a sink changes its contents. -/
theorem sinkIs_stream {queue : List Record} (hstream : sink.stream = some queue)
    (queue' : List Record) (h : SinkIs sink status) :
    SinkIs { sink with stream := some queue' } status := by
  cases status <;> simp_all [SinkIs]

/-- The channels and the parsers of a parser thread change, not its place. -/
theorem parserIs_contents (hstate : parser'.state = parser.state) (hpc : parser'.pc = parser.pc)
    (hoffset : parser'.offset = parser.offset)
    (hstream : parser'.stream.isSome = parser.stream.isSome)
    (hreport : parser'.report.isSome = parser.report.isSome) (h : ParserIs config parser status) :
    ParserIs config parser' status := by
  have hworks : ParserWorks config parser → ParserWorks config parser' := by
    intro hworks
    cases hworks with
    | loop h => exact .loop (hpc.trans h)
    | popped h => exact .popped (hpc.trans h)
    | delivering h => exact .delivering (hpc.trans h)
    | pushing h hlt => exact .pushing (hpc.trans h) (hoffset ▸ hlt)
  have hnone : ∀ {α : Type} {a b : Option α}, a.isSome = b.isSome → (a = none ↔ b = none) := by
    intro α a b hsome
    rw [← Option.not_isSome_iff_eq_none, ← Option.not_isSome_iff_eq_none, hsome]
  cases status with
  | absent | armed =>
    exact ⟨hstate.trans h.1, hpc.trans h.2.1, (hnone hstream).mpr h.2.2.1,
      (hnone hreport).mpr h.2.2.2⟩
  | starting =>
    refine ⟨hstate.trans h.1, h.2.imp (fun hcreated => ?_) fun hopened => ?_⟩
    · exact ⟨hpc.trans hcreated.1, (hnone hstream).mpr hcreated.2.1,
        (hnone hreport).mpr hcreated.2.2⟩
    · exact ⟨hpc.trans hopened.1, hstream.trans hopened.2.1, hreport.trans hopened.2.2⟩
  | ready =>
    exact ⟨hstate.trans h.1, hstream.trans h.2.1, hreport.trans h.2.2.1, hworks h.2.2.2⟩

/-- A parser whose contents change. -/
theorem setParser_contents (hstate : parser.state = (s.parsers p).state)
    (hpc : parser.pc = (s.parsers p).pc) (hoffset : parser.offset = (s.parsers p).offset)
    (hstream : parser.stream.isSome = (s.parsers p).stream.isSome)
    (hreport : parser.report.isSome = (s.parsers p).report.isSome) (role : Role) (i : ℕ) :
    Retains (s.Is config · role i) ((s.setParser p parser).Is config · role i) :=
  setParser_keeps (.of_imp fun _ => parserIs_contents hstate hpc hoffset hstream hreport) role i

theorem StartUp.of_sink (h : StartUp config s) (hmove : SinkMove config k (s.sinks k) event sink) :
    StartUp config (s.setSink k sink) :=
  h.of_keeps rfl (setSink_keeps (.of_advances hmove.advances))

/-- The steps of a parser thread in its own context. -/
theorem StartUp.of_parser (h : StartUp config s)
    (hmove : ParserMove config s p (s.parsers p) event parser) :
    StartUp config (s.setParser p parser) :=
  h.of_keeps rfl (setParser_keeps (.of_advances hmove.advances))

/-- The steps of a source thread in its own context. -/
theorem StartUp.of_source (h : StartUp config s)
    (hmove : SourceMove config s i (s.sources i) event source) :
    StartUp config (s.setSource i source) :=
  h.of_keeps rfl (setSource_keeps (.of_advances hmove.advances))

/-- A thread that pushes is ready and stays so. -/
theorem parserIs_pushed (hpc : parser.pc = .pushing record) (h : ParserIs config parser status) :
    ParserIs config { parser with pc := .loop } status := by
  cases status with
  | ready => exact ⟨h.1, h.2.1, h.2.2.1, .loop rfl⟩
  | _ => simp_all [ParserIs]

/-- A source that pushes is ready and stays so. -/
theorem sourceIs_pushed (hpc : source.pc = .pushing record) (h : SourceIs config source status) :
    SourceIs config { source with pc := .loop } status := by
  cases status with
  | ready => exact ⟨h.1, .loop rfl⟩
  | _ => simp_all [SourceIs]

/-- A parser pushes to a sink. -/
theorem StartUp.forwards (h : StartUp config s) (hmove : Forwards s p event s') :
    StartUp config s' := by
  obtain @⟨record, queue, queue', hpc, hstream, hpush⟩ := hmove
  have hpushed : StartUp config (s.setSink (s.parsers p).offset
      { s.sinks (s.parsers p).offset with stream := some queue' }) :=
    h.of_keeps rfl (setSink_keeps (.of_imp fun _ => sinkIs_stream hstream queue'))
  exact hpushed.of_keeps rfl (setParser_keeps (.of_imp fun _ => parserIs_pushed hpc))

/-- A source pushes to a parser. -/
theorem StartUp.routes (h : StartUp config s) (hmove : Routes s i event s') :
    StartUp config s' := by
  obtain @⟨record, queue, queue', hpc, hstream, hpush⟩ := hmove
  have hpushed : StartUp config (s.setParser (s.sources i).offset
      { s.parsers (s.sources i).offset with stream := some queue' }) :=
    h.of_keeps rfl <| setParser_contents rfl rfl rfl (by rw [hstream]; rfl) rfl
  exact hpushed.of_keeps rfl (setSource_keeps (.of_imp fun _ => sourceIs_pushed hpc))

end Threads

section Main

variable {current : Role} {j : ℕ} {status : Status}

/-- Of the current kind, the workers before the current one are confirmed. -/
theorem seen_self (config : Config) (current : Role) (j : ℕ) :
    seen config current j current = j := by
  simp [seen]

theorem not_lt_seen (config : Config) (current : Role) (j : ℕ) :
    ¬ j < seen config current j current := by
  simp [seen_self]

/-- The main thread works on one worker at a time. -/
theorem ne_of_other (hne : ¬ (role = current ∧ i = j)) :
    MainPc.create current j ≠ .create role i ∧ MainPc.await current j ≠ .await role i := by
  constructor <;> rintro ⟨⟩ <;> exact hne ⟨rfl, rfl⟩

/-- Storing the state of a worker leaves the others. -/
theorem storeInit_is (hne : ¬ (role = current ∧ i = j)) (his : s.Is config status role i) :
    Is config { s.storeInit current j with main := main } status role i := by
  cases role <;> cases current <;>
    simp_all [Is, storeInit, setSink, setParser, setSource]

/-- A worker whose state is stored before its thread exists. -/
theorem storeInit_armed (his : s.Is config .absent current j) :
    Is config { s.storeInit current j with main := main } .armed current j := by
  cases current <;>
    simp_all [Is, SinkIs, ParserIs, SourceIs, storeInit, setSink, setParser, setSource]

/-- Creating a thread leaves the other workers. -/
theorem createThread_is (hne : ¬ (role = current ∧ i = j)) (his : s.Is config status role i) :
    Is config { s.createThread current j with main := main } status role i := by
  cases role <;> cases current <;>
    simp_all [Is, createThread, setSink, setParser, setSource]

/-- A worker whose thread is created. -/
theorem createThread_starting (his : s.Is config .armed current j) :
    Is config { s.createThread current j with main := main } .starting current j := by
  cases current <;>
    simp_all [Is, SinkIs, ParserIs, SourceIs, createThread, setSink, setParser, setSource]

/-- A worker that is not ready does not say that it runs. -/
theorem ready_of_running (hstate : s.state role i = .running) (his : s.Is config status role i) :
    status = .ready := by
  cases role <;> cases status <;> simp_all [Is, SinkIs, ParserIs, SourceIs, state]

/-- Once all workers of a kind run, the main thread has seen as many as before. -/
theorem confirmed_afterRole (hj : j = count config current) :
    confirmed config (afterRole current) = seen config current j := by
  subst hj
  funext role
  cases current <;> cases role <;> simp [confirmed, afterRole, seen, order]

/-- The main thread goes on without a change to the workers. -/
theorem StartUp.goes (h : StartUp config s)
    (hconfirmed : confirmed config main = confirmed config s.main)
    (hmain : ∀ role i, main ≠ .create role i ∧ main ≠ .await role i)
    (hfrom : ∀ role i, s.main ≠ .create role i ∧ s.main ≠ .await role i)
    (hinUse : InUse config main) : StartUp config { s with main := main } where
  inUse := hinUse
  allowed role i := by
    obtain ⟨status, his, hallowed⟩ := h.allowed role i
    refine ⟨status, by cases role <;> exact his, ?_⟩
    unfold Allowed at hallowed ⊢
    rw [if_neg (hfrom role i).1, if_neg (hfrom role i).2] at hallowed
    rw [if_neg (hmain role i).1, if_neg (hmain role i).2, hconfirmed]
    exact hallowed

/-- The steps of `CreateWorker`. -/
theorem StartUp.start (h : StartUp config s) (hmove : StartMove config s s') :
    StartUp config s' := by
  cases hmove with
  | @stored current j hmain hlt =>
    refine ⟨hlt, fun role i => ?_⟩
    obtain ⟨status, his, hallowed⟩ := h.allowed role i
    by_cases hcurrent : role = current ∧ i = j
    · obtain ⟨rfl, rfl⟩ := hcurrent
      have habsent : status = .absent := by
        simpa [Allowed, hmain, confirmed, not_lt_seen] using hallowed
      subst habsent
      exact ⟨.armed, storeInit_armed his, by simp [Allowed, confirmed, not_lt_seen]⟩
    · refine ⟨status, storeInit_is hcurrent his, ?_⟩
      simpa [Allowed, hmain, confirmed, (ne_of_other hcurrent).1] using hallowed
  | @allStarted current j hmain hge =>
    have hj : j = count config current := le_antisymm (by simpa [InUse, hmain] using h.inUse) hge
    apply h.goes
    · rw [confirmed_afterRole hj, hmain]
      rfl
    · intro role i
      cases current <;> simp [afterRole]
    · simp [hmain]
    · cases current <;> simp [afterRole, InUse]
  | @created current j hmain =>
    refine ⟨by simpa [InUse, hmain] using h.inUse, fun role i => ?_⟩
    obtain ⟨status, his, hallowed⟩ := h.allowed role i
    by_cases hcurrent : role = current ∧ i = j
    · obtain ⟨rfl, rfl⟩ := hcurrent
      have harmed : status = .armed := by
        simpa [Allowed, hmain, confirmed, not_lt_seen] using hallowed
      subst harmed
      exact ⟨.starting, createThread_starting his, by simp [Allowed, confirmed, not_lt_seen]⟩
    · refine ⟨status, createThread_is hcurrent his, ?_⟩
      obtain ⟨hcreate, hawait⟩ := ne_of_other hcurrent
      simpa [Allowed, hmain, confirmed, hcreate, hawait] using hallowed
  | @sawRunning current j hmain hstate =>
    have hlt : j < count config current := by simpa [InUse, hmain] using h.inUse
    refine ⟨hlt, fun role i => ?_⟩
    obtain ⟨status, his, hallowed⟩ := h.allowed role i
    refine ⟨status, by cases role <;> exact his, ?_⟩
    by_cases hcurrent : role = current ∧ i = j
    · obtain ⟨rfl, rfl⟩ := hcurrent
      obtain rfl := ready_of_running hstate his
      simp [Allowed, confirmed, seen_self]
    · have hawait := (ne_of_other hcurrent).2
      have hseen : i < seen config current (j + 1) role ↔ i < seen config current j role := by
        unfold seen
        split
        next => rfl
        next =>
          split
          next hrole =>
            have : i ≠ j := fun hij => hcurrent ⟨hrole, hij⟩
            omega
          next => rfl
      simpa [Allowed, hmain, confirmed, hawait, hseen] using hallowed
  | reserved hmain =>
    apply h.goes
    · rw [hmain]
      rfl
    · simp
    · simp [hmain]
    · trivial
  | allReserved hmain =>
    apply h.goes
    · rw [hmain]
      rfl
    · simp
    · simp [hmain]
    · exact Nat.zero_le _

/-- Past `CreateWorker` everybody is confirmed. -/
theorem Serving.confirmed (h : Serving main) : confirmed config main = count config := by
  cases main <;> first | rfl | exact h.elim

/-- Past `CreateWorker` nobody is started. -/
theorem Serving.ne (h : Serving main) (role : Role) (i : ℕ) :
    main ≠ .create role i ∧ main ≠ .await role i := by
  cases main <;> simp_all [Serving]

theorem Serving.inUse (h : Serving main) : InUse config main := by
  cases main <;> simp_all [Serving, InUse]

/-- The main thread goes on past `CreateWorker`. -/
theorem StartUp.serves (h : StartUp config s) (hfrom : Serving s.main) (hto : Serving main) :
    StartUp config { s with main := main } :=
  h.goes (hto.confirmed.trans hfrom.confirmed.symm) hto.ne hfrom.ne hto.inUse

/-- The main thread handles events past `CreateWorker`. -/
theorem serving_of_handles (h : main.handles = true) : Serving main := by
  cases main <;> simp_all [MainPc.handles, Serving]

/-- The steps of the main thread past `CreateWorker`. -/
theorem StartUp.serve (h : StartUp config s) (hmove : ServeMove config s event s') :
    StartUp config s' := by
  cases hmove with
  | goes hfrom hto => exact h.serves hfrom (serving_of_handles hto)
  | @updated i handles hmain =>
    have hupdated : StartUp config (s.setParser i { s.parsers i with handles := handles }) :=
      h.of_keeps rfl (setParser_contents rfl rfl rfl rfl rfl)
    exact hupdated.serves (show Serving s.main by rw [hmain]; trivial) trivial
  | @alarmed i queue queue' e hmain hreport hpush =>
    have hpushed : StartUp config (s.setParser i { s.parsers i with report := some queue' }) :=
      h.of_keeps rfl (setParser_contents rfl rfl rfl rfl (by rw [hreport]; rfl))
    exact hpushed.serves (show Serving s.main by rw [hmain]; trivial) trivial
  | sent hfrom hreport =>
    exact h.of_keeps rfl (setParser_contents rfl rfl rfl rfl (by rw [hreport]; rfl))

/-- Threads that race leave a channel that was there. -/
theorem StartUp.raced {race : Race} (h : StartUp config s) (hrace : s.Contended config race) :
    StartUp config (s.disturb race) := by
  cases race with
  | parserStream p queue =>
    exact h.of_keeps rfl (setParser_contents rfl rfl rfl hrace.2.symm rfl)
  | sinkStream k queue =>
    obtain ⟨queue', hstream⟩ := Option.isSome_iff_exists.mp hrace.2
    exact h.of_keeps rfl (setSink_keeps (.of_imp fun _ => sinkIs_stream hstream queue))
  | report queue => exact h.of_keeps rfl (setParser_contents rfl rfl rfl rfl hrace.2.symm)

end Main

section Run

variable {status : Status}

/-- Why a process in this state may have ended: what it needs from outside is missing, the
constructor of a channel refuses the configured size, a metrics event came before the alarms of the
start were sent, threads race, or `main` has returned. -/
def Expected (config : Config) (s : Pipeline) : Crash → Prop
  | .badChannel fault => (sinkChannel config.sink fun _ => ()) = .error fault ∨
      (parserChannels config.parser fun _ => ()) = .error fault
  | .notAlarm => s.main = .drain
  | .raced => s.Racing config
  | .destroyed => s.main = .exited
  | crash => Outside crash

/-- A worker is one thing at a time. -/
theorem is_unique {status' : Status} (his : s.Is config status role i)
    (his' : s.Is config status' role i) : status = status' := by
  cases role <;> cases status <;> cases status' <;>
    first
    | rfl
    | simp_all [Is, SinkIs, ParserIs, SourceIs]

/-- A worker that has a thread is confirmed, or the one that the main thread waits for. -/
theorem StartUp.confirmed_or_await (h : StartUp config s) (his : s.Is config status role i)
    (hstatus : status = .starting ∨ status = .ready) :
    i < confirmed config s.main role ∨ s.main = .await role i := by
  obtain ⟨status', his', hallowed⟩ := h.allowed role i
  obtain rfl := is_unique his his'
  unfold Allowed at hallowed
  split at hallowed
  next hlt => exact .inl hlt
  next =>
    split at hallowed
    next => simp_all
    next =>
      split at hallowed
      next hawait => exact .inr hawait
      next => simp_all

/-- A confirmed worker is ready. -/
theorem StartUp.ready (h : StartUp config s) (hlt : i < confirmed config s.main role) :
    s.Is config .ready role i := by
  obtain ⟨status, his, hallowed⟩ := h.allowed role i
  rw [Allowed, if_pos hlt] at hallowed
  exact hallowed ▸ his

/-- While a worker has a thread, the kinds before it are confirmed. -/
theorem StartUp.confirmed_before (h : StartUp config s) (his : s.Is config status role i)
    (hstatus : status = .starting ∨ status = .ready) {before : Role}
    (hbefore : order before < order role) :
    confirmed config s.main before = count config before := by
  -- the place of the main thread is at this kind or behind it
  have hseen : ∀ current j, i < seen config current j role ∨ role = current →
      seen config current j before = count config before := by
    intro current j hcurrent
    have hle : order role ≤ order current := by
      obtain hlt | rfl := hcurrent
      · unfold seen at hlt
        split at hlt
        next hlow => exact hlow.le
        next =>
          split at hlt
          next hrole => rw [hrole]
          next => exact absurd hlt (Nat.not_lt_zero i)
      · exact le_rfl
    exact if_pos (hbefore.trans_le hle)
  have hplace := h.confirmed_or_await his hstatus
  cases hmain : s.main with
  | start current j | create current j | await current j =>
    rw [hmain] at hplace
    exact hseen current j (hplace.imp_right fun hawait => by cases hawait <;> rfl)
  | reserve j =>
    rw [hmain] at hplace
    exact hseen .source 0 (hplace.imp_right fun hawait => by cases hawait)
  | _ => rfl

/-- The threads that a started thread hands its records to are ready. -/
theorem StartUp.downstream (h : StartUp config s) (his : s.Is config status role i)
    (hstatus : status = .starting ∨ status = .ready) (before : Role)
    (hbefore : order before < order role) {j : ℕ} (hj : j < count config before) :
    s.Is config .ready before j :=
  h.ready (h.confirmed_before his hstatus hbefore ▸ hj)

/-- At least one context of each kind is used, and no more than the arrays have. -/
theorem count_bounds (config : Config) (role : Role) :
    0 < count config role ∧ count config role ≤ oakThreadMax := by
  have hclamp (n : ℤ) : 0 < numContext n ∧ numContext n ≤ oakThreadMax := by
    unfold numContext
    split
    next => decide
    next =>
      split
      next => decide
      next => omega
  cases role <;> exact hclamp _

/-- A sink thread ends the process only for an expected reason. -/
theorem StartUp.sinkCrash (h : StartUp config s) (hcrash : SinkCrash config (s.sinks k) crash) :
    Expected config s crash := by
  obtain ⟨status, his, -⟩ := h.allowed .sink k
  cases hcrash with
  | notInit | nullChannel => cases status <;> simp_all [Is, SinkIs]
  | badChannel hpc hstream => exact .inl hstream

/-- A parser that pushes finds the sink ready. -/
theorem StartUp.sink_of_pushing (h : StartUp config s) (hpc : (s.parsers p).pc = .pushing record) :
    SinkIs (s.sinks (s.parsers p).offset) .ready := by
  obtain ⟨status, his, -⟩ := h.allowed .parser p
  cases status with
  | absent | armed | starting => simp_all [Is, ParserIs]
  | ready =>
    obtain ⟨-, -, -, hworks⟩ := id his
    cases hworks with
    | pushing _ hlt => exact h.downstream his (.inr rfl) .sink (by decide) hlt
    | _ => simp_all

/-- A parser thread ends the process only for an expected reason. -/
theorem StartUp.parserCrash (h : StartUp config s) (hcrash : ParserCrash config s p crash) :
    Expected config s crash := by
  obtain ⟨status, his, -⟩ := h.allowed .parser p
  cases hcrash with
  | notInit hpc hstate =>
    cases status with
    | ready =>
      obtain ⟨-, -, -, hworks⟩ := his
      cases hworks <;> simp_all
    | _ => simp_all [Is, ParserIs]
  | badChannel hpc hstream => exact .inr hstream
  | nullReport | nullStream => cases status <;> simp_all [Is, ParserIs]
  | outOfBounds hlt hge => exact absurd (hge.trans_lt hlt) (count_bounds config .sink).2.not_gt
  | nullSink hpc hstream =>
    have hready := (h.sink_of_pushing hpc).2.1
    simp [hstream] at hready

/-- A source that pushes finds the parser ready. -/
theorem StartUp.parser_of_pushing {record : Record} (h : StartUp config s)
    (hpc : (s.sources i).pc = .pushing record) :
    ParserIs config (s.parsers (s.sources i).offset) .ready := by
  obtain ⟨status, his, -⟩ := h.allowed .source i
  cases status with
  | absent | armed | starting => simp_all [Is, SourceIs]
  | ready =>
    obtain ⟨-, hworks⟩ := id his
    cases hworks with
    | pushing _ hlt => exact h.downstream his (.inr rfl) .parser (by decide) hlt
    | _ => simp_all

/-- A source thread ends the process only for an expected reason. -/
theorem StartUp.sourceCrash (h : StartUp config s) (hcrash : SourceCrash config s i crash) :
    Expected config s crash := by
  obtain ⟨status, his, -⟩ := h.allowed .source i
  cases hcrash with
  | notInit hpc hstate =>
    cases status with
    | ready =>
      obtain ⟨-, hworks⟩ := his
      cases hworks <;> simp_all
    | _ => simp_all [Is, SourceIs]
  | outOfBounds hlt hge => exact absurd (hge.trans_lt hlt) (count_bounds config .parser).2.not_gt
  | nullParser hpc hstream =>
    have hready := (h.parser_of_pushing hpc).2.1
    simp [hstream] at hready

/-- The main thread ends the process only for an expected reason. -/
theorem StartUp.mainCrash (h : StartUp config s) (hcrash : MainCrash config s crash) :
    Expected config s crash := by
  have hreport : ∀ i, Serving s.main → i < count config .parser →
      (s.parsers i).report.isSome := by
    intro i hserving hlt
    rw [← hserving.confirmed] at hlt
    exact (h.ready hlt).2.2.1
  cases hcrash with
  | nullDrain hmain hnull =>
    have hsome := hreport 0 (by rw [hmain]; trivial) (count_bounds config .parser).1
    simp [hnull] at hsome
  | nullUpdate hmain hlt hnull | nullSend hmain hlt hnull =>
    have hsome := hreport _ (by rw [hmain]; trivial) hlt
    simp [hnull] at hsome
  | notAlarm hmain _ _ => exact hmain

/-- The process ends only for an expected reason. -/
theorem StartUp.expected (h : StartUp config s) (hcrash : Crashes config s crash) :
    Expected config s crash := by
  cases hcrash with
  | outside houtside => cases crash <;> first | exact houtside | exact houtside.elim
  | raced hracing => exact hracing
  | destroyed hmain => exact hmain
  | main hmain => exact h.mainCrash hmain
  | sink k hsink => exact h.sinkCrash hsink
  | parser p hparser => exact h.parserCrash hparser
  | source i hsource => exact h.sourceCrash hsource

/-- A step that is no crash leaves the process alive. -/
theorem Move.crash_eq (hmove : Move config s event s') :
    s'.crash = s.crash ∨ ∃ crash, Crashes config s crash ∧ s' = { s with crash := some crash } := by
  cases hmove with
  | idle | sink | parser | source => exact .inl rfl
  | crash h => exact .inr ⟨_, h, rfl⟩
  | @raced race _ => cases race <;> exact .inl rfl
  | start h =>
    left
    cases h with
    | @stored role | @created role => cases role <;> rfl
    | _ => rfl
  | serve h =>
    left
    cases h <;> rfl
  | forwards p h | routes i h =>
    left
    cases h
    rfl

/-- The workers are what they may be, unless the process has ended for an expected reason. -/
structure Sound (config : Config) (s : Pipeline) : Prop where
  expected {crash : Crash} : s.crash = some crash → Expected config s crash
  startUp : s.crash = none → StartUp config s

/-- Every step keeps the workers what they may be. -/
theorem Move.sound (halive : s.crash = none) (h : StartUp config s)
    (hmove : Move config s event s') : Sound config s' := by
  obtain hcrash | ⟨crash, hcause, rfl⟩ := hmove.crash_eq
  · have hstartUp : s'.crash = none → StartUp config s' := by
      intro halive'
      cases hmove with
      | idle => exact h
      | crash hcause => cases halive'
      | raced hrace => exact h.raced hrace
      | start hmove => exact h.start hmove
      | serve hmove => exact h.serve hmove
      | sink k hmove => exact h.of_sink hmove
      | parser p hmove => exact h.of_parser hmove
      | forwards p hmove => exact h.forwards hmove
      | source i hmove => exact h.of_source hmove
      | routes i hmove => exact h.routes hmove
    refine ⟨fun hsome => ?_, hstartUp⟩
    rw [hcrash, halive] at hsome
    cases hsome
  · refine ⟨fun hsome => ?_, fun hnone => by cases hnone⟩
    cases hsome
    have hexpected := h.expected hcause
    cases crash <;> exact hexpected

/-- In every reachable state the workers are what they may be. -/
theorem sound_of_run (hrun : Run (Step config) init labels s) : Sound config s := by
  refine hrun.invariant (I := fun _ s => Sound config s)
    ⟨fun hsome => (by cases hsome), fun _ => startUp_init config⟩ ?_
  intro labels s event s' hsound hstep
  obtain ⟨halive, hmove⟩ := hstep.move
  exact hmove.sound halive (hsound.startUp halive)

/-- What every step of a started process preserves holds in every reachable state. -/
theorem run_invariant {I : List PipelineEvent → Pipeline → Prop} (hinit : I [] init)
    (hstep : ∀ labels s event s', StartUp config s → I labels s → Move config s event s' →
      I (labels ++ [event]) s') (hrun : Run (Step config) init labels s) : I labels s := by
  induction hrun with
  | nil => exact hinit
  | snoc hrun hlast ih =>
    obtain ⟨halive, hmove⟩ := hlast.move
    exact hstep _ _ _ _ ((sound_of_run hrun).startUp halive) ih hmove

/-- What a step shows is neither a thread that leaves its loop nor one that is found offline. -/
def Steady (event : PipelineEvent) : Prop :=
  ∀ role i target, event ≠ .offline role i target ∧ event ≠ .left role i

/-- A sink thread does not leave its loop. -/
theorem StartUp.steady_sink (h : StartUp config s)
    (hmove : SinkMove config k (s.sinks k) event sink) : Steady event := by
  cases hmove with
  | stopped hpc hstate =>
    obtain ⟨status, his, -⟩ := h.allowed .sink k
    cases status <;> simp_all [Is, SinkIs]
  | _ => simp [Steady]

/-- A parser thread does not leave its loop, and finds the sinks running. -/
theorem StartUp.steady_parser (h : StartUp config s)
    (hmove : ParserMove config s p (s.parsers p) event parser) : Steady event := by
  obtain ⟨status, his, -⟩ := h.allowed .parser p
  cases hmove with
  | stopped hpc hstate => cases status <;> simp_all [Is, ParserIs]
  | offline hpc hlt hstate =>
    cases status with
    | ready =>
      have hready := h.downstream his (.inr rfl) .sink (by decide) hlt
      exact absurd hready.1 hstate
    | _ => simp_all [Is, ParserIs]
  | _ => simp [Steady]

/-- A source thread does not leave its loop, and finds the parsers running. -/
theorem StartUp.steady_source (h : StartUp config s)
    (hmove : SourceMove config s i (s.sources i) event source) : Steady event := by
  obtain ⟨status, his, -⟩ := h.allowed .source i
  cases hmove with
  | stopped hpc hstate => cases status <;> simp_all [Is, SourceIs]
  | offline hpc hlt hstate =>
    cases status with
    | ready =>
      have hready := h.downstream his (.inr rfl) .parser (by decide) hlt
      exact absurd hready.1 hstate
    | _ => simp_all [Is, SourceIs]
  | _ => simp [Steady]

/-- A thread that has started finds the one behind it running, and none leaves its loop. -/
theorem StartUp.steady (h : StartUp config s) (hmove : Move config s event s') : Steady event := by
  cases hmove with
  | idle | crash hcause | raced hrace | start hmove => simp [Steady]
  | serve hmove => cases hmove <;> simp [Steady]
  | sink k hmove => exact h.steady_sink hmove
  | parser p hmove => exact h.steady_parser hmove
  | forwards p hmove | routes i hmove =>
    cases hmove
    simp [Steady]
  | source i hmove => exact h.steady_source hmove

/-- The main thread goes on; a core is there and nothing else happens. -/
def goOn : Action :=
  .main { core := true, event := false, readable := true, handles := [], alarm := none,
          writable := true, stop := false }

/-- A parser thread goes on, with this protocol type among its parsers and one field parsed. -/
def parseOn (protocolType : UInt64) : Action :=
  .parser 0 { handles := [protocolType], event := none, res := 0, fieldsSize := 1 }

/-- A source thread goes on, and reads a record of this protocol type, if there is one. -/
def readOn (protocolType : Option UInt64) : Action :=
  .source 0 { opened := none, read := protocolType }

/-- A process with one thread of each kind starts. -/
def startsUp : List Action :=
  [goOn, goOn, .sink 0 { opened := some 1 }, .sink 0 { opened := none }, goOn, goOn, goOn, goOn,
    parseOn 7, parseOn 7, goOn, goOn, goOn, goOn, goOn, goOn,
    .source 0 { opened := some true, read := none }, readOn none, goOn, goOn, goOn]

/-- A record of a known protocol goes through the process. -/
def oneRecord : List Action :=
  [readOn (some 7), readOn none, readOn none, parseOn 7, parseOn 7, parseOn 7, parseOn 7] ++
    List.replicate 3 (.sink 0 { opened := none })

/-- However the threads interleave, no thread finds the one it hands a record to offline, and none
leaves its loop. -/
theorem pipeline_steady {labels : List PipelineEvent} (hrun : Run (Step config) init labels s) :
    ∀ event ∈ labels, ∀ role i target,
      event ≠ .offline role i target ∧ event ≠ .left role i := by
  have hall : Sound config s ∧ ∀ event ∈ labels, Steady event := by
    refine hrun.invariant (I := fun labels s => Sound config s ∧ ∀ event ∈ labels, Steady event)
      ⟨sound_of_run .nil, by simp⟩ ?_
    rintro labels s event s' ⟨hsound, hsteady⟩ hstep
    obtain ⟨halive, hmove⟩ := hstep.move
    have hstartUp := hsound.startUp halive
    refine ⟨hmove.sound halive hstartUp, ?_⟩
    rw [List.forall_mem_append, List.forall_mem_singleton]
    exact ⟨hsteady, hstartUp.steady hmove⟩
  exact hall.2

/-- The process starts with the default configuration, handles a record, and no thread is found
offline. -/
theorem pipeline_steady_default :
    ∃ labels s, Run (Step {}) init labels s ∧ .forwarded 0 0 ⟨0, 0, 7, some 0⟩ ∈ labels ∧
      ∀ event ∈ labels, ∀ role i target,
        event ≠ .offline role i target ∧ event ≠ .left role i := by
  have hexec : (exec (next {}) init (startsUp ++ oneRecord)).map (fun result =>
      decide (.forwarded 0 0 ⟨0, 0, 7, some 0⟩ ∈ result.1)) = some true := by
    decide +kernel
  obtain ⟨labels, s, hrun, hdone⟩ := exists_run_of_exec hexec
  exact ⟨labels, s, hrun, of_decide_eq_true hdone, pipeline_steady hrun⟩

end Run

end Pipeline

end Demos.Oak
