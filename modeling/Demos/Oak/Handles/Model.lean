import Demos.Lib.Ledger
import Demos.Lib.Run
import Demos.Oak.Worker.Model

/-!
# Parser handles shared between threads

While the parser threads use the handles of their contexts, the main thread replaces and removes
them in `HandleInputEvent`. Both take the lock of the context; each statement under the lock is a
step of its own, and the steps of all threads interleave in any order. A parser thread also looks at
`handles.empty()` and writes to the tags in `ReportMetrics` without the lock.

A handle is an object that the factory allocates when a module opens. The destructor closes it. What
arrives from outside, how the loader answers, the records, the results of parsing and the order in
which a hash map is walked are inputs of a step. A change of the tags while `ReportMetrics` walks
through them leaves it with an invalid iterator, and ends the process here.
-/

namespace Demos.Oak

open Demos.Lib

/-- Who takes a lock. -/
inductive Owner where
  | main
  | parser (p : ℕ)
deriving DecidableEq, Repr

/-- What the main thread does to every context. -/
inductive Job where
  | install (module : ModuleConfig)
  | remove (module : ModuleConfig)
  | clear

/-- Where the main thread is in `HandleInputEvent`: before the lock of a context, under it, and
behind the loop over the contexts. -/
inductive UpdatePc where
  | idle
  | next (event : IncomingEvent) (job : Job) (i : ℕ)
  | inside (event : IncomingEvent) (job : Job) (i : ℕ)
  | alarming (event : IncomingEvent) (module : ModuleConfig) (tag : ProtocolTag) (i : ℕ)
  | opened (event : IncomingEvent) (module : ModuleConfig) (tag : ProtocolTag) (object i : ℕ)
  | tagged (event : IncomingEvent) (module : ModuleConfig) (tag : ProtocolTag) (object i : ℕ)
  | erased (event : IncomingEvent) (job : Job) (i : ℕ)
  | leave (event : IncomingEvent) (job : Job) (i : ℕ) (success : Bool)
  | commit (event : IncomingEvent) (job : Job)

/-- Where a parser thread is in its loop: in `ReportMetrics`, before the stream channel, before the
lock and under it. -/
inductive UsePc where
  | loop
  | reporting (ids : List UInt64)
  | polling
  | popped (record : Metadata)
  | inside (record : Metadata)
  | found (record : Metadata) (object : ℕ)
  | parsed (record : Metadata) (res : ℤ)
  | leave

/-- The parser contexts with their locks, the handles on the heap, the configuration and the one
last written, and where the threads are. -/
structure Shared where
  main : UpdatePc
  parsers : ℕ → UsePc
  contexts : ℕ → ParserContext ℕ
  locks : ℕ → Option Owner
  objects : Lib.Ledger Unit
  config : Config
  written : Config
  fault : Bool

/-- What a step shows. -/
inductive HandleEvent where
  | silent
  | handled (event : Option IncomingEvent)
  | opened (object : ℕ)
  | parsed (p object : ℕ)
  | closed (object : ℕ)
  | faulted

/-- The answer of the loader with the object that is allocated. -/
def LoadOutcome.allocate (object : ℕ) : LoadOutcome Unit → LoadOutcome ℕ
  | .dlopenFailed => .dlopenFailed
  | .dlsymFailed => .dlsymFailed
  | .loaded flags version initResult _ => .loaded flags version initResult object

namespace Shared

/-- Change a context. -/
def setContext (s : Shared) (i : ℕ) (context : ParserContext ℕ) : Shared :=
  { s with contexts := Function.update s.contexts i context }

/-- A parser thread goes on. -/
def setParser (s : Shared) (p : ℕ) (pc : UsePc) : Shared :=
  { s with parsers := Function.update s.parsers p pc }

/-- Change the owner of a lock. -/
def setLock (s : Shared) (i : ℕ) (owner : Option Owner) : Shared :=
  { s with locks := Function.update s.locks i owner }

/-- The process ends. -/
def stopped (s : Shared) : HandleEvent × Shared := (.faulted, { s with fault := true })

/-- The destructor of a handle that is replaced or removed, if there is one. -/
def close (s : Shared) : Option ℕ → HandleEvent × Shared
  | none => (.silent, s)
  | some object => (.closed object, { s with objects := s.objects.destroy object })

/-- The configuration after a job is done on every context. -/
def commitJob (config : Config) : Job → Config
  | .install module => config.setParserModules (config.parser.modules.insert module.name module)
  | .remove module =>
    config.setParserModules (ModuleConfigDict.disable config.parser.modules module.name)
  | .clear => config.setParserModules (ModuleConfigDict.disableAll config.parser.modules)

/-- What a step of the main thread meets: the event that `Recv` returns, if it returns one, the
answer of the loader, the entry that `clear` destroys next, and whether the `Push` of an alarm has
to wait for one that the parser thread has begun before. -/
structure UpdateChoice where
  event : Option IncomingEvent
  load : LoadOutcome Unit
  id : UInt64
  waits : Bool := false

/-- The switch of `HandleInputEvent` on a parser event. -/
def dispatch (s : Shared) (dir : Bytes) (event : IncomingEvent) : HandleEvent × Shared :=
  match event.subtype with
  | .add | .update =>
    match eventToParserModuleConfig dir event with
    | .error _ => s.stopped
    | .ok module => (.silent, { s with main := .next event (.install module) 0 })
  | .remove =>
    match eventToParserModuleConfig dir event with
    | .error _ => s.stopped
    | .ok module => (.silent, { s with main := .next event (.remove module) 0 })
  | .clear => (.silent, { s with main := .next event .clear 0 })
  | .unknown _ => (.handled (some event), s)

/-- The main thread opens a module in `UpdateParser`. -/
def openModule (s : Shared) (event : IncomingEvent) (module : ModuleConfig) (i : ℕ)
    (load : LoadOutcome Unit) : HandleEvent × Shared :=
  match protocolTag module.config with
  | .error _ => s.stopped
  | .ok tag =>
    match parserHandleFactory module (load.allocate s.objects.next) with
    | .error _ => s.stopped
    | .ok none => (.silent, { s with main := .alarming event module tag i })
    | .ok (some object) =>
      (.opened object, { s with
        objects := s.objects.create (), main := .opened event module tag object i })

/-- One step of the main thread under the lock of a context. -/
def underLock (s : Shared) (event : IncomingEvent) (job : Job) (i : ℕ) (choice : UpdateChoice) :
    Option (HandleEvent × Shared) :=
  let context := s.contexts i
  match job with
  | .install module => s.openModule event module i choice.load
  | .remove module =>
    { s.setContext i { context with handles := context.handles.erase module.id } with
      main := .erased event job i }.close context.handles[module.id]?
  | .clear =>
    match context.handles[choice.id]? with
    | some object =>
      (s.setContext i { context with handles := context.handles.erase choice.id }).close object
    | none =>
      if context.handles.isEmpty then some (.silent, { s with main := .erased event job i })
      else none

/-- The parser thread is at a tag in `ReportMetrics`. -/
def inReport : UsePc → Bool
  | .reporting (_ :: _) => true
  | _ => false

/-- The main thread changes the tags of a context, which the parser thread must not walk through. -/
def setTags (s : Shared) (i : ℕ) (tags : Std.ExtTreeMap UInt64 ProtocolTag) (main : UpdatePc) :
    HandleEvent × Shared :=
  match s.parsers i with
  | .reporting _ => s.stopped
  | _ => (.silent, { s.setContext i { s.contexts i with tags := tags } with main := main })

/-- One step of `HandleInputEvent`, for `n` contexts. -/
def mainNext (dir : Bytes) (n : ℕ) (s : Shared) (choice : UpdateChoice) :
    Option (HandleEvent × Shared) :=
  match s.main with
  | .idle =>
    match choice.event with
    | none => some (.handled none, s)
    | some event =>
      if event.type = .parser then s.dispatch dir event else some (.handled (some event), s)
  | .next event job i =>
    if i < n then
      if s.locks i = none then
        some (.silent, { s.setLock i (some .main) with main := .inside event job i })
      else none
    else some (.silent, { s with main := .commit event job })
  | .inside event job i => s.underLock event job i choice
  | .alarming event module tag i =>
    -- only the first context reports
    if choice.waits ∧ (s.contexts i).id = 0 ∧ inReport (s.parsers i) then some (.silent, s)
    else some (.silent, { s.setContext i ((s.contexts i).openFailed module tag) with
      main := .leave event (.install module) i false })
  | .opened event module tag object i =>
    s.setTags i ((s.contexts i).tags.insert module.id tag) (.tagged event module tag object i)
  | .tagged event module _ object i =>
    let context := s.contexts i
    { s.setContext i { context with handles := context.handles.insert module.id object } with
      main := .leave event (.install module) i true }.close context.handles[module.id]?
  | .erased event (.remove module) i =>
    s.setTags i ((s.contexts i).tags.erase module.id) (.leave event (.remove module) i true)
  | .erased event job i => s.setTags i ∅ (.leave event job i true)
  | .leave event job i success =>
    -- the first context that is not updated ends the loop and the call
    if success then some (.silent, { s.setLock i none with main := .next event job (i + 1) })
    else some (.handled (some event), { s.setLock i none with main := .idle })
  | .commit event job =>
    some (.handled (some event), { s with
      config := commitJob s.config job, written := commitJob s.config job, main := .idle })

/-- What a step of a parser thread meets: the tags of a report that is due, in the order of the
walk, a record from the stream channel, and the result of parsing. -/
structure UseChoice where
  report : Option (List UInt64)
  record : Option Metadata
  res : ℤ

/-- One step of the loop of `ParserThreadRoutine`, up to the end of the lock. -/
def parserNext (s : Shared) (p : ℕ) (choice : UseChoice) : Option (HandleEvent × Shared) :=
  let context := s.contexts p
  match s.parsers p with
  | .loop =>
    match choice.report with
    | some ids =>
      if ids.Perm context.tags.keys then some (.silent, s.setParser p (.reporting ids)) else none
    | none => some (.silent, s.setParser p .polling)
  | .reporting [] => some (.silent, s.setParser p .polling)
  | .reporting (id :: ids) =>
    -- the tag is still there, since a change of the tags would have ended the process
    some (.silent, (s.setContext p (context.reportTag id)).setParser p (.reporting ids))
  | .polling =>
    match context.handles.isEmpty, choice.record with
    | false, some record => some (.silent, s.setParser p (.popped record))
    | _, _ => some (.silent, s.setParser p .loop)
  | .popped record =>
    if s.locks p = none then
      some (.silent, (s.setLock p (some (.parser p))).setParser p (.inside record))
    else none
  | .inside record =>
    match context.handles[record.protocolType]? with
    | none => some (.silent, s.setParser p .leave)
    | some object => some (.silent, s.setParser p (.found record object))
  | .found record object => some (.parsed p object, s.setParser p (.parsed record choice.res))
  | .parsed record res =>
    some (.silent, (s.setContext p (context.account record res)).setParser p .leave)
  | .leave => some (.silent, (s.setLock p none).setParser p .loop)

/-- Which thread moves, and what it meets. -/
inductive Action where
  | main (choice : UpdateChoice)
  | parser (p : ℕ) (choice : UseChoice)

/-- One step of the process with `n` parser threads, until a call ends it. -/
def next (dir : Bytes) (n : ℕ) (s : Shared) (action : Action) : Option (HandleEvent × Shared) :=
  if s.fault then none
  else match action with
    | .main choice => s.mainNext dir n choice
    | .parser p choice => if p < n then s.parserNext p choice else none

/-- The steps of the process, whoever moves. -/
def Step (dir : Bytes) (n : ℕ) : Shared → HandleEvent → Shared → Prop := Moves (next dir n)

end Shared

end Demos.Oak
