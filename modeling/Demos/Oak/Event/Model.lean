import Demos.Lib.BoundedQueue
import Demos.Lib.SlotLoop
import Demos.Oak.Config.Types

/-!
# Incoming events

The main thread turns every incoming event into a module configuration, applies it to the tables
of the parser contexts and to the dictionary `config.parser.modules`, and writes the configuration
back. What the dynamic loader and the module's own initialisation do for a context is an outcome
that the environment chooses; everything the program decides from that outcome is modelled.
-/

namespace Demos.Oak

open Demos.Lib

/-- `event_type`, with every code that is not the one of an incoming event. -/
inductive EventType where
  | parser
  | other (code : ℤ)
deriving DecidableEq, Repr

/-- `event_subtype`, with every code that the enumeration does not name. -/
inductive EventSubtype where
  | add
  | update
  | remove
  | clear
  | unknown (code : ℤ)
deriving DecidableEq, Repr

/-- `incoming_event`: the arguments are the entries of its dictionary in order. -/
structure IncomingEvent where
  type : EventType
  subtype : EventSubtype
  args : List (Bytes × Bytes)
deriving DecidableEq, Repr

/-- `OAK_PROTOCOL_TYPE`. -/
def oakProtocolType : Bytes := ascii "protocol_type"

/-- `OAK_FILE_NAME`. -/
def oakFileName : Bytes := ascii "file_name"

/-- `OAK_APP_TYPE`. -/
def oakAppType : Bytes := ascii "app_type"

/-- `OAK_TASK_ID`. -/
def oakTaskId : Bytes := ascii "task_id"

/-- `OAK_M_INPUT_FLOW`. -/
def oakMInputFlow : Bytes := ascii "m_input_flow"

/-- `OAK_M_OUTPUT_DATA`. -/
def oakMOutputData : Bytes := ascii "m_output_data"

/-- The kinds of `outgoing_event`. -/
inductive OutgoingType where
  | alarm
  | metrics
deriving DecidableEq, Repr

/-- `outgoing_event`. -/
structure OutgoingEvent where
  type : OutgoingType
  args : List (Bytes × Bytes)
deriving DecidableEq, Repr

/-- An entry whose key is a literal passed with its `sizeof`: the terminator belongs to the key. -/
def literalEntry (key value : Bytes) : Bytes × Bytes := (key ++ [0], value)

/-- The module name of a file: the text before its last dot. -/
def moduleName (fileName : Bytes) : Bytes :=
  match rfind fileName 46 with
  | some pos => fileName.take pos
  | none => fileName

/-- One argument in the loop of `EventToParserModuleConfig`. -/
def ModuleConfig.addArg (addonDir : Bytes) (module : ModuleConfig) (kv : Bytes × Bytes) :
    Except Fault ModuleConfig :=
  if kv.1 = [] ∨ kv.2 = [] then .ok module
  else if kv.1 = oakProtocolType then
    (stoi kv.2).map fun value =>
      { module with id := UInt64.ofInt value, config := module.config.insert kv.1 kv.2 }
  else if kv.1 = oakFileName then
    .ok { module with
      path := addonDir ++ ascii "/" ++ basename kv.2
      name := moduleName (basename kv.2)
      config := module.config.insert kv.1 kv.2 }
  else .ok { module with config := module.config.insert kv.1 kv.2 }

/-- `EventToParserModuleConfig`. -/
def eventToParserModuleConfig (addonDir : Bytes) (event : IncomingEvent) :
    Except Fault ModuleConfig := do
  assert (event.type = .parser) "Invalid event.type"
  let module ← event.args.foldlM (ModuleConfig.addArg addonDir) {}
  return { module with enable := true }

/-- `ProtocolTag`. -/
structure ProtocolTag where
  taskId : ℤ := -1
  appType : UInt64 := 0
  inputFlow : UInt64 := 0
  outputData : UInt64 := 0
deriving DecidableEq, Repr

/-- The integer under a key of the module's dictionary, or the default of the tag. -/
def readTag (config : Dict) (key : Bytes) (default : ℤ) : Except Fault ℤ :=
  match config[key]? with
  | some text => stoll text
  | none => .ok default

/-- The tag that `UpdateParser` prepares from the module's dictionary. -/
def protocolTag (config : Dict) : Except Fault ProtocolTag := do
  let taskId ← readTag config oakTaskId (-1)
  assert (taskId ≠ -1) "tag.task_id != -1"
  let appType ← readTag config oakAppType 0
  return { taskId := taskId, appType := UInt64.ofInt appType }

/-- `MODULE_TYPE_PARSER`. -/
def moduleTypeParser : ℤ := 2

/-- `OAK_VERSION_MAJOR`. -/
def oakVersionMajor : ℤ := 1

/-- What the dynamic loader and the module answer when a context opens it: `dlopen` or `dlsym`
fails, or the module has these flags, this version and this result of its `init` callback; the
object is the one that the factory allocates. -/
inductive LoadOutcome (Handle : Type) where
  | dlopenFailed
  | dlsymFailed
  | loaded (flags version initResult : ℤ) (object : Handle)
deriving DecidableEq, Repr

variable {Handle : Type}

/-- `CppParserHandleFactory`: the object, or nothing where the function returns `-1`. -/
def cppParserHandleFactory : LoadOutcome Handle → Option Handle
  | .dlopenFailed => none
  | .dlsymFailed => none
  | .loaded flags version initResult object =>
    if flags ≠ moduleTypeParser then none
    else if version / 2 ^ 16 ≠ oakVersionMajor then none
    else if initResult ≠ 0 then none
    else some object

/-- The object that `ParserHandleFactory` opens for a module with a name, if it does. -/
def openParser (module : ModuleConfig) (load : LoadOutcome Handle) : Option Handle :=
  if module.path = [] ∨ contains module.path (ascii ".so") then cppParserHandleFactory load
  else none

/-- `ParserHandleFactory`. -/
def parserHandleFactory (module : ModuleConfig) (load : LoadOutcome Handle) :
    Except Fault (Option Handle) := do
  assert (module.name ≠ []) "Invalid module name"
  return openParser module load

/-- `ParserContext`, as far as the main thread works on it: the report channel is the bounded queue
that the channel refines. -/
structure ParserContext (Handle : Type) where
  id : ℕ
  handles : Std.ExtTreeMap UInt64 Handle
  tags : Std.ExtTreeMap UInt64 ProtocolTag
  report : List OutgoingEvent
  reportCapacity : ℕ

/-- A context before its thread has opened a module. -/
def ParserContext.new (id reportCapacity : ℕ) : ParserContext Handle where
  id := id
  handles := ∅
  tags := ∅
  report := []
  reportCapacity := reportCapacity

/-- `report->Push(event)` where the result is ignored. -/
def ParserContext.pushReport (context : ParserContext Handle) (event : OutgoingEvent) :
    ParserContext Handle :=
  { context with
    report := (enqueue context.reportCapacity context.report event).getD context.report }

/-- The event of `ReportAlarm`; its text is filed under the key of the input flow. -/
def alarmEvent (taskId : ℤ) (message : Bytes) : OutgoingEvent where
  type := .alarm
  args := [literalEntry oakTaskId (formatLd taskId), literalEntry oakMInputFlow message]

/-- The log text of a module that was not opened. -/
def loadFailed (id : UInt64) : Bytes :=
  ascii "Load code (" ++ formatLd id.toInt64.toInt ++ ascii ") failed"

/-- The branch of `UpdateParser` for a module that was not opened. -/
def ParserContext.openFailed (context : ParserContext Handle) (module : ModuleConfig)
    (tag : ProtocolTag) : ParserContext Handle :=
  if context.id = 0 then context.pushReport (alarmEvent tag.taskId (loadFailed module.id))
  else context

/-- The branch of `UpdateParser` for an opened module. -/
def ParserContext.install (context : ParserContext Handle) (module : ModuleConfig)
    (tag : ProtocolTag) (object : Handle) : ParserContext Handle :=
  { context with
    tags := context.tags.insert module.id tag
    handles := context.handles.insert module.id object }

/-- `UpdateParser`: whether it returns zero, and the context it leaves. -/
def updateParser (context : ParserContext Handle) (module : ModuleConfig)
    (load : LoadOutcome Handle) : Except Fault (Bool × ParserContext Handle) := do
  let tag ← protocolTag module.config
  match ← parserHandleFactory module load with
  | none => return (false, context.openFailed module tag)
  | some object => return (true, context.install module tag object)

/-- The loop of `HandleInputEvent` over the contexts from index `i` on, left at the first context
that is not updated. -/
def updateContexts (module : ModuleConfig) (loads : ℕ → LoadOutcome Handle) :
    ℕ → List (ParserContext Handle) → Except Fault (Bool × List (ParserContext Handle))
  | _, [] => .ok (true, [])
  | i, context :: rest => do
    let (updated, context) ← updateParser context module (loads i)
    if updated then
      let (success, rest) ← updateContexts module loads (i + 1) rest
      return (success, context :: rest)
    else
      return (false, context :: rest)

/-- Disable the entry of a name, which the subscript creates when it is missing. -/
def ModuleConfigDict.disable (modules : ModuleConfigDict) (name : Bytes) : ModuleConfigDict :=
  modules.insert name { modules[name]?.getD {} with enable := false }

/-- Disable every entry. -/
def ModuleConfigDict.disableAll (modules : ModuleConfigDict) : ModuleConfigDict :=
  modules.map fun _ module => { module with enable := false }

/-- What the main thread works on: the parser contexts, the configuration, and the configuration
that `WriteConfig` last wrote. -/
structure Runtime (Handle : Type) where
  contexts : List (ParserContext Handle)
  config : Config
  written : Config

/-- Replace the dictionary of the parser modules. -/
def Config.setParserModules (config : Config) (modules : ModuleConfigDict) : Config :=
  { config with parser := { config.parser with modules := modules } }

/-- Replace the dictionary of the parser modules and write the configuration. -/
def Runtime.commit (s : Runtime Handle) (modules : ModuleConfigDict) : Runtime Handle :=
  { s with
    config := s.config.setParserModules modules
    written := s.config.setParserModules modules }

/-- The dictionary `config.parser.modules`. -/
def Runtime.modules (s : Runtime Handle) : ModuleConfigDict := s.config.parser.modules

/-- Forget one module in a context. -/
def ParserContext.erase (id : UInt64) (context : ParserContext Handle) : ParserContext Handle :=
  { context with handles := context.handles.erase id, tags := context.tags.erase id }

/-- Forget every module in a context. -/
def ParserContext.clear (context : ParserContext Handle) : ParserContext Handle :=
  { context with handles := ∅, tags := ∅ }

/-- The branch of `HandleInputEvent` for an added or updated module. -/
def Runtime.install (s : Runtime Handle) (module : ModuleConfig)
    (loads : ℕ → LoadOutcome Handle) : Except Fault (Runtime Handle) := do
  let (success, contexts) ← updateContexts module loads 0 s.contexts
  let s := { s with contexts := contexts }
  return if success then s.commit (s.modules.insert module.name module) else s

/-- The branch of `HandleInputEvent` for a removed module. -/
def Runtime.remove (s : Runtime Handle) (module : ModuleConfig) : Runtime Handle :=
  let s := { s with contexts := s.contexts.map (ParserContext.erase module.id) }
  s.commit (ModuleConfigDict.disable s.modules module.name)

/-- The branch of `HandleInputEvent` that clears everything. -/
def Runtime.clear (s : Runtime Handle) : Runtime Handle :=
  let s := { s with contexts := s.contexts.map ParserContext.clear }
  s.commit (ModuleConfigDict.disableAll s.modules)

/-- The switch of `HandleInputEvent` on the subtype of a parser event. -/
def Runtime.dispatch (s : Runtime Handle) (addonsDir : Bytes) (event : IncomingEvent)
    (loads : ℕ → LoadOutcome Handle) : Except Fault (Runtime Handle) :=
  match event.subtype with
  | .add => do s.install (← eventToParserModuleConfig addonsDir event) loads
  | .update => do s.install (← eventToParserModuleConfig addonsDir event) loads
  | .remove => do return s.remove (← eventToParserModuleConfig addonsDir event)
  | .clear => return s.clear
  | .unknown _ => return s

/-- What one call of `HandleInputEvent` meets: the event that `Recv` returns, if it returns one,
and the outcome of opening a module in each context. -/
structure Input (Handle : Type) where
  event : Option IncomingEvent
  loads : ℕ → LoadOutcome Handle

/-- `HandleInputEvent`. -/
def handleInputEvent (addonsDir : Bytes) (s : Runtime Handle) (input : Input Handle) :
    Except Fault (Runtime Handle) :=
  match input.event with
  | none => .ok s
  | some event => if event.type = .parser then s.dispatch addonsDir event input.loads else .ok s

/-- The call of `HandleInputEvent` returns in the second state. -/
def EventStep (addonsDir : Bytes) (s : Runtime Handle) (input : Input Handle)
    (s' : Runtime Handle) : Prop :=
  handleInputEvent addonsDir s input = .ok s'

end Demos.Oak
