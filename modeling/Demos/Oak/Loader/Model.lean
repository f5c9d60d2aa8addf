import Demos.Lib.Run
import Demos.Oak.Worker.ReadBack

/-!
# Opening and closing modules

The four factories of `addons` open a library, look a module up in it, check its flags and its
version and call its `init`. Each error behind `dlopen` closes the library again. The handle that a
factory stores in its `unique_ptr` keeps the library open, and its destructor calls the module's
`close` before it closes the library.

Source, parser and sink threads and the main thread open modules at the same time, and the dynamic
loader counts how often a library is open. Each call of the loader or of a module is a step of its
own, and the steps of all threads interleave in any order. What is in a file, the order in which a
hash map is walked and what a module answers are inputs of a step.
-/

namespace Demos.Oak

open Demos.Lib

/-- `ModuleType`. -/
inductive ModuleType where
  | unknown
  | source
  | parser
  | sink
  | event
deriving DecidableEq, Repr

/-- The value of the enumerator. -/
def ModuleType.value : ModuleType → ℤ
  | .unknown => 0
  | .source => 1
  | .parser => 2
  | .sink => 3
  | .event => 4

/-- `LangType`. -/
inductive LangType where
  | unknown
  | cCpp
  | python
deriving DecidableEq, Repr

/-- The functions of the handles that forward to a module. -/
inductive Callback where
  | read
  | parse
  | mark
  | write
  | pull
  | recv
  | send
deriving DecidableEq, Repr

/-- The handle that has the function. -/
def Callback.type : Callback → ModuleType
  | .read => .source
  | .parse | .mark => .parser
  | .write => .sink
  | .pull | .recv | .send => .event

/-- The data of `oak_source_module`, `oak_parser_module`, `oak_sink_module` or `oak_event_module`.
Only `parse` and `mark` are tested for null pointers. -/
structure OakModule where
  version : ℤ
  flags : ℤ
  parse : Bool := true
  mark : Bool := true
deriving DecidableEq, Repr

/-- Whether a function of a handle finds the callback that it tests. -/
def OakModule.has (handle : OakModule) : Callback → Bool
  | .parse => handle.parse
  | .mark => handle.mark
  | _ => true

/-- The modules that a library exports, with those of the libraries that it is linked to. -/
abbrev Library := Bytes → Option OakModule

/-- What `dlopen` is called with: a path, or the null pointer for the program itself. -/
abbrev DlHandle := Option Bytes

/-- The members of a handle, with those of `ModuleBase`. -/
structure CppHandle where
  id : UInt64
  version : ℤ
  name : Bytes
  path : Bytes
  type : ModuleType
  langType : LangType
  dlHandle : DlHandle
  handle : OakModule
  context : ℕ
deriving DecidableEq

/-- The `id_` of `ModuleBase`, whose constructor takes an `int`. -/
def moduleId (id : UInt64) : UInt64 := id.toUInt32.toInt32.toInt64.toUInt64

/-- A call of a factory: its type, the module, and which `unique_ptr` of the type it is to fill. -/
structure FactoryCall where
  type : ModuleType
  module : ModuleConfig
  index : ℕ
deriving DecidableEq

/-- The argument of `dlopen`. -/
def FactoryCall.dlHandle (call : FactoryCall) : DlHandle :=
  if call.module.path = [] then none else some call.module.path

/-- The constructors of `CppSourceHandle`, `CppParserHandle`, `CppSinkHandle` and
`CppEventHandle`. -/
def cppHandle (call : FactoryCall) (handle : OakModule) (context : ℕ) : CppHandle where
  id := moduleId call.module.id
  version := handle.version
  name := call.module.name
  path := call.module.path
  type := call.type
  langType := .cCpp
  dlHandle := call.dlHandle
  handle := handle
  context := context

/-- `oak_dict_ref`. -/
def oakDictRef (dict : List (Bytes × Bytes)) (key : Bytes) (keyLen : ℕ) (value : Bytes)
    (valueLen : ℕ) : List (Bytes × Bytes) :=
  dict ++ [(key.take keyLen, value.take valueLen)]

/-- The loop of the factories that fills the dictionary for `init`. -/
def configLoop (dict : List (Bytes × Bytes)) : List (Bytes × Bytes) → List (Bytes × Bytes)
  | [] => dict
  | kv :: rest =>
    if oakDictDflCap ≤ dict.length then dict
    else if kv.1 = [] ∨ kv.2 = [] then configLoop dict rest
    else configLoop (oakDictRef dict (cStr kv.1) kv.1.length (cStr kv.2) kv.2.length) rest

/-- The dictionary for `init`, from the entries of the configuration in the order of the walk. -/
def configDict (order : List (Bytes × Bytes)) : List (Bytes × Bytes) := configLoop [] order

/-- A `unique_ptr` for handles of a type. -/
structure Slot where
  type : ModuleType
  index : ℕ
deriving DecidableEq

/-- The factory that runs a destructor, with the module that it has opened, if a factory does. -/
abbrev Caller := Option (FactoryCall × OakModule)

/-- Where a thread is in a factory, between `release` and `reset`, or in the destructor of a handle.
A destructor that a factory runs, when it replaces a handle, returns to that factory. -/
inductive LoadPc where
  | idle
  | opening (call : FactoryCall)
  | opened (call : FactoryCall)
  | checked (call : FactoryCall) (handle : OakModule)
  | failed (call : FactoryCall) (met : LoadOutcome Unit)
  | made (call : FactoryCall) (handle : OakModule) (context : ℕ)
  | released (object : Option CppHandle) (target : Slot)
  | closing (object : CppHandle) (caller : Caller)
  | closed (object : CppHandle) (caller : Caller)

/-- The libraries, how often they are open and in which order they were loaded, the handles by their
owners, and where the threads are. -/
structure Loader where
  image : DlHandle → Library
  opens : DlHandle → ℕ
  scope : List DlHandle
  slots : Slot → Option CppHandle
  threads : ℕ → LoadPc
  fault : Bool

/-- What a step shows: the calls of module code, and what a factory met and returns. A module that
is refused before its `init` is met as one whose `init` has no error. -/
inductive LoaderEvent where
  | silent
  | init (call : FactoryCall) (handle : OakModule) (dict : List (Bytes × Bytes)) (ret : ℤ)
      (context : ℕ)
  | called (object : CppHandle) (callback : Callback)
  | close (object : CppHandle)
  | returned (call : FactoryCall) (met : LoadOutcome Unit) (ret : ℤ)
  | faulted
deriving DecidableEq

namespace Loader

/-- The process before it opens a module. It holds itself open. -/
def start (program : Library) : Loader where
  image _ := program
  opens dl := if dl = none then 1 else 0
  scope := []
  slots _ := none
  threads _ := .idle
  fault := false

/-- A thread goes on. -/
def setThread (s : Loader) (t : ℕ) (pc : LoadPc) : Loader :=
  { s with threads := Function.update s.threads t pc }

/-- Change the pointer in a slot. -/
def setSlot (s : Loader) (slot : Slot) (object : Option CppHandle) : Loader :=
  { s with slots := Function.update s.slots slot object }

/-- `dlopen` with `RTLD_GLOBAL`: a library that is open is not read again, and one that is read
comes last in the global scope. -/
def dlopen (s : Loader) (dl : DlHandle) (file : Option Library) : Option Loader :=
  if 0 < s.opens dl then
    some { s with opens := Function.update s.opens dl (s.opens dl + 1) }
  else file.map fun library =>
    { s with
      image := Function.update s.image dl library
      opens := Function.update s.opens dl (s.opens dl + 1)
      scope := s.scope ++ [dl] }

/-- `dlsym`: with the program's handle it searches the global scope behind the program. -/
def dlsym (s : Loader) (dl : DlHandle) (name : Bytes) : Option OakModule :=
  match dl with
  | some _ => s.image dl name
  | none => (none :: s.scope).findSome? fun library => s.image library name

/-- `dlclose`. -/
def dlclose (s : Loader) (dl : DlHandle) : Loader :=
  { s with
    opens := Function.update s.opens dl (s.opens dl - 1)
    scope := if s.opens dl = 1 then s.scope.erase dl else s.scope }

/-- The factories up to `dlopen`. -/
def handleFactory (s : Loader) (t : ℕ) (call : FactoryCall) : LoaderEvent × Loader :=
  if call.module.name = [] then (.faulted, { s with fault := true })
  else if call.module.path = [] ∨ contains call.module.path (ascii ".so") then
    (.silent, s.setThread t (.opening call))
  else (.returned call .dlopenFailed (-1), s)

/-- `SourceHandleFactory`. -/
def sourceHandleFactory (s : Loader) (t : ℕ) (module : ModuleConfig) (index : ℕ) :
    LoaderEvent × Loader :=
  s.handleFactory t ⟨.source, module, index⟩

/-- `ParserHandleFactory`. -/
def parserHandleFactory (s : Loader) (t : ℕ) (module : ModuleConfig) (index : ℕ) :
    LoaderEvent × Loader :=
  s.handleFactory t ⟨.parser, module, index⟩

/-- `SinkHandleFactory`. -/
def sinkHandleFactory (s : Loader) (t : ℕ) (module : ModuleConfig) (index : ℕ) :
    LoaderEvent × Loader :=
  s.handleFactory t ⟨.sink, module, index⟩

/-- `EventHandleFactory`. -/
def eventHandleFactory (s : Loader) (t : ℕ) (module : ModuleConfig) (index : ℕ) :
    LoaderEvent × Loader :=
  s.handleFactory t ⟨.event, module, index⟩

/-- A destructor returns, and with it the factory that ran it. -/
def leave (s : Loader) (t : ℕ) : Caller → LoaderEvent × Loader
  | none => (.silent, s.setThread t .idle)
  | some (call, handle) =>
    (.returned call (.loaded handle.flags handle.version 0 ()) 0, s.setThread t .idle)

/-- `unique_ptr::reset`: the handle that was there is destroyed after the new one is stored. -/
def reset (s : Loader) (t : ℕ) (slot : Slot) (object : Option CppHandle)
    (caller : Caller) : LoaderEvent × Loader :=
  match s.slots slot with
  | some old => (.silent, (s.setSlot slot object).setThread t (.closing old caller))
  | none => (s.setSlot slot object).leave t caller

/-- What a step meets: the file of a library that is not open, the order in which the configuration
is walked, and the result of `init` with the context that it sets. -/
structure Answer where
  file : Option Library := none
  order : List (Bytes × Bytes) := []
  ret : ℤ := 0
  context : ℕ := 0

/-- The factories between `dlopen` and `init`. -/
def lookUp (s : Loader) (t : ℕ) (call : FactoryCall) : Loader :=
  match s.dlsym call.dlHandle call.module.name with
  | none => s.setThread t (.failed call .dlsymFailed)
  | some handle =>
    if handle.flags ≠ call.type.value then
      s.setThread t (.failed call (.loaded handle.flags handle.version 0 ()))
    else if handle.version / 2 ^ 16 ≠ oakVersionMajor then
      s.setThread t (.failed call (.loaded handle.flags handle.version 0 ()))
    else s.setThread t (.checked call handle)

/-- The next step of a thread in `CppSourceHandleFactory`, `CppParserHandleFactory` or one of the
two overloads of `CppEventHandleFactory`, in `unique_ptr::reset` or in a destructor. -/
def advance (s : Loader) (t : ℕ) (answer : Answer) : Option (LoaderEvent × Loader) :=
  match s.threads t with
  | .idle => none
  | .opening call =>
    match s.dlopen call.dlHandle answer.file with
    | none => some (.returned call .dlopenFailed (-1), s.setThread t .idle)
    | some s => some (.silent, s.setThread t (.opened call))
  | .opened call => some (.silent, s.lookUp t call)
  | .checked call handle =>
    if answer.order.Perm call.module.config.toList then
      let event := .init call handle (configDict answer.order) answer.ret answer.context
      if answer.ret ≠ 0 then
        some (event, s.setThread t
          (.failed call (.loaded handle.flags handle.version answer.ret ())))
      else some (event, s.setThread t (.made call handle answer.context))
    else none
  | .failed call met =>
    some (.returned call met (-1), (s.dlclose call.dlHandle).setThread t .idle)
  | .made call handle context =>
    s.reset t ⟨call.type, call.index⟩ (some (cppHandle call handle context)) (some (call, handle))
  | .released object target => s.reset t target object none
  | .closing object caller => some (.close object, s.setThread t (.closed object caller))
  | .closed object caller => (s.dlclose object.dlHandle).leave t caller

/-- What a thread does: it calls a factory, it goes on in one, it destroys the handle of a slot, it
hands a handle on to another slot, or it calls a function of a handle. -/
inductive Action where
  | source (module : ModuleConfig) (index : ℕ)
  | parser (module : ModuleConfig) (index : ℕ)
  | sink (module : ModuleConfig) (index : ℕ)
  | event (module : ModuleConfig) (index : ℕ)
  | advance (answer : Answer)
  | destroy (slot : Slot)
  | release (type : ModuleType) (source target : ℕ)
  | use (callback : Callback) (index : ℕ)

/-- What a thread does that is in no factory and in no destructor. -/
def begin (s : Loader) (t : ℕ) : Action → Option (LoaderEvent × Loader)
  | .source module index => s.sourceHandleFactory t module index
  | .parser module index => s.parserHandleFactory t module index
  | .sink module index => s.sinkHandleFactory t module index
  | .event module index => s.eventHandleFactory t module index
  | .advance _ => none
  | .destroy slot => s.reset t slot none none
  | .release type source target =>
    -- the first half of `target.reset(source.release())`
    some (.silent, (s.setSlot ⟨type, source⟩ none).setThread t
      (.released (s.slots ⟨type, source⟩) ⟨type, target⟩))
  | .use callback index =>
    match s.slots ⟨callback.type, index⟩ with
    | none => none
    | some object =>
      -- a callback that is not set is not called
      if object.handle.has callback then some (.called object callback, s) else some (.silent, s)

/-- One step of a thread, until a failed assertion ends the process. -/
def next (s : Loader) (move : ℕ × Action) : Option (LoaderEvent × Loader) :=
  if s.fault then none
  else match s.threads move.1, move.2 with
    | .idle, action => s.begin move.1 action
    | _, .advance answer => s.advance move.1 answer
    | _, _ => none

/-- The steps of the threads, whoever moves. -/
def Step : Loader → LoaderEvent → Loader → Prop := Moves next

end Loader

end Demos.Oak
