import Demos.Oak.Config.Json
import Demos.Oak.Config.Types

/-!
# Reading and writing the configuration

The readers and writers of `config.cc`. A reader changes only the fields whose member is present;
a writer writes every field. The integer fields are signed, and they are read as unsigned numbers.
-/

namespace Demos.Oak

open Demos.Lib

variable {R : Type}

/-- The key `enable` of a module. -/
def enableKey : Bytes := ascii "enable"

/-- The key `path` of a module. -/
def pathKey : Bytes := ascii "path"

/-- The key `id` of a module. -/
def idKey : Bytes := ascii "id"

/-- The key `comment`. -/
def commentKey : Bytes := ascii "comment"

/-- The key `log_method`. -/
def logMethodKey : Bytes := ascii "log_method"

/-- The key `modules`. -/
def modulesKey : Bytes := ascii "modules"

/-- The key `num_threads`. -/
def numThreadsKey : Bytes := ascii "num_threads"

/-- The key `report_interval`. -/
def reportIntervalKey : Bytes := ascii "report_interval"

/-- The key `stream_channel_size`. -/
def streamChannelSizeKey : Bytes := ascii "stream_channel_size"

/-- The key `report_channel_size`. -/
def reportChannelSizeKey : Bytes := ascii "report_channel_size"

/-- The key `source`. -/
def sourceKey : Bytes := ascii "source"

/-- The key `parser`. -/
def parserKey : Bytes := ascii "parser"

/-- The key `sink`. -/
def sinkKey : Bytes := ascii "sink"

/-- `asUInt()` assigned to an `int`. -/
def Json.asInt (real : RealOps R) (value : Json R) : Except Fault ℤ :=
  (value.asUInt real).map fun number => number.toInt32.toInt

/-- One key in the inner loop of `ReadModuleConfig`. -/
def ModuleConfig.readKey (real : RealOps R) (node : Json R) (module : ModuleConfig) (key : Bytes) :
    Except Fault ModuleConfig := do
  let value ← node.get key
  if key = enableKey then return { module with enable := ← value.asBool real }
  else if key = pathKey then return { module with path := ← value.asString real }
  else if key = idKey then return { module with id := ← value.asUInt64 real }
  else return { module with config := module.config.insert key (← value.asString real) }

/-- The inner loop of `ReadModuleConfig`: the module of one name. -/
def readModule (real : RealOps R) (node : Json R) (name : Bytes) : Except Fault ModuleConfig := do
  let moduleNode ← node.get name
  let keys ← moduleNode.getMemberNames
  keys.foldlM (ModuleConfig.readKey real moduleNode) { name := name }

/-- One name in the outer loop of `ReadModuleConfig`. -/
def readName (real : RealOps R) (node : Json R) (modules : ModuleConfigDict) (name : Bytes) :
    Except Fault ModuleConfigDict := do
  let module ← readModule real node name
  return modules.insert name module

/-- `ReadModuleConfig`. -/
def readModuleConfig (real : RealOps R) (modules : ModuleConfigDict) (node : Json R) :
    Except Fault ModuleConfigDict := do
  let names ← node.getMemberNames
  names.foldlM (readName real node) modules

/-- The object of one module in `WriteModuleConfig`. -/
def writeModule (module : ModuleConfig) : Json R :=
  let members := setMember enableKey (.bool module.enable) []
  let members := setMember pathKey (.string module.path) members
  let members := setMember idKey (.int module.id.toNat) members
  .object (module.config.toList.foldl
    (fun members entry => setMember entry.1 (.string entry.2) members) members)

/-- `WriteModuleConfig` on an empty object. -/
def writeModuleConfig (modules : ModuleConfigDict) : Json R :=
  .object (modules.toList.foldl
    (fun members entry => setMember entry.2.name (writeModule entry.2) members) [])

/-- `ReadSourceConfig`. -/
def readSourceConfig (real : RealOps R) (config : SourceConfig) (node : Json R) :
    Except Fault SourceConfig := do
  let comment ← node.read commentKey (Json.asString real) config.comment
  let numThreads ← node.read numThreadsKey (Json.asInt real) config.numThreads
  let modules ← node.read modulesKey (readModuleConfig real config.modules) config.modules
  return { comment, numThreads, modules }

/-- `WriteSourceConfig` on an empty object. -/
def writeSourceConfig (config : SourceConfig) : Json R :=
  let members := setMember commentKey (.string config.comment) []
  let members := setMember numThreadsKey (.int config.numThreads) members
  .object (setMember modulesKey (writeModuleConfig config.modules) members)

/-- `ReadParserConfig`. -/
def readParserConfig (real : RealOps R) (config : ParserConfig) (node : Json R) :
    Except Fault ParserConfig := do
  let comment ← node.read commentKey (Json.asString real) config.comment
  let numThreads ← node.read numThreadsKey (Json.asInt real) config.numThreads
  let reportInterval ← node.read reportIntervalKey (Json.asInt real) config.reportInterval
  let streamChannelSize ←
    node.read streamChannelSizeKey (Json.asInt real) config.streamChannelSize
  let reportChannelSize ←
    node.read reportChannelSizeKey (Json.asInt real) config.reportChannelSize
  let modules ← node.read modulesKey (readModuleConfig real config.modules) config.modules
  return { comment, numThreads, reportInterval, streamChannelSize, reportChannelSize, modules }

/-- `WriteParserConfig` on an empty object. -/
def writeParserConfig (config : ParserConfig) : Json R :=
  let members := setMember commentKey (.string config.comment) []
  let members := setMember numThreadsKey (.int config.numThreads) members
  let members := setMember reportIntervalKey (.int config.reportInterval) members
  let members := setMember streamChannelSizeKey (.int config.streamChannelSize) members
  let members := setMember reportChannelSizeKey (.int config.reportChannelSize) members
  .object (setMember modulesKey (writeModuleConfig config.modules) members)

/-- `ReadSinkConfig`. -/
def readSinkConfig (real : RealOps R) (config : SinkConfig) (node : Json R) :
    Except Fault SinkConfig := do
  let comment ← node.read commentKey (Json.asString real) config.comment
  let numThreads ← node.read numThreadsKey (Json.asInt real) config.numThreads
  let streamChannelSize ←
    node.read streamChannelSizeKey (Json.asInt real) config.streamChannelSize
  let modules ← node.read modulesKey (readModuleConfig real config.modules) config.modules
  return { comment, numThreads, streamChannelSize, modules }

/-- `WriteSinkConfig` on an empty object. -/
def writeSinkConfig (config : SinkConfig) : Json R :=
  let members := setMember commentKey (.string config.comment) []
  let members := setMember numThreadsKey (.int config.numThreads) members
  let members := setMember streamChannelSizeKey (.int config.streamChannelSize) members
  .object (setMember modulesKey (writeModuleConfig config.modules) members)

/-- The part of `ReadConfig` after the text is parsed. -/
def readConfigNode (real : RealOps R) (config : Config) (node : Json R) : Except Fault Config := do
  let comment ← node.read commentKey (Json.asString real) config.comment
  let logMethod ← node.read logMethodKey (Json.asString real) config.logMethod
  let modules ← node.read modulesKey (readModuleConfig real config.modules) config.modules
  let source ← node.read sourceKey (readSourceConfig real config.source) config.source
  let parser ← node.read parserKey (readParserConfig real config.parser) config.parser
  let sink ← node.read sinkKey (readSinkConfig real config.sink) config.sink
  return { comment, logMethod, modules, source, parser, sink }

/-- The document that `WriteConfig` builds. -/
def writeConfigNode (config : Config) : Json R :=
  let members := setMember commentKey (.string config.comment) []
  let members := setMember logMethodKey (.string config.logMethod) members
  let members := setMember modulesKey (writeModuleConfig config.modules) members
  let members := setMember sourceKey (writeSourceConfig config.source) members
  let members := setMember parserKey (writeParserConfig config.parser) members
  .object (setMember sinkKey (writeSinkConfig config.sink) members)

/-- `ReadConfig` on the text of the file, for a given parser of JSON texts. -/
def readConfig (real : RealOps R) (parse : Bytes → Option (Json R)) (config : Config)
    (text : Bytes) : Except Fault Config :=
  match parse text with
  | none => .error .invalidArgument
  | some node => readConfigNode real config node

/-- `WriteConfig`: the text that it puts in the file, for a given writer of JSON values. -/
def writeConfig (write : Json R → Bytes) (config : Config) : Bytes :=
  write (writeConfigNode config)

end Demos.Oak
