import Demos.Oak.Text
import Std.Data.ExtTreeMap

/-!
# Configuration data

The records of `config.h`. A hash map is modelled as a finite map: no function of the program
depends on the order in which a hash map is traversed, except where two entries of a dictionary
carry one name.
-/

namespace Demos.Oak

/-- `Dict`. -/
abbrev Dict := Std.ExtTreeMap Bytes Bytes

instance : DecidableEq Dict := inferInstanceAs (DecidableEq (Std.ExtTreeMap Bytes Bytes))

/-- `ModuleConfig`. -/
@[ext]
structure ModuleConfig where
  id : UInt64 := 0
  name : Bytes := []
  enable : Bool := false
  path : Bytes := []
  config : Dict := ∅
deriving DecidableEq

/-- `ModuleConfigDict`. -/
abbrev ModuleConfigDict := Std.ExtTreeMap Bytes ModuleConfig

/-- `SourceConfig`. -/
structure SourceConfig where
  comment : Bytes := []
  numThreads : ℤ := -1
  modules : ModuleConfigDict := ∅
deriving DecidableEq

/-- `ParserConfig`. -/
structure ParserConfig where
  comment : Bytes := []
  numThreads : ℤ := -1
  reportInterval : ℤ := 60
  streamChannelSize : ℤ := 512
  reportChannelSize : ℤ := 1024
  modules : ModuleConfigDict := ∅
deriving DecidableEq

/-- `SinkConfig`. -/
structure SinkConfig where
  comment : Bytes := []
  numThreads : ℤ := -1
  streamChannelSize : ℤ := 512
  modules : ModuleConfigDict := ∅
deriving DecidableEq

/-- `Config`. -/
structure Config where
  comment : Bytes := []
  logMethod : Bytes := []
  modules : ModuleConfigDict := ∅
  source : SourceConfig := {}
  parser : ParserConfig := {}
  sink : SinkConfig := {}
deriving DecidableEq

end Demos.Oak
