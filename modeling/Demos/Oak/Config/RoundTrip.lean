import Demos.Oak.Config.Modules

/-!
# Round trip of the configuration

A configuration that was read is written and read back as it was exactly when none of its integer
fields is negative. The number of threads of a section is negative by default, and every integer
field is negative when the document has a number from `2 ^ 31` on for it; a negative number is
written as it is and refused by the unsigned conversion when the file is read again.
-/

namespace Demos.Oak

open Demos.Lib

variable {R : Type} {real : RealOps R} {node : Json R}

/-- The values of an `int`. -/
def IntRange (value : ℤ) : Prop := -2 ^ 31 ≤ value ∧ value < 2 ^ 31

instance (value : ℤ) : Decidable (IntRange value) := inferInstanceAs (Decidable (_ ∧ _))

/-- The value of an unsigned number assigned to an `int`. -/
theorem toInt_toInt32 (number : UInt32) :
    number.toInt32.toInt =
      if number.toNat < 2 ^ 31 then (number.toNat : ℤ) else number.toNat - 2 ^ 32 := by
  change number.toBitVec.toInt = _
  rw [BitVec.toInt_eq_toNat_cond, UInt32.toNat_toBitVec]
  split <;> split <;> omega

/-- A field that is read is in range, and it is not negative exactly when the document has a
number below `2 ^ 31` for it. -/
theorem Json.asInt_eq_ok {value : Json R} {field : ℤ} (h : value.asInt real = .ok field) :
    IntRange field ∧
      (0 ≤ field ↔ ∀ number, value.asUInt real = .ok number → number.toNat < 2 ^ 31) := by
  obtain ⟨number, hnumber, rfl⟩ := map_eq_ok_iff.mp h
  refine ⟨⟨Int32.le_toInt _, Int32.toInt_lt _⟩, ?_⟩
  rw [hnumber, toInt_toInt32]
  have hlt := number.toNat_lt
  constructor
  · intro hfield number' hnumber'
    cases hnumber'
    split at hfield <;> omega
  · intro hsmall
    rw [if_pos (hsmall number rfl)]
    omega

/-- A number is converted back to itself exactly when it is not negative. -/
theorem Json.asInt_int_eq_iff (real : RealOps R) {value : ℤ} (h : IntRange value) :
    (Json.int value : Json R).asInt real = .ok value ↔ 0 ≤ value := by
  obtain ⟨_, hlt⟩ := h
  rw [asInt, map_eq_ok_iff]
  simp only [asUInt]
  constructor
  · rintro ⟨number, hnumber, _⟩
    split at hnumber
    · rename_i hrange
      exact hrange.1
    · split at hnumber <;> cases hnumber
  · intro hnonneg
    have hlt' : value.toNat < 2 ^ 32 := by omega
    have hnat : (UInt32.ofNat value.toNat).toNat = value.toNat := UInt32.toNat_ofNat_of_lt' hlt'
    refine ⟨UInt32.ofNat value.toNat, if_pos ⟨hnonneg, by omega⟩, ?_⟩
    rw [toInt_toInt32, hnat, if_pos (by omega), Int.toNat_of_nonneg hnonneg]

/-- The field of the document, where it has one, is a number below `2 ^ 31`. -/
def FieldOk (real : RealOps R) (node : Json R) (key : Bytes) : Prop :=
  ∀ value number, node.find key = .ok (some value) → value.asUInt real = .ok number →
    number.toNat < 2 ^ 31

/-- The document has the field. -/
def FieldGiven (node : Json R) (key : Bytes) : Prop :=
  ∃ value, node.find key = .ok (some value)

/-- An integer field that is read is in range, and it is not negative exactly when the document
has a small enough number for it, or none where the default is not negative. -/
theorem Json.read_asInt {key : Bytes} {default field : ℤ} (hdefault : IntRange default)
    (h : node.read key (Json.asInt real) default = .ok field) :
    IntRange field ∧ (0 ≤ field ↔ FieldOk real node key ∧ (default < 0 → FieldGiven node key)) := by
  rcases Json.read_eq_ok_iff.mp h with ⟨value, hfind, hread⟩ | ⟨hfind, rfl⟩
  · obtain ⟨hrange, hsmall⟩ := Json.asInt_eq_ok hread
    refine ⟨hrange, hsmall.trans ⟨?_, ?_⟩⟩
    · intro hall
      refine ⟨?_, fun _ => ⟨value, hfind⟩⟩
      intro value' number hfind' hnumber
      obtain rfl := Option.some.inj (Except.ok.inj (hfind.symm.trans hfind'))
      exact hall number hnumber
    · rintro ⟨hok, _⟩ number hnumber
      exact hok value number hfind hnumber
  · refine ⟨hdefault, ?_, ?_⟩
    · intro hnonneg
      refine ⟨?_, fun hneg => by omega⟩
      intro value number hfind' _
      simp [hfind] at hfind'
    · rintro ⟨_, hgiven⟩
      by_contra hneg
      obtain ⟨value, hvalue⟩ := hgiven (by omega)
      simp [hfind] at hvalue

/-- Reading a member of an object that the writers build. -/
theorem Json.read_object {A : Type} (members : List (Bytes × Json R)) (key : Bytes)
    (convert : Json R → Except Fault A) (field : A) :
    (Json.object members).read key convert field =
      match findMember key members with
      | some value => convert value
      | none => .ok field := by
  unfold read
  rw [Json.find_object]
  cases findMember key members <;> rfl

/-- The fields that `ReadSourceConfig` reads. -/
theorem readSourceConfig_eq_ok_iff {config config' : SourceConfig} :
    readSourceConfig real config node = .ok config' ↔
      node.read commentKey (Json.asString real) config.comment = .ok config'.comment ∧
      node.read numThreadsKey (Json.asInt real) config.numThreads = .ok config'.numThreads ∧
      node.read modulesKey (readModuleConfig real config.modules) config.modules =
        .ok config'.modules := by
  simp only [readSourceConfig, bind_eq_ok_iff]
  constructor
  · rintro ⟨comment, hcomment, numThreads, hthreads, modules, hmodules, hresult⟩
    cases hresult
    exact ⟨hcomment, hthreads, hmodules⟩
  · rintro ⟨hcomment, hthreads, hmodules⟩
    exact ⟨_, hcomment, _, hthreads, _, hmodules, rfl⟩

/-- The fields that `ReadParserConfig` reads. -/
theorem readParserConfig_eq_ok_iff {config config' : ParserConfig} :
    readParserConfig real config node = .ok config' ↔
      node.read commentKey (Json.asString real) config.comment = .ok config'.comment ∧
      node.read numThreadsKey (Json.asInt real) config.numThreads = .ok config'.numThreads ∧
      node.read reportIntervalKey (Json.asInt real) config.reportInterval =
        .ok config'.reportInterval ∧
      node.read streamChannelSizeKey (Json.asInt real) config.streamChannelSize =
        .ok config'.streamChannelSize ∧
      node.read reportChannelSizeKey (Json.asInt real) config.reportChannelSize =
        .ok config'.reportChannelSize ∧
      node.read modulesKey (readModuleConfig real config.modules) config.modules =
        .ok config'.modules := by
  simp only [readParserConfig, bind_eq_ok_iff]
  constructor
  · rintro ⟨_, hcomment, _, hthreads, _, hinterval, _, hstream, _, hreport, _, hmodules, hresult⟩
    cases hresult
    exact ⟨hcomment, hthreads, hinterval, hstream, hreport, hmodules⟩
  · rintro ⟨hcomment, hthreads, hinterval, hstream, hreport, hmodules⟩
    exact ⟨_, hcomment, _, hthreads, _, hinterval, _, hstream, _, hreport, _, hmodules, rfl⟩

/-- The fields that `ReadSinkConfig` reads. -/
theorem readSinkConfig_eq_ok_iff {config config' : SinkConfig} :
    readSinkConfig real config node = .ok config' ↔
      node.read commentKey (Json.asString real) config.comment = .ok config'.comment ∧
      node.read numThreadsKey (Json.asInt real) config.numThreads = .ok config'.numThreads ∧
      node.read streamChannelSizeKey (Json.asInt real) config.streamChannelSize =
        .ok config'.streamChannelSize ∧
      node.read modulesKey (readModuleConfig real config.modules) config.modules =
        .ok config'.modules := by
  simp only [readSinkConfig, bind_eq_ok_iff]
  constructor
  · rintro ⟨_, hcomment, _, hthreads, _, hstream, _, hmodules, hresult⟩
    cases hresult
    exact ⟨hcomment, hthreads, hstream, hmodules⟩
  · rintro ⟨hcomment, hthreads, hstream, hmodules⟩
    exact ⟨_, hcomment, _, hthreads, _, hstream, _, hmodules, rfl⟩

/-- The fields that `ReadConfig` reads from the parsed document. -/
theorem readConfigNode_eq_ok_iff {config config' : Config} :
    readConfigNode real config node = .ok config' ↔
      node.read commentKey (Json.asString real) config.comment = .ok config'.comment ∧
      node.read logMethodKey (Json.asString real) config.logMethod = .ok config'.logMethod ∧
      node.read modulesKey (readModuleConfig real config.modules) config.modules =
        .ok config'.modules ∧
      node.read sourceKey (readSourceConfig real config.source) config.source =
        .ok config'.source ∧
      node.read parserKey (readParserConfig real config.parser) config.parser =
        .ok config'.parser ∧
      node.read sinkKey (readSinkConfig real config.sink) config.sink = .ok config'.sink := by
  simp only [readConfigNode, bind_eq_ok_iff]
  constructor
  · rintro ⟨_, hcomment, _, hlog, _, hmodules, _, hsource, _, hparser, _, hsink, hresult⟩
    cases hresult
    exact ⟨hcomment, hlog, hmodules, hsource, hparser, hsink⟩
  · rintro ⟨hcomment, hlog, hmodules, hsource, hparser, hsink⟩
    exact ⟨_, hcomment, _, hlog, _, hmodules, _, hsource, _, hparser, _, hsink, rfl⟩

/-- The integer fields of the section are values of an `int`, and its modules stand under their
own names. -/
def SourceConfig.WellFormed (config : SourceConfig) : Prop :=
  IntRange config.numThreads ∧ ModulesOk config.modules

/-- The integer fields of the section are values of an `int`, and its modules stand under their
own names. -/
def ParserConfig.WellFormed (config : ParserConfig) : Prop :=
  IntRange config.numThreads ∧ IntRange config.reportInterval ∧
    IntRange config.streamChannelSize ∧ IntRange config.reportChannelSize ∧
    ModulesOk config.modules

/-- The integer fields of the section are values of an `int`, and its modules stand under their
own names. -/
def SinkConfig.WellFormed (config : SinkConfig) : Prop :=
  IntRange config.numThreads ∧ IntRange config.streamChannelSize ∧ ModulesOk config.modules

/-- No integer field of the section is negative. -/
def SourceConfig.Nonneg (config : SourceConfig) : Prop := 0 ≤ config.numThreads

/-- No integer field of the section is negative. -/
def ParserConfig.Nonneg (config : ParserConfig) : Prop :=
  0 ≤ config.numThreads ∧ 0 ≤ config.reportInterval ∧ 0 ≤ config.streamChannelSize ∧
    0 ≤ config.reportChannelSize

/-- No integer field of the section is negative. -/
def SinkConfig.Nonneg (config : SinkConfig) : Prop :=
  0 ≤ config.numThreads ∧ 0 ≤ config.streamChannelSize

/-- A written source section is read back exactly when its integer field is not negative. -/
theorem readSourceConfig_write_iff {config : SourceConfig} (h : config.WellFormed) :
    readSourceConfig real {} (writeSourceConfig config) = .ok config ↔ config.Nonneg := by
  obtain ⟨hthreads, hmodules⟩ := h
  rw [readSourceConfig_eq_ok_iff, SourceConfig.Nonneg, ← Json.asInt_int_eq_iff real hthreads]
  simp only [writeSourceConfig, Json.read_object, findMember_setMember]
  constructor
  · rintro ⟨_, hread, _⟩
    exact hread
  · intro hread
    exact ⟨rfl, hread, readModuleConfig_writeModuleConfig hmodules⟩

/-- A written parser section is read back exactly when its integer fields are not negative. -/
theorem readParserConfig_write_iff {config : ParserConfig} (h : config.WellFormed) :
    readParserConfig real {} (writeParserConfig config) = .ok config ↔ config.Nonneg := by
  obtain ⟨hthreads, hinterval, hstream, hreport, hmodules⟩ := h
  rw [readParserConfig_eq_ok_iff, ParserConfig.Nonneg, ← Json.asInt_int_eq_iff real hthreads,
    ← Json.asInt_int_eq_iff real hinterval, ← Json.asInt_int_eq_iff real hstream,
    ← Json.asInt_int_eq_iff real hreport]
  simp only [writeParserConfig, Json.read_object, findMember_setMember]
  constructor
  · rintro ⟨_, hthreads, hinterval, hstream, hreport, _⟩
    exact ⟨hthreads, hinterval, hstream, hreport⟩
  · rintro ⟨hthreads, hinterval, hstream, hreport⟩
    exact ⟨rfl, hthreads, hinterval, hstream, hreport,
      readModuleConfig_writeModuleConfig hmodules⟩

/-- A written sink section is read back exactly when its integer fields are not negative. -/
theorem readSinkConfig_write_iff {config : SinkConfig} (h : config.WellFormed) :
    readSinkConfig real {} (writeSinkConfig config) = .ok config ↔ config.Nonneg := by
  obtain ⟨hthreads, hstream, hmodules⟩ := h
  rw [readSinkConfig_eq_ok_iff, SinkConfig.Nonneg, ← Json.asInt_int_eq_iff real hthreads,
    ← Json.asInt_int_eq_iff real hstream]
  simp only [writeSinkConfig, Json.read_object, findMember_setMember]
  constructor
  · rintro ⟨_, hthreads, hstream, _⟩
    exact ⟨hthreads, hstream⟩
  · rintro ⟨hthreads, hstream⟩
    exact ⟨rfl, hthreads, hstream, readModuleConfig_writeModuleConfig hmodules⟩

/-- The sections are well formed and the modules of the receivers stand under their own names. -/
def Config.WellFormed (config : Config) : Prop :=
  ModulesOk config.modules ∧ config.source.WellFormed ∧ config.parser.WellFormed ∧
    config.sink.WellFormed

/-- No integer field of a section is negative. -/
def Config.Nonneg (config : Config) : Prop :=
  config.source.Nonneg ∧ config.parser.Nonneg ∧ config.sink.Nonneg

/-- A written document is read back exactly when no integer field is negative. -/
theorem readConfigNode_write_iff {config : Config} (h : config.WellFormed) :
    readConfigNode real {} (writeConfigNode config) = .ok config ↔ config.Nonneg := by
  obtain ⟨hmodules, hsource, hparser, hsink⟩ := h
  rw [readConfigNode_eq_ok_iff, Config.Nonneg, ← readSourceConfig_write_iff (R := R) hsource,
    ← readParserConfig_write_iff (R := R) hparser, ← readSinkConfig_write_iff (R := R) hsink]
  simp only [writeConfigNode, Json.read_object, findMember_setMember]
  constructor
  · rintro ⟨_, _, _, hsource, hparser, hsink⟩
    exact ⟨hsource, hparser, hsink⟩
  · rintro ⟨hsource, hparser, hsink⟩
    exact ⟨rfl, rfl, readModuleConfig_writeModuleConfig hmodules, hsource, hparser, hsink⟩

/-- The thread number is given and the integer fields that are given are below `2 ^ 31`. -/
def FieldsOk (real : RealOps R) (fields : List Bytes) (node : Json R) : Prop :=
  FieldGiven node numThreadsKey ∧ ∀ key ∈ numThreadsKey :: fields, FieldOk real node key

/-- The document has the section, with its thread number and with integer fields below
`2 ^ 31`. -/
def SectionOk (real : RealOps R) (node : Json R) (key : Bytes) (fields : List Bytes) : Prop :=
  ∃ inner, node.find key = .ok (some inner) ∧ FieldsOk real fields inner

/-- The document has the three sections, each with its thread number, and every integer field that
it has is below `2 ^ 31`. -/
def DocumentOk (real : RealOps R) (node : Json R) : Prop :=
  SectionOk real node sourceKey [] ∧
    SectionOk real node parserKey [reportIntervalKey, streamChannelSizeKey, reportChannelSizeKey] ∧
    SectionOk real node sinkKey [streamChannelSizeKey]

/-- An empty dictionary has its modules under their own names. -/
theorem modulesOk_empty : ModulesOk ∅ := by
  intro name module hmodule
  simp at hmodule

/-- The default sections are well formed. -/
theorem wellFormed_default :
    ({} : SourceConfig).WellFormed ∧ ({} : ParserConfig).WellFormed ∧
      ({} : SinkConfig).WellFormed := by
  refine ⟨⟨by decide, modulesOk_empty⟩, ⟨by decide, by decide, by decide, by decide, ?_⟩,
    ⟨by decide, by decide, modulesOk_empty⟩⟩
  exact modulesOk_empty

/-- The modules that are read stand under their own names. -/
theorem Json.read_modules {modules : ModuleConfigDict}
    (h : node.read modulesKey (readModuleConfig real ∅) ∅ = .ok modules) : ModulesOk modules := by
  rcases Json.read_eq_ok_iff.mp h with ⟨_, _, hread⟩ | ⟨_, rfl⟩
  · exact readModuleConfig_ok hread
  · exact modulesOk_empty

/-- A thread number that is read is in range, and it is not negative exactly when the document
has it below `2 ^ 31`. -/
theorem Json.read_numThreads {threads : ℤ}
    (h : node.read numThreadsKey (Json.asInt real) (-1) = .ok threads) :
    IntRange threads ∧
      (0 ≤ threads ↔ FieldGiven node numThreadsKey ∧ FieldOk real node numThreadsKey) := by
  obtain ⟨hrange, hiff⟩ := Json.read_asInt (by decide : IntRange (-1)) h
  refine ⟨hrange, hiff.trans ⟨?_, ?_⟩⟩
  · rintro ⟨hok, hgiven⟩
    exact ⟨hgiven (by decide), hok⟩
  · rintro ⟨hgiven, hok⟩
    exact ⟨hok, fun _ => hgiven⟩

/-- An integer field with a default that is not negative is in range, and it is not negative
exactly when the document has no number from `2 ^ 31` on for it. -/
theorem Json.read_size {key : Bytes} {default size : ℤ} (hdefault : IntRange default)
    (hpos : 0 ≤ default) (h : node.read key (Json.asInt real) default = .ok size) :
    IntRange size ∧ (0 ≤ size ↔ FieldOk real node key) := by
  obtain ⟨hrange, hiff⟩ := Json.read_asInt hdefault h
  refine ⟨hrange, hiff.trans (and_iff_left fun hneg => ?_)⟩
  omega

/-- What is read from a source section. -/
theorem readSourceConfig_spec {config : SourceConfig}
    (h : readSourceConfig real {} node = .ok config) :
    config.WellFormed ∧ (config.Nonneg ↔ FieldsOk real [] node) := by
  obtain ⟨_, hthreads, hmodules⟩ := readSourceConfig_eq_ok_iff.mp h
  obtain ⟨hrange, hiff⟩ := Json.read_numThreads hthreads
  refine ⟨⟨hrange, Json.read_modules hmodules⟩, ?_⟩
  simpa [SourceConfig.Nonneg, FieldsOk] using hiff

/-- What is read from a parser section. -/
theorem readParserConfig_spec {config : ParserConfig}
    (h : readParserConfig real {} node = .ok config) :
    config.WellFormed ∧ (config.Nonneg ↔
      FieldsOk real [reportIntervalKey, streamChannelSizeKey, reportChannelSizeKey] node) := by
  obtain ⟨_, hthreads, hinterval, hstream, hreport, hmodules⟩ := readParserConfig_eq_ok_iff.mp h
  obtain ⟨hrange, hiff⟩ := Json.read_numThreads hthreads
  obtain ⟨hrange₁, hiff₁⟩ := Json.read_size (by decide : IntRange 60) (by decide) hinterval
  obtain ⟨hrange₂, hiff₂⟩ := Json.read_size (by decide : IntRange 512) (by decide) hstream
  obtain ⟨hrange₃, hiff₃⟩ := Json.read_size (by decide : IntRange 1024) (by decide) hreport
  refine ⟨⟨hrange, hrange₁, hrange₂, hrange₃, Json.read_modules hmodules⟩, ?_⟩
  simp only [ParserConfig.Nonneg, FieldsOk, hiff, hiff₁, hiff₂, hiff₃, List.forall_mem_cons,
    List.not_mem_nil, false_implies, implies_true, and_true, and_assoc]

/-- What is read from a sink section. -/
theorem readSinkConfig_spec {config : SinkConfig} (h : readSinkConfig real {} node = .ok config) :
    config.WellFormed ∧ (config.Nonneg ↔ FieldsOk real [streamChannelSizeKey] node) := by
  obtain ⟨_, hthreads, hstream, hmodules⟩ := readSinkConfig_eq_ok_iff.mp h
  obtain ⟨hrange, hiff⟩ := Json.read_numThreads hthreads
  obtain ⟨hrange₁, hiff₁⟩ := Json.read_size (by decide : IntRange 512) (by decide) hstream
  refine ⟨⟨hrange, hrange₁, Json.read_modules hmodules⟩, ?_⟩
  simp only [SinkConfig.Nonneg, FieldsOk, hiff, hiff₁, List.forall_mem_cons,
    List.not_mem_nil, false_implies, implies_true, and_true, and_assoc]

/-- What is read for a section whose default has a negative field. -/
theorem Json.read_section {A : Type} {good nonneg : A → Prop} {fields : List Bytes}
    {key : Bytes} {convert : Json R → Except Fault A} {default section' : A}
    (hconvert : ∀ inner a, convert inner = .ok a →
      good a ∧ (nonneg a ↔ FieldsOk real fields inner))
    (hdefault : good default) (hnegative : ¬ nonneg default)
    (h : node.read key convert default = .ok section') :
    good section' ∧ (nonneg section' ↔ SectionOk real node key fields) := by
  rcases Json.read_eq_ok_iff.mp h with ⟨inner, hfind, hread⟩ | ⟨hfind, rfl⟩
  · obtain ⟨hgood, hiff⟩ := hconvert inner section' hread
    refine ⟨hgood, hiff.trans ⟨fun hok => ⟨inner, hfind, hok⟩, ?_⟩⟩
    rintro ⟨inner', hfind', hok⟩
    obtain rfl := Option.some.inj (Except.ok.inj (hfind.symm.trans hfind'))
    exact hok
  · refine ⟨hdefault, iff_of_false hnegative ?_⟩
    rintro ⟨inner, hfind', _⟩
    simp [hfind] at hfind'

/-- A configuration that is read is well formed, and no integer field is negative exactly when the
document has them all in range. -/
theorem readConfigNode_spec {config : Config} (h : readConfigNode real {} node = .ok config) :
    config.WellFormed ∧ (config.Nonneg ↔ DocumentOk real node) := by
  obtain ⟨_, _, hmodules, hsource, hparser, hsink⟩ := readConfigNode_eq_ok_iff.mp h
  obtain ⟨hdefault₁, hdefault₂, hdefault₃⟩ := wellFormed_default
  obtain ⟨hgood₁, hiff₁⟩ := Json.read_section (fun _ _ => readSourceConfig_spec) hdefault₁
    (by simp [SourceConfig.Nonneg]) hsource
  obtain ⟨hgood₂, hiff₂⟩ := Json.read_section (fun _ _ => readParserConfig_spec) hdefault₂
    (by simp [ParserConfig.Nonneg]) hparser
  obtain ⟨hgood₃, hiff₃⟩ := Json.read_section (fun _ _ => readSinkConfig_spec) hdefault₃
    (by simp [SinkConfig.Nonneg]) hsink
  refine ⟨⟨Json.read_modules hmodules, hgood₁, hgood₂, hgood₃⟩, ?_⟩
  simp only [Config.Nonneg, DocumentOk, hiff₁, hiff₂, hiff₃]

/-- For every text that is read as a configuration, the configuration is written and read back as
it was exactly when the document gives every section its thread number and has no integer from
`2 ^ 31` on. -/
theorem readConfig_writeConfig_iff (real : RealOps R) (parse : Bytes → Option (Json R))
    (write : Json R → Bytes) (text : Bytes) (config : Config)
    (hread : readConfig real parse {} text = .ok config)
    (hparse : parse (write (writeConfigNode config)) = some (writeConfigNode config)) :
    readConfig real parse {} (writeConfig write config) = .ok config ↔
      ∃ node, parse text = some node ∧ DocumentOk real node := by
  unfold readConfig at hread
  cases htext : parse text with
  | none => simp [htext] at hread
  | some node =>
    simp only [htext] at hread
    obtain ⟨hgood, hiff⟩ := readConfigNode_spec hread
    rw [readConfig, writeConfig, hparse]
    simp only [readConfigNode_write_iff hgood, hiff, Option.some.injEq, exists_eq_left']

/-- No document of the concrete runs has a floating-point number. -/
def noReals : RealOps Empty where
  toUInt value := nomatch value
  toUInt64 value := nomatch value
  text value := nomatch value
  isFalse value := nomatch value

/-- The text that the styled writer makes of a configuration without comments and modules, for
these texts of the thread numbers. -/
def styledText (source parser sink : String) : Bytes :=
  ascii "\x7b\n   \"comment\" : \"\",\n   \"log_method\" : \"\",\n" ++
  ascii "   \"modules\" : \x7b\x7d,\n   \"parser\" : \x7b\n      \"comment\" : \"\",\n" ++
  ascii "      \"modules\" : \x7b\x7d,\n      \"num_threads\" : " ++ ascii parser ++
  ascii ",\n      \"report_channel_size\" : 1024,\n      \"report_interval\" : 60,\n" ++
  ascii "      \"stream_channel_size\" : 512\n   \x7d,\n   \"sink\" : \x7b\n" ++
  ascii "      \"comment\" : \"\",\n      \"modules\" : \x7b\x7d,\n      \"num_threads\" : " ++
  ascii sink ++ ascii ",\n      \"stream_channel_size\" : 512\n   \x7d,\n   \"source\" : \x7b\n" ++
  ascii "      \"comment\" : \"\",\n      \"modules\" : \x7b\x7d,\n      \"num_threads\" : " ++
  ascii source ++ ascii "\n   \x7d\n\x7d\n"

/-- What the parser answers on two texts. -/
def parseTexts (input : Bytes) (node : Json Empty) (output : Bytes) (node' : Json Empty)
    (text : Bytes) : Option (Json Empty) :=
  if text = output then some node' else if text = input then some node else none

theorem parseTexts_output (input : Bytes) (node : Json Empty) (output : Bytes)
    (node' : Json Empty) : parseTexts input node output node' output = some node' :=
  if_pos rfl

/-- A section of a document that only has its thread number. -/
def threadsNode (threads : ℤ) : Json Empty := .object [(numThreadsKey, .int threads)]

/-- A document with the thread numbers of the three sections. -/
def threadsText : Bytes :=
  ascii "\x7b\"parser\":\x7b\"num_threads\":2\x7d,\"sink\":\x7b\"num_threads\":1\x7d," ++
  ascii "\"source\":\x7b\"num_threads\":1\x7d\x7d"

/-- The configuration of that document. -/
def threadsConfig : Config where
  source := { numThreads := 1 }
  parser := { numThreads := 2 }
  sink := { numThreads := 1 }

/-- The parser on the document and on the text that is written for it. -/
def parseThreads : Bytes → Option (Json Empty) :=
  parseTexts threadsText
    (.object [(parserKey, threadsNode 2), (sinkKey, threadsNode 1), (sourceKey, threadsNode 1)])
    (styledText "1" "2" "1") (writeConfigNode threadsConfig)

/-- A document that gives the three thread numbers is read, written and read back. -/
theorem readConfig_writeConfig_iff_threads :
    readConfig noReals parseThreads {} threadsText = .ok threadsConfig ∧
      readConfig noReals parseThreads {} (styledText "1" "2" "1") = .ok threadsConfig ∧
      ∃ node, parseThreads threadsText = some node ∧ DocumentOk noReals node := by
  have hread : readConfig noReals parseThreads {} threadsText = .ok threadsConfig := by
    rw [readConfig, parseThreads, parseTexts, if_pos rfl]
    decide +kernel
  have hback : readConfig noReals parseThreads {} (styledText "1" "2" "1") = .ok threadsConfig := by
    rw [readConfig, parseThreads, parseTexts_output]
    decide +kernel
  refine ⟨hread, hback, ?_⟩
  exact (readConfig_writeConfig_iff noReals parseThreads (fun _ => styledText "1" "2" "1")
    threadsText threadsConfig hread (parseTexts_output _ _ _ _)).mp hback

/-- The parser on an empty document and on the text that is written for it. -/
def parseDefaults : Bytes → Option (Json Empty) :=
  parseTexts (ascii "\x7b\x7d") (.object []) (styledText "-1" "-1" "-1") (writeConfigNode {})

/-- The configuration of an empty document is written as a text that is refused. -/
theorem readConfig_refuses_written_defaults :
    ¬ ∀ (parse : Bytes → Option (Json Empty)) (write : Json Empty → Bytes) (text : Bytes)
      (config : Config), readConfig noReals parse {} text = .ok config →
      parse (write (writeConfigNode config)) = some (writeConfigNode config) →
        readConfig noReals parse {} (writeConfig write config) = .ok config := by
  intro hall
  have hread : readConfig noReals parseDefaults {} (ascii "\x7b\x7d") = .ok {} := by
    decide +kernel
  have hback := hall parseDefaults (fun _ => styledText "-1" "-1" "-1") (ascii "\x7b\x7d") {} hread
    (parseTexts_output _ _ _ _)
  have hrefused : readConfig noReals parseDefaults {} (styledText "-1" "-1" "-1") =
      .error (.logicError "LargestInt out of UInt range") := by
    rw [readConfig, parseDefaults, parseTexts_output]
    decide +kernel
  rw [writeConfig, hrefused] at hback
  cases hback

end Demos.Oak
