import Demos.Lib.Scan
import Demos.Oak.Event.Settings

/-!
# Events that end the process

The arguments of an event come from outside and are not checked. The conversions of `<string>` throw
where a text is no number or the number is too large, `UpdateParser` asserts that there is a task
and `ParserHandleFactory` that there is a name. An event is taken exactly if its settings pass them
all; then the number of the module is the one of the protocol.
-/

namespace Demos.Oak

open Demos.Lib

variable {Handle : Type} {dir : Bytes} {module : ModuleConfig} {args : List (Bytes × Bytes)}
  {event : IncomingEvent} {config : Dict}

section Name

variable {pre post file : Bytes}

/-- A path without slashes is its own base name. -/
theorem basename_of_notMem (h : byteOf '/' ∉ file) : basename file = file := by
  rw [basename, rfind_eq_none (c := 47) h]

/-- The base name starts at the last slash. -/
theorem basename_append (h : byteOf '/' ∉ post) :
    basename (pre ++ byteOf '/' :: post) = byteOf '/' :: post := by
  have hfind : rfind (pre ++ byteOf '/' :: post) 47 = some pre.length := rfind_append_cons h
  rw [basename, hfind]
  exact List.drop_left

/-- A file without dots is the name of the module. -/
theorem moduleName_of_notMem (h : byteOf '.' ∉ file) : moduleName file = file := by
  rw [moduleName, rfind_eq_none (c := 46) h]

/-- The name of the module ends at the last dot. -/
theorem moduleName_append (h : byteOf '.' ∉ post) :
    moduleName (pre ++ byteOf '.' :: post) = pre := by
  have hfind : rfind (pre ++ byteOf '.' :: post) 46 = some pre.length := rfind_append_cons h
  rw [moduleName, hfind]
  exact List.take_left

/-- A name is empty exactly if the only dot is at the start. -/
theorem moduleName_eq_nil_iff (hne : file ≠ []) :
    moduleName file = [] ↔ ∃ rest, file = byteOf '.' :: rest ∧ byteOf '.' ∉ rest := by
  by_cases hdot : byteOf '.' ∈ file
  · obtain ⟨pre, post, rfl, hpost⟩ := exists_last_cut hdot
    rw [moduleName_append hpost]
    constructor
    · rintro rfl
      exact ⟨post, rfl, hpost⟩
    · rintro ⟨rest, heq, hrest⟩
      cases pre with
      | nil => rfl
      | cons c pre =>
        obtain ⟨-, rfl⟩ := List.cons.inj heq
        exact absurd (by simp) hrest
  · rw [moduleName_of_notMem hdot]
    refine iff_of_false hne ?_
    rintro ⟨rest, rfl, -⟩
    exact hdot List.mem_cons_self

/-- A file gives no name exactly if it is a dot and a text without dots and slashes. -/
theorem moduleName_basename_eq_nil_iff (hne : file ≠ []) :
    moduleName (basename file) = [] ↔
      ∃ rest, file = byteOf '.' :: rest ∧ byteOf '.' ∉ rest ∧ byteOf '/' ∉ rest := by
  by_cases hslash : byteOf '/' ∈ file
  · obtain ⟨pre, post, rfl, hpost⟩ := exists_last_cut hslash
    rw [basename_append hpost, moduleName_eq_nil_iff (List.cons_ne_nil _ _)]
    refine iff_of_false ?_ ?_
    · rintro ⟨rest, heq, -⟩
      exact absurd (List.cons.inj heq).1 (by decide)
    · rintro ⟨rest, heq, -, hrest⟩
      rw [heq, List.mem_cons] at hslash
      exact hslash.elim (by decide) hrest
  · rw [basename_of_notMem hslash, moduleName_eq_nil_iff hne]
    constructor
    · rintro ⟨rest, rfl, hdot⟩
      exact ⟨rest, rfl, hdot, fun hmem => hslash (List.mem_cons_of_mem _ hmem)⟩
    · rintro ⟨rest, heq, hdot, -⟩
      exact ⟨rest, heq, hdot⟩

end Name

section Tag

variable {key : Bytes}

/-- An integer of the dictionary is read exactly if its text is a number. -/
theorem exists_readTag_iff {default : ℤ} : (∃ n, readTag config key default = .ok n) ↔
    ∀ text, config[key]? = some text → ∃ n, stoll text = .ok n := by
  unfold readTag
  cases config[key]? <;> simp

/-- Another integer than the default is one of the dictionary. -/
theorem exists_readTag_ne_iff {default : ℤ} :
    (∃ n, readTag config key default = .ok n ∧ n ≠ default) ↔
      ∃ text n, config[key]? = some text ∧ stoll text = .ok n ∧ n ≠ default := by
  unfold readTag
  cases config[key]? <;> simp

/-- The tag is prepared exactly if the dictionary has a task other than the default and no
application type that is no number. -/
theorem exists_protocolTag_iff : (∃ tag, protocolTag config = .ok tag) ↔
    (∃ text n, config[oakTaskId]? = some text ∧ stoll text = .ok n ∧ n ≠ -1) ∧
      ∀ text, config[oakAppType]? = some text → ∃ n, stoll text = .ok n := by
  rw [← exists_readTag_ne_iff, ← @exists_readTag_iff _ oakAppType 0]
  simp only [protocolTag, bind_eq_ok_iff, assert_eq_ok_iff]
  constructor
  · rintro ⟨tag, n, hn, _, hne, app, happ, -⟩
    exact ⟨⟨n, hn, hne⟩, app, happ⟩
  · rintro ⟨⟨n, hn, hne⟩, app, happ⟩
    exact ⟨_, n, hn, (), hne, app, happ, rfl⟩

/-- `UpdateParser` returns exactly if the tag is prepared and the module has a name. -/
theorem exists_updateParser_iff (context : ParserContext Handle) (load : LoadOutcome Handle) :
    (∃ result, updateParser context module load = .ok result) ↔
      (∃ tag, protocolTag module.config = .ok tag) ∧ module.name ≠ [] := by
  simp only [updateParser, parserHandleFactory, bind_eq_ok_iff, assert_eq_ok_iff]
  constructor
  · rintro ⟨result, tag, htag, object, ⟨_, hname, -⟩, -⟩
    exact ⟨⟨tag, htag⟩, hname⟩
  · rintro ⟨⟨tag, htag⟩, hname⟩
    cases openParser module load with
    | none => exact ⟨_, tag, htag, none, ⟨(), hname, rfl⟩, rfl⟩
    | some object => exact ⟨_, tag, htag, some object, ⟨(), hname, rfl⟩, rfl⟩

end Tag

/-- The settings that the two calls need. -/
structure Acceptable (args : List (Bytes × Bytes)) : Prop where
  /-- Each protocol is a number that fits into an `int`. -/
  protocol : ∀ arg ∈ settings args, arg.1 = oakProtocolType → ∃ n, stoi arg.2 = .ok n
  /-- The last task is a number of 64 bits other than the default. -/
  task : ∃ text n, LastSetting args oakTaskId text ∧ stoll text = .ok n ∧ n ≠ -1
  /-- The last application type is a number of 64 bits. -/
  app : ∀ text, LastSetting args oakAppType text → ∃ n, stoll text = .ok n
  /-- The last file is not a dot and a text without dots and slashes. -/
  file : ∃ file, LastSetting args oakFileName file ∧
    ¬ ∃ rest, file = byteOf '.' :: rest ∧ byteOf '.' ∉ rest ∧ byteOf '/' ∉ rest

/-- `EventToParserModuleConfig` and then `UpdateParser` return, and a protocol that is the decimal
text of an unsigned number of 64 bits is the number of the module. -/
def TakesEvent (dir : Bytes) (context : ParserContext Handle)
    (load : LoadOutcome Handle) (event : IncomingEvent) : Prop :=
  ∃ module result, eventToParserModuleConfig dir event = .ok module ∧
    updateParser context module load = .ok result ∧
    ∀ v : UInt64, LastSetting event.args oakProtocolType (ascii (toString v.toNat)) → module.id = v

/-- The decimal text of a number that `stoi` accepts is read as the number. -/
theorem ofInt_of_stoi_decimal {v : UInt64} {n : ℤ}
    (h : stoi (ascii (toString v.toNat)) = .ok n) : UInt64.ofInt n = v := by
  have htext : strtol (ascii (toString v.toNat)) = some (v.toNat : ℤ) := strtol_formatLd v.toNat
  rw [stoi, stringToInt, htext] at h
  split at h
  next heq => cases heq
  next value heq =>
    cases heq
    split at h
    next =>
      have hmod : (v.toNat : ℤ) % 2 ^ 64 = v.toNat := Int.emod_eq_of_lt (by omega) (by
        have hlt := v.toNat_lt
        omega)
      rw [← Except.ok.inj h]
      change UInt64.ofNat ((v.toNat : ℤ) % 2 ^ 64).toNat = v
      rw [hmod, Int.toNat_natCast, UInt64.ofNat_toNat]
    next => cases h

theorem LastSetting.ne_nil {key value : Bytes} (h : LastSetting args key value) : value ≠ [] := by
  obtain ⟨before, after, hsplit, -⟩ := h
  have hmem : (key, value) ∈ settings args := by simp [hsplit]
  exact (isSetting_of_mem hmem).2

/-- A parser event is taken exactly if its settings are acceptable. -/
theorem takesEvent_iff (dir : Bytes) (context : ParserContext Handle) (load : LoadOutcome Handle)
    (htype : event.type = .parser) : TakesEvent dir context load event ↔ Acceptable event.args := by
  constructor
  · rintro ⟨module, result, hmodule, hupdate, -⟩
    obtain ⟨-, read, hloop, rfl⟩ := eventToParserModuleConfig_eq_ok_iff.mp hmodule
    obtain ⟨htag, hname⟩ := (exists_updateParser_iff context load).mp ⟨result, hupdate⟩
    obtain ⟨⟨text, n, htext, hn⟩, happ⟩ := exists_protocolTag_iff.mp htag
    obtain ⟨file, hlast, hne⟩ := (name_ne_nil_iff hloop).mp hname
    exact {
      protocol := exists_foldlM_addArg_iff.mp ⟨read, hloop⟩
      task := ⟨text, n, (getElem?_config_iff hloop).mp htext, hn⟩
      app := fun text hlast => happ text ((getElem?_config_iff hloop).mpr hlast)
      file := ⟨file, hlast, (not_congr (moduleName_basename_eq_nil_iff hlast.ne_nil)).mp hne⟩ }
  · intro h
    obtain ⟨read, hloop⟩ := exists_foldlM_addArg_iff.mpr h.protocol
    obtain ⟨text, n, htext, hn⟩ := h.task
    obtain ⟨file, hlast, hfile⟩ := h.file
    have htag : ∃ tag, protocolTag read.config = .ok tag :=
      exists_protocolTag_iff.mpr ⟨⟨text, n, (getElem?_config_iff hloop).mpr htext, hn⟩,
        fun text hlast => h.app text ((getElem?_config_iff hloop).mp hlast)⟩
    have hname : read.name ≠ [] := (name_ne_nil_iff hloop).mpr
      ⟨file, hlast, (not_congr (moduleName_basename_eq_nil_iff hlast.ne_nil)).mpr hfile⟩
    have hupdate : ∃ result, updateParser context { read with enable := true } load = .ok result :=
      (exists_updateParser_iff context load).mpr ⟨htag, hname⟩
    obtain ⟨result, hresult⟩ := hupdate
    refine ⟨{ read with enable := true }, result,
      eventToParserModuleConfig_eq_ok_iff.mpr ⟨htype, read, hloop, rfl⟩, hresult, ?_⟩
    intro v hv
    obtain ⟨n, hn, hid⟩ := id_of_lastSetting hloop hv
    rw [hid, ofInt_of_stoi_decimal hn]

/-- A parser event with these arguments. -/
def parserEvent (args : List (Bytes × Bytes)) : IncomingEvent where
  type := .parser
  subtype := .add
  args := args

/-- The arguments of an event with a protocol, a file and a task. -/
def httpArgs : List (Bytes × Bytes) :=
  [(oakProtocolType, ascii "6"), (oakFileName, ascii "http.so"), (oakTaskId, ascii "1")]

/-- The context of the first parser thread. -/
def firstContext : ParserContext ℕ := .new 0 1

/-- An event with a protocol, a file and a task is taken, also if its module is not opened. -/
theorem takesEvent_http : (parserEvent httpArgs).type = .parser ∧
    TakesEvent [] firstContext .dlopenFailed (parserEvent httpArgs) := by
  have happ : ∀ arg ∈ settings httpArgs, arg.1 ≠ oakAppType := by decide
  refine ⟨rfl, (takesEvent_iff [] firstContext .dlopenFailed rfl).mpr ⟨?_, ?_, ?_, ?_⟩⟩
  · intro arg harg hkey
    have hvalue : ∀ arg ∈ settings httpArgs, arg.1 = oakProtocolType → stoi arg.2 = .ok 6 := by
      decide
    exact ⟨6, hvalue arg harg hkey⟩
  · exact ⟨ascii "1", 1, ⟨httpArgs.take 2, [], by decide, nofun⟩, by decide, by decide⟩
  · rintro text ⟨before, after, hsplit, -⟩
    have hmem : (oakAppType, text) ∈ settings (parserEvent httpArgs).args := by simp [hsplit]
    exact absurd rfl (happ _ hmem)
  · refine ⟨ascii "http.so", ⟨httpArgs.take 1, httpArgs.drop 2, by decide, by decide⟩, ?_⟩
    rintro ⟨rest, hfile, -⟩
    exact absurd (List.cons.inj hfile).1 (by decide)

/-- A protocol that is no number or does not fit, and an event without a task, end the process. -/
theorem takesEvent_fails :
    eventToParserModuleConfig [] (parserEvent [(oakProtocolType, ascii "http")]) =
        .error .invalidArgument ∧
      eventToParserModuleConfig [] (parserEvent [(oakProtocolType, ascii "3000000000")]) =
        .error .outOfRange ∧
      eventToParserModuleConfig [] (parserEvent []) = .ok { enable := true } ∧
      updateParser firstContext { enable := true } .dlopenFailed =
        .error (.assertion "tag.task_id != -1") ∧
      ¬ ∀ event : IncomingEvent, event.type = .parser →
        TakesEvent [] firstContext .dlopenFailed event := by
  have hthrows : eventToParserModuleConfig [] (parserEvent [(oakProtocolType, ascii "http")]) =
      .error .invalidArgument := by decide
  refine ⟨hthrows, by decide, by decide, rfl, fun hall => ?_⟩
  obtain ⟨module, result, hmodule, -⟩ := hall (parserEvent [(oakProtocolType, ascii "http")]) rfl
  rw [hthrows] at hmodule
  cases hmodule

end Demos.Oak
