import Demos.Oak.Event.Acceptance
import Demos.Oak.Fs.DirectoryName

/-!
# The file of a module

`DirectoryName` and `Basename` cut a path at the same slash, its last one. The slash stays with the
file, so the two parts make the path without another slash between them. The module of an event is
looked for behind two slashes, and its name begins with one.
-/

namespace Demos.Oak

open Demos.Lib

variable {dir path front file : Bytes} {module module' : ModuleConfig} {arg : Bytes × Bytes}
  {args : List (Bytes × Bytes)} {event : IncomingEvent}

/-- A path of a directory and a file with one slash between each two names. -/
structure IsFilePath (path : Bytes) : Prop where
  notMem_nul : 0 ∉ path
  length_lt : path.length < pathMax
  single : ¬ [47, 47] <:+: path
  last : path.getLast? ≠ some 47
  slash : ∃ pos, rfind path 47 = some pos ∧ 0 < pos

section Cut

/-- The path is cut at its last slash. -/
theorem IsFilePath.exists_cut (h : IsFilePath path) :
    ∃ front file, path = front ++ 47 :: file ∧ 47 ∉ file := by
  obtain ⟨pos, hpos, -⟩ := h.slash
  refine exists_last_cut (by_contra fun hmem => ?_)
  rw [rfind_eq_none hmem] at hpos
  cases hpos

/-- The directory is what stands before the slash. -/
theorem IsFilePath.directoryName_eq (h : IsFilePath (front ++ 47 :: file)) (hfile : 47 ∉ file) :
    directoryName (front ++ 47 :: file) = some front := by
  refine directoryName_of_strip_eq (by simp) h.notMem_nul (fitsPathMax_of_length_lt h.length_lt) ?_
    hfile
  rw [strip, collapse_eq_self h.single, dropFinal, if_neg h.last]

/-- The name of the module keeps a slash at the start of the file. -/
theorem mem_moduleName (file : Bytes) : 47 ∈ moduleName (47 :: file) := by
  by_cases hdot : byteOf '.' ∈ file
  · obtain ⟨pre, post, rfl, hpost⟩ := exists_last_cut hdot
    have hname : moduleName ((47 :: pre) ++ byteOf '.' :: post) = 47 :: pre :=
      moduleName_append hpost
    rw [← List.cons_append, hname]
    exact List.mem_cons_self
  · have hfile : byteOf '.' ∉ 47 :: file := List.not_mem_cons_of_ne_of_not_mem (by decide) hdot
    rw [moduleName_of_notMem hfile]
    exact List.mem_cons_self

end Cut

section Path

/-- A file name sets the path. -/
theorem path_addArg (hset : IsSetting (oakFileName, path))
    (h : module.addArg dir (oakFileName, path) = .ok module') :
    module'.path = dir ++ ascii "/" ++ basename path := by
  have hkeys : oakFileName ≠ oakProtocolType := by decide
  rw [ModuleConfig.addArg, if_neg (not_or.mpr hset), if_neg hkeys, if_pos rfl] at h
  rw [← Except.ok.inj h]

/-- The other settings keep the path. -/
theorem path_addArg_keep (hkey : arg.1 ≠ oakFileName) (h : module.addArg dir arg = .ok module') :
    module'.path = module.path := by
  rw [ModuleConfig.addArg] at h
  split at h
  next => rw [Except.ok.inj h]
  next =>
    split at h
    next =>
      obtain ⟨n, -, rfl⟩ := map_eq_ok_iff.mp h
      rfl
    next => rw [← Except.ok.inj h]

/-- The path of the module is that of the last file. -/
theorem path_of_lastSetting
    (hloop : (settings args).foldlM (ModuleConfig.addArg dir) {} = .ok module)
    (hlast : LastSetting args oakFileName path) :
    module.path = dir ++ ascii "/" ++ basename path := by
  obtain ⟨before, after, hsplit, hafter⟩ := hlast
  have hmem : (oakFileName, path) ∈ settings args := by simp [hsplit]
  rw [hsplit] at hloop
  obtain ⟨t, t', hbody, hpath⟩ := foldlM_last ModuleConfig.path
    (fun arg harg t t' hbody => path_addArg_keep (hafter arg harg) hbody) hloop
  exact hpath.trans (path_addArg (isSetting_of_mem hmem) hbody)

end Path

/-- The two parts of a path have one slash, and it is the first byte of the file: the parts make the
path as they are, and with a slash between them they do not. An event that names the file looks for
it behind two slashes, and the name of the module has a slash. -/
theorem basename_keeps_slash (hpath : IsFilePath path) :
    ∃ front file, path = front ++ ascii "/" ++ file ∧ 47 ∉ file ∧
      directoryName path = some front ∧ basename path = ascii "/" ++ file ∧
      front ++ ascii "/" ++ basename path ≠ path ∧
      ∀ dir event module, LastSetting event.args oakFileName path →
        eventToParserModuleConfig dir event = .ok module →
          module.path = dir ++ ascii "//" ++ file ∧ module.path ≠ dir ++ ascii "/" ++ file ∧
          47 ∈ module.name := by
  obtain ⟨front, file, rfl, hfile⟩ := hpath.exists_cut
  have hslash : ascii "/" = [47] := rfl
  have hbase : basename (front ++ 47 :: file) = 47 :: file := basename_append hfile
  refine ⟨front, file, by simp [hslash], hfile, hpath.directoryName_eq hfile, hbase, ?_, ?_⟩
  · rw [hbase, hslash]
    simp
  · intro dir event module hlast hmodule
    obtain ⟨-, read, hloop, rfl⟩ := eventToParserModuleConfig_eq_ok_iff.mp hmodule
    have hname : read.name = moduleName (47 :: file) := hbase ▸ name_of_lastSetting hloop hlast
    have hread : read.path = dir ++ ascii "/" ++ 47 :: file :=
      hbase ▸ path_of_lastSetting hloop hlast
    refine ⟨?_, ?_, ?_⟩
    · have hslashes : ascii "//" = [47, 47] := rfl
      simp [hread, hslash, hslashes]
    · simp [hread, hslash]
    · exact hname ▸ mem_moduleName file

/-- The event of a module in the directory of the addons. -/
def addonEvent : IncomingEvent := parserEvent [(oakFileName, ascii "addons/http.so")]

/-- A module is looked for behind two slashes. -/
theorem basename_keeps_slash_addon : IsFilePath (ascii "addons/http.so") ∧
    ∃ front file, ascii "addons/http.so" = front ++ ascii "/" ++ file ∧ 47 ∉ file ∧
      directoryName (ascii "addons/http.so") = some front := by
  have hpath : IsFilePath (ascii "addons/http.so") :=
    ⟨by decide, by decide, by decide, by decide, 6, by decide, by decide⟩
  obtain ⟨front, file, hcut, hfile, hfront, -⟩ := basename_keeps_slash hpath
  exact ⟨hpath, front, file, hcut, hfile, hfront⟩

/-- The file of `addons/http.so` is `/http.so`, and its module is `/http`, to be loaded from
`/opt//http.so`. -/
theorem addonEvent_module : basename (ascii "addons/http.so") = ascii "/http.so" ∧
    directoryName (ascii "addons/http.so") = some (ascii "addons") ∧
    ∃ module, eventToParserModuleConfig (ascii "/opt") addonEvent = .ok module ∧
      module.path = ascii "/opt//http.so" ∧ module.name = ascii "/http" := by
  refine ⟨by decide, by decide, _, rfl, ?_, ?_⟩ <;> decide

end Demos.Oak
