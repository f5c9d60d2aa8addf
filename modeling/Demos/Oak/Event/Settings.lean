import Demos.Lib.Assoc
import Demos.Oak.Decimal
import Demos.Oak.Event.Model

/-!
# The settings of an event

`EventToParserModuleConfig` skips the arguments of an event that have no key or no value. The others
are settings, and the last setting of each key decides: it gives the entry of the module's
dictionary, the number of the protocol and the name. The module is built exactly if each protocol
setting is a number that fits.
-/

namespace Demos.Oak

open Demos.Lib

variable {dir key value : Bytes} {module module' : ModuleConfig} {arg : Bytes × Bytes}
  {args : List (Bytes × Bytes)} {event : IncomingEvent}

/-- The argument has a key and a value. -/
def IsSetting (arg : Bytes × Bytes) : Prop := arg.1 ≠ [] ∧ arg.2 ≠ []

instance : Decidable (IsSetting arg) := inferInstanceAs (Decidable (_ ∧ _))

/-- The arguments that are not skipped. -/
def settings (args : List (Bytes × Bytes)) : List (Bytes × Bytes) := args.filter (IsSetting ·)

/-- The last setting of a key has the value. -/
def LastSetting (args : List (Bytes × Bytes)) (key value : Bytes) : Prop :=
  ∃ before after, settings args = before ++ (key, value) :: after ∧ ∀ arg ∈ after, arg.1 ≠ key

/-- An argument without a key or a value is skipped. -/
theorem addArg_of_not_isSetting (h : ¬ IsSetting arg) : module.addArg dir arg = .ok module := by
  have hempty : arg.1 = [] ∨ arg.2 = [] := by
    by_contra hboth
    exact h (not_or.mp hboth)
  rw [ModuleConfig.addArg, if_pos hempty]

/-- The loop runs over the settings. -/
theorem foldlM_addArg_eq (module : ModuleConfig) : args.foldlM (ModuleConfig.addArg dir) module =
    (settings args).foldlM (ModuleConfig.addArg dir) module := by
  rw [settings, List.foldlM_filter]
  congr 1
  funext module arg
  split
  next => rfl
  next hskip => exact addArg_of_not_isSetting (by simpa using hskip)

/-- What a setting does to a module: it is filed in the dictionary, and a protocol number or a file
name is stored as well. -/
structure Puts (arg : Bytes × Bytes) (module module' : ModuleConfig) : Prop where
  config : module'.config = module.config.insert arg.1 arg.2
  id : arg.1 = oakProtocolType → ∃ n, stoi arg.2 = .ok n ∧ module'.id = UInt64.ofInt n
  id_keep : arg.1 ≠ oakProtocolType → module'.id = module.id
  name : arg.1 = oakFileName → module'.name = moduleName (basename arg.2)
  name_keep : arg.1 ≠ oakFileName → module'.name = module.name

/-- A setting that is stored does what it does. -/
theorem addArg_puts (hset : IsSetting arg) (h : module.addArg dir arg = .ok module') :
    Puts arg module module' := by
  rw [ModuleConfig.addArg, if_neg (not_or.mpr hset)] at h
  have hkeys : oakProtocolType ≠ oakFileName := by decide
  split at h
  next hkey =>
    obtain ⟨n, hn, rfl⟩ := map_eq_ok_iff.mp h
    exact ⟨rfl, fun _ => ⟨n, hn, rfl⟩, absurd hkey,
      fun hfile => absurd (hkey.symm.trans hfile) hkeys,
      fun _ => rfl⟩
  next hkey =>
    split at h
    next hfile =>
      cases h
      exact ⟨rfl, fun hnum => absurd hnum hkey, fun _ => rfl, fun _ => rfl, absurd hfile⟩
    next hfile =>
      cases h
      exact ⟨rfl, fun hnum => absurd hnum hkey, fun _ => rfl, fun h => absurd h hfile, fun _ => rfl⟩

/-- A setting is stored unless it is a protocol number that the conversion rejects. -/
theorem exists_addArg (h : arg.1 = oakProtocolType → ∃ n, stoi arg.2 = .ok n)
    (module : ModuleConfig) : ∃ module', module.addArg dir arg = .ok module' := by
  unfold ModuleConfig.addArg
  split
  next => exact ⟨_, rfl⟩
  next =>
    split
    next hkey =>
      obtain ⟨n, hn⟩ := h hkey
      exact ⟨_, by rw [hn]; rfl⟩
    next => split <;> exact ⟨_, rfl⟩

theorem isSetting_of_mem (h : arg ∈ settings args) : IsSetting arg := by
  simpa using (List.mem_filter.mp h).2

/-- The loop files the settings in the dictionary. -/
theorem foldlM_addArg_config {l : List (Bytes × Bytes)} (hset : ∀ arg ∈ l, IsSetting arg)
    (h : l.foldlM (ModuleConfig.addArg dir) module = .ok module') :
    module'.config = module.config.insertMany l := by
  induction l generalizing module with
  | nil =>
    cases h
    simp
  | cons arg l ih =>
    rw [List.foldlM_cons, bind_eq_ok_iff] at h
    obtain ⟨next, hnext, hrest⟩ := h
    obtain ⟨harg, hl⟩ := List.forall_mem_cons.mp hset
    rw [ih hl hrest, (addArg_puts harg hnext).config, Std.ExtTreeMap.insertMany_cons]

/-- The module of an event is what the loop leaves, enabled. -/
theorem eventToParserModuleConfig_eq_ok_iff : eventToParserModuleConfig dir event = .ok module ↔
    event.type = .parser ∧
      ∃ read, (settings event.args).foldlM (ModuleConfig.addArg dir) {} = .ok read ∧
        { read with enable := true } = module := by
  rw [eventToParserModuleConfig, foldlM_addArg_eq]
  simp [bind_eq_ok_iff, pure, Except.pure]

section Loop

variable (hloop : (settings args).foldlM (ModuleConfig.addArg dir) {} = .ok module)
include hloop

theorem getElem?_config_iff : module.config[key]? = some value ↔ LastSetting args key value := by
  rw [foldlM_addArg_config (fun _ => isSetting_of_mem) hloop, getElem?_insertMany_eq_some_iff]
  simp [LastSetting]

/-- The dictionary lacks the keys that no setting has. -/
theorem getElem?_config_eq_none_iff :
    module.config[key]? = none ↔ ∀ arg ∈ settings args, arg.1 ≠ key := by
  rw [Option.eq_none_iff_forall_ne_some]
  simp only [ne_eq, getElem?_config_iff hloop]
  constructor
  · intro hnone
    obtain ⟨value, hlast⟩ | hne := exists_last_or_forall_ne (settings args) key
    · exact absurd hlast (hnone value)
    · exact hne
  · rintro hne value ⟨before, after, hsplit, -⟩
    exact hne (key, value) (by simp [hsplit]) rfl

/-- What only the settings of a key change is as the last of them leaves it. -/
theorem slot_of_lastSetting {A : Type} (slot : ModuleConfig → A)
    (hkeep : ∀ arg t t', Puts arg t t' → arg.1 ≠ key → slot t' = slot t)
    (hlast : LastSetting args key value) :
    ∃ t t', Puts (key, value) t t' ∧ slot module = slot t' := by
  obtain ⟨before, after, hsplit, hafter⟩ := hlast
  have hset : ∀ arg ∈ before ++ (key, value) :: after, IsSetting arg :=
    fun arg harg => isSetting_of_mem (hsplit ▸ harg)
  have hafter' : ∀ arg ∈ after, ∀ t t', t.addArg dir arg = .ok t' → slot t' = slot t := by
    intro arg harg t t' hbody
    have hputs : Puts arg t t' := addArg_puts (hset arg (by simp [harg])) hbody
    exact hkeep arg t t' hputs (hafter arg harg)
  rw [hsplit] at hloop
  obtain ⟨t, t', hbody, hslot⟩ := foldlM_last slot hafter' hloop
  exact ⟨t, t', addArg_puts (hset _ (by simp)) hbody, hslot⟩

/-- The number of the module is that of the last protocol setting. -/
theorem id_of_lastSetting (hlast : LastSetting args oakProtocolType value) :
    ∃ n, stoi value = .ok n ∧ module.id = UInt64.ofInt n := by
  obtain ⟨t, t', hputs, hid⟩ :=
    slot_of_lastSetting hloop ModuleConfig.id (fun _ _ _ hputs => hputs.id_keep) hlast
  obtain ⟨n, hn, hstored⟩ := hputs.id rfl
  exact ⟨n, hn, hid.trans hstored⟩

/-- The name of the module is that of the last file. -/
theorem name_of_lastSetting (hlast : LastSetting args oakFileName value) :
    module.name = moduleName (basename value) := by
  obtain ⟨t, t', hputs, hname⟩ :=
    slot_of_lastSetting hloop ModuleConfig.name (fun _ _ _ hputs => hputs.name_keep) hlast
  exact hname.trans (hputs.name rfl)

/-- Without a file the module has no name. -/
theorem name_of_forall_ne (hnone : ∀ arg ∈ settings args, arg.1 ≠ oakFileName) :
    module.name = [] :=
  foldlM_keeps ModuleConfig.name
    (fun arg harg _ _ hs => (addArg_puts (isSetting_of_mem harg) hs).name_keep (hnone arg harg))
    hloop

/-- The module has a name exactly if the last file gives it one. -/
theorem name_ne_nil_iff : module.name ≠ [] ↔
    ∃ file, LastSetting args oakFileName file ∧ moduleName (basename file) ≠ [] := by
  constructor
  · intro hname
    obtain ⟨file, hlast⟩ | hnone := exists_last_or_forall_ne (settings args) oakFileName
    · exact ⟨file, hlast, name_of_lastSetting hloop hlast ▸ hname⟩
    · exact absurd (name_of_forall_ne hloop hnone) hname
  · rintro ⟨file, hlast, hne⟩
    rwa [name_of_lastSetting hloop hlast]

end Loop

/-- The loop returns exactly if each protocol setting is a number that fits. -/
theorem exists_foldlM_addArg_iff :
    (∃ module, (settings args).foldlM (ModuleConfig.addArg dir) {} = .ok module) ↔
      ∀ arg ∈ settings args, arg.1 = oakProtocolType → ∃ n, stoi arg.2 = .ok n := by
  constructor
  · rintro ⟨module, hloop⟩ arg harg hkey
    obtain ⟨t, t', hbody⟩ := exists_body_eq_ok hloop harg
    obtain ⟨n, hn, -⟩ := (addArg_puts (isSetting_of_mem harg) hbody).id hkey
    exact ⟨n, hn⟩
  · intro hnumbers
    exact exists_foldlM_eq_ok (fun arg harg module => exists_addArg (hnumbers arg harg) module) {}

end Demos.Oak
