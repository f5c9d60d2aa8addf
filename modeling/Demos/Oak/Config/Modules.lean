import Demos.Oak.Config.ReadWrite

/-!
# Round trip of the module dictionaries

A dictionary that was read has its modules under their own names and keeps the reserved keys out
of the free-form part of a module. Such a dictionary is read back as it was written.
-/

namespace Demos.Oak

open Demos.Lib

variable {R : Type} {real : RealOps R} {node : Json R} {module module' : ModuleConfig}
  {key : Bytes}

/-- The keys that are not part of the free-form dictionary of a module. -/
def reservedKeys : List Bytes := [enableKey, pathKey, idKey]

/-- The module stands under its own name and its dictionary has no reserved key. -/
def ModuleOk (name : Bytes) (module : ModuleConfig) : Prop :=
  module.name = name ∧ ∀ key ∈ reservedKeys, module.config[key]? = none

/-- Every module of the dictionary stands under its own name, without reserved keys. -/
def ModulesOk (modules : ModuleConfigDict) : Prop :=
  ∀ name module, modules[name]? = some module → ModuleOk name module

/-- What one key of a module can change. -/
theorem ModuleConfig.readKey_eq_ok (h : module.readKey real node key = .ok module') :
    ∃ value, node.get key = .ok value ∧
      ((key = enableKey ∧ ∃ enable, value.asBool real = .ok enable ∧
          module' = { module with enable := enable }) ∨
        (key = pathKey ∧ ∃ path, value.asString real = .ok path ∧
          module' = { module with path := path }) ∨
        (key = idKey ∧ ∃ id, value.asUInt64 real = .ok id ∧ module' = { module with id := id }) ∨
        (key ∉ reservedKeys ∧ ∃ text, value.asString real = .ok text ∧
          module' = { module with config := module.config.insert key text })) := by
  unfold readKey at h
  rw [bind_eq_ok_iff] at h
  obtain ⟨value, hvalue, h⟩ := h
  refine ⟨value, hvalue, ?_⟩
  split_ifs at h with henable hpath hid
  · obtain ⟨enable, hread, hresult⟩ := bind_eq_ok_iff.mp h
    exact .inl ⟨henable, enable, hread, (Except.ok.inj hresult).symm⟩
  · obtain ⟨path, hread, hresult⟩ := bind_eq_ok_iff.mp h
    exact .inr (.inl ⟨hpath, path, hread, (Except.ok.inj hresult).symm⟩)
  · obtain ⟨id, hread, hresult⟩ := bind_eq_ok_iff.mp h
    exact .inr (.inr (.inl ⟨hid, id, hread, (Except.ok.inj hresult).symm⟩))
  · obtain ⟨text, hread, hresult⟩ := bind_eq_ok_iff.mp h
    have hfree : key ∉ reservedKeys := by simp [reservedKeys, henable, hpath, hid]
    exact .inr (.inr (.inr ⟨hfree, text, hread, (Except.ok.inj hresult).symm⟩))

/-- A key keeps the name of the module. -/
theorem ModuleConfig.readKey_name (h : module.readKey real node key = .ok module') :
    module'.name = module.name := by
  obtain ⟨_, _, hcases⟩ := readKey_eq_ok h
  rcases hcases with ⟨_, _, _, rfl⟩ | ⟨_, _, _, rfl⟩ | ⟨_, _, _, rfl⟩ | ⟨_, _, _, rfl⟩ <;> rfl

/-- Only the key `enable` changes whether the module is enabled. -/
theorem ModuleConfig.readKey_enable (h : module.readKey real node key = .ok module')
    (hkey : key ≠ enableKey) : module'.enable = module.enable := by
  obtain ⟨_, _, hcases⟩ := readKey_eq_ok h
  rcases hcases with ⟨heq, _⟩ | ⟨_, _, _, rfl⟩ | ⟨_, _, _, rfl⟩ | ⟨_, _, _, rfl⟩
  · exact absurd heq hkey
  all_goals rfl

/-- Only the key `path` changes the path of the module. -/
theorem ModuleConfig.readKey_path (h : module.readKey real node key = .ok module')
    (hkey : key ≠ pathKey) : module'.path = module.path := by
  obtain ⟨_, _, hcases⟩ := readKey_eq_ok h
  rcases hcases with ⟨_, _, _, rfl⟩ | ⟨heq, _⟩ | ⟨_, _, _, rfl⟩ | ⟨_, _, _, rfl⟩
  · rfl
  · exact absurd heq hkey
  all_goals rfl

/-- Only the key `id` changes the id of the module. -/
theorem ModuleConfig.readKey_id (h : module.readKey real node key = .ok module')
    (hkey : key ≠ idKey) : module'.id = module.id := by
  obtain ⟨_, _, hcases⟩ := readKey_eq_ok h
  rcases hcases with ⟨_, _, _, rfl⟩ | ⟨_, _, _, rfl⟩ | ⟨heq, _⟩ | ⟨_, _, _, rfl⟩
  · rfl
  · rfl
  · exact absurd heq hkey
  · rfl

/-- A key changes no other entry of the dictionary, and no entry if it is reserved. -/
theorem ModuleConfig.readKey_config (h : module.readKey real node key = .ok module')
    {other : Bytes} (hkey : key ≠ other ∨ key ∈ reservedKeys) :
    module'.config[other]? = module.config[other]? := by
  obtain ⟨_, _, hcases⟩ := readKey_eq_ok h
  rcases hcases with ⟨_, _, _, rfl⟩ | ⟨_, _, _, rfl⟩ | ⟨_, _, _, rfl⟩ | ⟨hfree, _, _, rfl⟩
  · rfl
  · rfl
  · rfl
  · have hne : key ≠ other := hkey.resolve_right hfree
    simp [Std.ExtTreeMap.getElem?_insert, hne]

/-- A module that was read has its own name and no reserved key in its dictionary. -/
theorem readModule_ok {name : Bytes} (h : readModule real node name = .ok module) :
    ModuleOk name module := by
  simp only [readModule, bind_eq_ok_iff] at h
  obtain ⟨moduleNode, _, keys, _, hloop⟩ := h
  constructor
  · exact foldlM_keeps ModuleConfig.name (fun k _ _ _ hk => ModuleConfig.readKey_name hk) hloop
  · intro reserved hreserved
    have hkeep : ∀ k ∈ keys, ∀ m m' : ModuleConfig, m.readKey real moduleNode k = .ok m' →
        m'.config[reserved]? = m.config[reserved]? := by
      intro k _ m m' hk
      apply ModuleConfig.readKey_config hk
      by_cases heq : k = reserved
      · exact .inr (heq ▸ hreserved)
      · exact .inl heq
    have hsame := foldlM_keeps (fun module => module.config[reserved]?) hkeep hloop
    simpa using hsame

section Names

variable {modules modules' : ModuleConfigDict} {name : Bytes}

/-- A name of the outer loop records the module that the inner loop reads. -/
theorem readName_slot (h : readName real node modules name = .ok modules') :
    (readModule real node name).map some = .ok modules'[name]? := by
  obtain ⟨module, hread, hresult⟩ := bind_eq_ok_iff.mp h
  cases hresult
  exact map_eq_ok_iff.mpr ⟨module, hread, by simp⟩

/-- A name of the outer loop leaves the other entries. -/
theorem readName_other {other : Bytes} (hne : name ≠ other)
    (h : readName real node modules name = .ok modules') : modules'[other]? = modules[other]? := by
  obtain ⟨module, _, hresult⟩ := bind_eq_ok_iff.mp h
  cases hresult
  simp [Std.ExtTreeMap.getElem?_insert, hne]

/-- A dictionary that was read has, under each name of the document, the module of that name. -/
theorem readModuleConfig_slot {names : List Bytes} (hnames : node.getMemberNames = .ok names)
    (h : readModuleConfig real modules node = .ok modules') (name : Bytes) :
    if name ∈ names then (readModule real node name).map some = .ok modules'[name]?
    else modules'[name]? = modules[name]? := by
  obtain ⟨names', hnames', hloop⟩ := bind_eq_ok_iff.mp h
  obtain rfl := Except.ok.inj (hnames.symm.trans hnames')
  split
  · rename_i hmem
    exact foldlM_slot (fun modules : ModuleConfigDict => modules[name]?)
      (fun _ _ hbody => readName_slot hbody)
      (fun k _ hne _ _ hbody => readName_other hne hbody) hmem hloop
  · rename_i hmem
    exact foldlM_keeps (fun modules : ModuleConfigDict => modules[name]?)
      (fun k hk _ _ hbody => readName_other (fun heq => hmem (heq ▸ hk)) hbody) hloop

/-- A dictionary that was read has its modules under their own names. -/
theorem readModuleConfig_ok (h : readModuleConfig real ∅ node = .ok modules) :
    ModulesOk modules := by
  intro name module hmodule
  obtain ⟨names, hnames, _⟩ := bind_eq_ok_iff.mp h
  have hslot := readModuleConfig_slot hnames h name
  rw [hmodule] at hslot
  split_ifs at hslot
  · obtain ⟨module', hread, hsome⟩ := map_eq_ok_iff.mp hslot
    cases hsome
    exact readModule_ok hread
  · simp at hslot

end Names

section Write

variable {V : Type} {m : Std.ExtTreeMap Bytes V} {name : Bytes × V → Bytes}
  {content : Bytes × V → Json R}

/-- The members that a loop over a map leaves, when it files every entry under its own key. -/
theorem findMember_foldl_toList (members : List (Bytes × Json R))
    (hname : ∀ entry ∈ m.toList, name entry = entry.1) (key : Bytes) :
    findMember key (m.toList.foldl
      (fun members entry => setMember (name entry) (content entry) members) members) =
      match m[key]? with
      | some value => some (content (key, value))
      | none => findMember key members := by
  have hentry : ∀ entry ∈ m.toList, name entry = key → m[key]? = some entry.2 := by
    rintro ⟨k, value⟩ hmem hkey
    obtain rfl : k = key := (hname _ hmem).symm.trans hkey
    exact Std.ExtTreeMap.mem_toList_iff_getElem?_eq_some.mp hmem
  cases hvalue : m[key]? with
  | some value =>
    have hmem := Std.ExtTreeMap.mem_toList_iff_getElem?_eq_some.mpr hvalue
    refine findMember_foldl ⟨(key, value), hmem, hname _ hmem⟩ ?_
    rintro ⟨k, value'⟩ hmem' hkey
    obtain rfl : k = key := (hname _ hmem').symm.trans hkey
    have hsame := hentry _ hmem' hkey
    rw [hvalue] at hsame
    rw [Option.some.inj hsame]
  | none =>
    refine findMember_foldl_of_ne ?_
    intro entry hmem hkey
    have hsome := hentry entry hmem hkey
    simp [hvalue] at hsome

end Write

/-- The member of a written module under each key. -/
theorem find_writeModule {name : Bytes} (h : ModuleOk name module) (key : Bytes) :
    (writeModule module : Json R).find key = .ok (
      if key = idKey then some (.int module.id.toNat)
      else if key = pathKey then some (.string module.path)
      else if key = enableKey then some (.bool module.enable)
      else module.config[key]?.map Json.string) := by
  simp only [writeModule, Json.find_object]
  rw [findMember_foldl_toList _ fun _ _ => rfl]
  simp only [findMember_setMember, findMember]
  by_cases hreserved : key ∈ reservedKeys
  · rw [h.2 key hreserved]
    simp only [reservedKeys, List.mem_cons, List.not_mem_nil, or_false] at hreserved
    rcases hreserved with rfl | rfl | rfl <;> rfl
  · simp only [reservedKeys, List.mem_cons, List.not_mem_nil, or_false, not_or] at hreserved
    obtain ⟨henable, hpath, hid⟩ := hreserved
    simp only [henable, hpath, hid, if_false]
    cases module.config[key]? <;> rfl

/-- The member of a written module under a free key. -/
theorem find_writeModule_free {name : Bytes} (h : ModuleOk name module)
    (hfree : key ∉ reservedKeys) :
    (writeModule module : Json R).find key = .ok (module.config[key]?.map Json.string) := by
  simp only [reservedKeys, List.mem_cons, List.not_mem_nil, or_false, not_or] at hfree
  rw [find_writeModule h, if_neg hfree.2.2, if_neg hfree.2.1, if_neg hfree.1]

/-- The member of a written dictionary under each name. -/
theorem find_writeModuleConfig {modules : ModuleConfigDict} (h : ModulesOk modules)
    (name : Bytes) :
    (writeModuleConfig modules : Json R).find name = .ok (modules[name]?.map writeModule) := by
  have hname : ∀ entry ∈ modules.toList, entry.2.name = entry.1 := by
    rintro ⟨k, module⟩ hmem
    exact (h k module (Std.ExtTreeMap.mem_toList_iff_getElem?_eq_some.mp hmem)).1
  rw [writeModuleConfig, Json.find_object, findMember_foldl_toList _ hname]
  cases modules[name]? <;> rfl

theorem mem_getMemberNames {members : List (Bytes × Json R)} {names : List Bytes}
    (hnames : (Json.object members).getMemberNames = .ok names) (key : Bytes) :
    key ∈ names ↔ ∃ value, (Json.object members).find key = .ok (some value) := by
  cases hnames
  simp only [mem_map_fst_iff, Json.find, Except.ok.injEq]


/-- A written module returns its keys. -/
theorem exists_getMemberNames_writeModule (module : ModuleConfig) :
    ∃ keys, (writeModule module : Json R).getMemberNames = .ok keys ∧
      ∀ key, key ∈ keys ↔ ∃ value, (writeModule module : Json R).find key = .ok (some value) := by
  unfold writeModule
  exact ⟨_, rfl, mem_getMemberNames rfl⟩

/-- A written dictionary returns its names. -/
theorem exists_getMemberNames_writeModuleConfig (modules : ModuleConfigDict) :
    ∃ names, (writeModuleConfig modules : Json R).getMemberNames = .ok names ∧
      ∀ name, name ∈ names ↔
        ∃ value, (writeModuleConfig modules : Json R).find name = .ok (some value) := by
  unfold writeModuleConfig
  exact ⟨_, rfl, mem_getMemberNames rfl⟩

theorem Json.get_of_find {value : Json R} (h : node.find key = .ok (some value)) :
    node.get key = .ok value := by
  simp [get, h, Except.map]

/-- An id fits the unsigned conversion that reads it. -/
theorem Json.asUInt64_int (id : UInt64) :
    (Json.int id.toNat : Json R).asUInt64 real = .ok id := by
  have hlt : 0 ≤ (id.toNat : ℤ) ∧ (id.toNat : ℤ) < 2 ^ 64 :=
    ⟨Int.natCast_nonneg _, by exact_mod_cast id.toNat_lt⟩
  rw [asUInt64, if_pos hlt]
  simp

/-- Reading a key is converting its value. -/
theorem ModuleConfig.readKey_of_get {value : Json R} (hget : node.get key = .ok value) :
    module.readKey real node key =
      if key = enableKey then (value.asBool real).map fun enable =>
        { module with enable := enable }
      else if key = pathKey then (value.asString real).map fun path => { module with path := path }
      else if key = idKey then (value.asUInt64 real).map fun id => { module with id := id }
      else (value.asString real).map fun text =>
        { module with config := module.config.insert key text } := by
  unfold readKey
  rw [hget]
  rfl

/-- Every key of a written module is read. -/
theorem exists_readKey_writeModule {name : Bytes} (h : ModuleOk name module) {value : Json R}
    (hfind : (writeModule module : Json R).find key = .ok (some value)) (s : ModuleConfig) :
    ∃ s', s.readKey real (writeModule module) key = .ok s' := by
  rw [ModuleConfig.readKey_of_get (Json.get_of_find hfind)]
  rw [find_writeModule h] at hfind
  split_ifs at hfind with hid hpath henable
  · cases hfind
    rw [hid, if_neg (by decide), if_neg (by decide), if_pos rfl, Json.asUInt64_int]
    exact ⟨_, rfl⟩
  · cases hfind
    rw [hpath, if_neg (by decide), if_pos rfl]
    exact ⟨_, rfl⟩
  · cases hfind
    rw [henable, if_pos rfl]
    exact ⟨_, rfl⟩
  · obtain ⟨text, _, rfl⟩ := Option.map_eq_some_iff.mp (Except.ok.inj hfind)
    rw [if_neg henable, if_neg hpath, if_neg hid]
    exact ⟨_, rfl⟩

section Slots

variable {value : Json R} {s s' : ModuleConfig}

/-- The key `enable` sets the flag to its value. -/
theorem readKey_enable_slot (hfind : node.find enableKey = .ok (some value))
    (h : s.readKey real node enableKey = .ok s') : value.asBool real = .ok s'.enable := by
  rw [ModuleConfig.readKey_of_get (Json.get_of_find hfind), if_pos rfl] at h
  obtain ⟨enable, hread, rfl⟩ := map_eq_ok_iff.mp h
  exact hread

/-- The key `path` sets the path to its value. -/
theorem readKey_path_slot (hfind : node.find pathKey = .ok (some value))
    (h : s.readKey real node pathKey = .ok s') : value.asString real = .ok s'.path := by
  rw [ModuleConfig.readKey_of_get (Json.get_of_find hfind), if_neg (by decide), if_pos rfl] at h
  obtain ⟨path, hread, rfl⟩ := map_eq_ok_iff.mp h
  exact hread

/-- The key `id` sets the id to its value. -/
theorem readKey_id_slot (hfind : node.find idKey = .ok (some value))
    (h : s.readKey real node idKey = .ok s') : value.asUInt64 real = .ok s'.id := by
  rw [ModuleConfig.readKey_of_get (Json.get_of_find hfind), if_neg (by decide),
    if_neg (by decide), if_pos rfl] at h
  obtain ⟨id, hread, rfl⟩ := map_eq_ok_iff.mp h
  exact hread

/-- A free key sets its entry of the dictionary to its value. -/
theorem readKey_config_slot (hfree : key ∉ reservedKeys)
    (hfind : node.find key = .ok (some value)) (h : s.readKey real node key = .ok s') :
    (value.asString real).map some = .ok s'.config[key]? := by
  simp only [reservedKeys, List.mem_cons, List.not_mem_nil, or_false, not_or] at hfree
  rw [ModuleConfig.readKey_of_get (Json.get_of_find hfind), if_neg hfree.1, if_neg hfree.2.1,
    if_neg hfree.2.2] at h
  obtain ⟨text, hread, rfl⟩ := map_eq_ok_iff.mp h
  exact map_eq_ok_iff.mpr ⟨text, hread, by simp⟩

end Slots

section ReadWritten

variable {name : Bytes} {keys : List Bytes} {s : ModuleConfig}

/-- The loop over the keys of a written module fills the dictionary of that module. -/
theorem readKeys_config (h : ModuleOk name module)
    (hkeys : ∀ key, key ∈ keys ↔
      ∃ value, (writeModule module : Json R).find key = .ok (some value))
    (hloop : keys.foldlM (ModuleConfig.readKey real (writeModule module)) { name := name } =
      .ok s) : s.config = module.config := by
  refine Std.ExtTreeMap.ext_getElem? fun key => ?_
  have hkeep (huntouched : key ∉ keys ∨ key ∈ reservedKeys) : s.config[key]? = none := by
    have hbody : ∀ k ∈ keys, ∀ m m' : ModuleConfig, m.readKey real (writeModule module) k = .ok m' →
        m'.config[key]? = m.config[key]? := by
      intro k hk m m' hread
      apply ModuleConfig.readKey_config hread
      by_cases heq : k = key
      · exact .inr (heq ▸ huntouched.resolve_left fun hnot => hnot (heq ▸ hk))
      · exact .inl heq
    simpa using foldlM_keeps (fun s : ModuleConfig => s.config[key]?) hbody hloop
  by_cases hreserved : key ∈ reservedKeys
  · rw [hkeep (.inr hreserved), h.2 key hreserved]
  · have hfind := find_writeModule_free (R := R) h hreserved
    cases htext : module.config[key]? with
    | none =>
      refine hkeep (.inl fun hmem => ?_)
      obtain ⟨value, hvalue⟩ := (hkeys key).mp hmem
      simp [hfind, htext] at hvalue
    | some text =>
      rw [htext] at hfind
      have hslot := foldlM_slot (fun s : ModuleConfig => s.config[key]?)
        (fun _ _ hbody => readKey_config_slot hreserved hfind hbody)
        (fun _ _ hne _ _ hbody => ModuleConfig.readKey_config hbody (.inl hne))
        ((hkeys key).mpr ⟨_, hfind⟩) hloop
      exact (Except.ok.inj hslot).symm

/-- The loop over the keys of a written module ends with that module. -/
theorem readKeys_writeModule (h : ModuleOk name module)
    (hkeys : ∀ key, key ∈ keys ↔
      ∃ value, (writeModule module : Json R).find key = .ok (some value))
    (hloop : keys.foldlM (ModuleConfig.readKey real (writeModule module)) { name := name } =
      .ok s) : s = module := by
  have hfind := find_writeModule (R := R) h
  have hname : s.name = name :=
    foldlM_keeps ModuleConfig.name (fun _ _ _ _ hbody => ModuleConfig.readKey_name hbody) hloop
  have henable : (Json.bool module.enable : Json R).asBool real = .ok s.enable :=
    foldlM_slot ModuleConfig.enable (fun _ _ hbody => readKey_enable_slot (hfind enableKey) hbody)
      (fun _ _ hne _ _ hbody => ModuleConfig.readKey_enable hbody hne)
      ((hkeys enableKey).mpr ⟨_, hfind enableKey⟩) hloop
  have hpath : (Json.string module.path : Json R).asString real = .ok s.path :=
    foldlM_slot ModuleConfig.path (fun _ _ hbody => readKey_path_slot (hfind pathKey) hbody)
      (fun _ _ hne _ _ hbody => ModuleConfig.readKey_path hbody hne)
      ((hkeys pathKey).mpr ⟨_, hfind pathKey⟩) hloop
  have hid : (Json.int module.id.toNat : Json R).asUInt64 real = .ok s.id :=
    foldlM_slot ModuleConfig.id (fun _ _ hbody => readKey_id_slot (hfind idKey) hbody)
      (fun _ _ hne _ _ hbody => ModuleConfig.readKey_id hbody hne)
      ((hkeys idKey).mpr ⟨_, hfind idKey⟩) hloop
  refine ModuleConfig.ext ?_ ?_ ?_ ?_ (readKeys_config h hkeys hloop)
  · rw [Json.asUInt64_int] at hid
    exact (Except.ok.inj hid).symm
  · exact hname.trans h.1.symm
  · exact (Except.ok.inj henable).symm
  · exact (Except.ok.inj hpath).symm

end ReadWritten

/-- A written dictionary reads each of its modules back. -/
theorem readModule_writeModuleConfig {modules : ModuleConfigDict} (h : ModulesOk modules)
    {name : Bytes} (hmodule : modules[name]? = some module) :
    readModule real (writeModuleConfig modules) name = .ok module := by
  have hok := h name module hmodule
  have hfind := find_writeModuleConfig (R := R) h name
  rw [hmodule] at hfind
  obtain ⟨keys, hnames, hkeys⟩ := exists_getMemberNames_writeModule (R := R) module
  have hreads : ∀ k ∈ keys, ∀ s : ModuleConfig,
      ∃ s', s.readKey real (writeModule module) k = .ok s' := by
    intro k hk s
    obtain ⟨value, hvalue⟩ := (hkeys k).mp hk
    exact exists_readKey_writeModule hok hvalue s
  obtain ⟨s, hloop⟩ := exists_foldlM_eq_ok hreads { name := name }
  obtain rfl := readKeys_writeModule hok hkeys hloop
  rw [readModule, Json.get_of_find hfind]
  simp only [bind_eq_ok_iff]
  exact ⟨_, rfl, keys, hnames, hloop⟩

/-- A dictionary whose modules stand under their own names is read back as it was written. -/
theorem readModuleConfig_writeModuleConfig {modules : ModuleConfigDict} (h : ModulesOk modules) :
    readModuleConfig real ∅ (writeModuleConfig modules) = .ok modules := by
  obtain ⟨names, hnames, hmem⟩ := exists_getMemberNames_writeModuleConfig (R := R) modules
  have hentry : ∀ name, name ∈ names ↔ ∃ module, modules[name]? = some module := by
    intro name
    rw [hmem, find_writeModuleConfig h]
    cases modules[name]? <;> simp
  have hreads : ∀ name ∈ names, ∀ s : ModuleConfigDict,
      ∃ s', readName real (writeModuleConfig modules) s name = .ok s' := by
    intro name hname s
    obtain ⟨module, hmodule⟩ := (hentry name).mp hname
    exact ⟨s.insert name module,
      bind_eq_ok_iff.mpr ⟨module, readModule_writeModuleConfig h hmodule, rfl⟩⟩
  obtain ⟨modules', hloop⟩ := exists_foldlM_eq_ok hreads ∅
  have hread : readModuleConfig real ∅ (writeModuleConfig modules) = .ok modules' :=
    bind_eq_ok_iff.mpr ⟨names, hnames, hloop⟩
  have hsame : modules' = modules := by
    refine Std.ExtTreeMap.ext_getElem? fun name => ?_
    have hslot := readModuleConfig_slot hnames hread name
    cases hmodule : modules[name]? with
    | none =>
      have hgone : name ∉ names := by simp [hentry, hmodule]
      rw [if_neg hgone] at hslot
      simpa using hslot
    | some module =>
      rw [if_pos ((hentry name).mpr ⟨module, hmodule⟩),
        readModule_writeModuleConfig h hmodule] at hslot
      exact (Except.ok.inj hslot).symm
  rw [hread, hsame]

end Demos.Oak
