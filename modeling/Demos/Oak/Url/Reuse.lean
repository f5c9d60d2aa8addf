import Demos.Oak.Url.Decode
import Demos.Oak.Url.Returns
import Demos.Oak.Url.Script

/-!
# Parsing into an object that was used before

A member is overwritten exactly if the string has its piece, so a call mixes the pieces of its
string with the members of the object as it was. A call that gives up leaves what the pieces before
the first unreadable one have written.
-/

namespace Demos.Oak

open Demos.Lib

/-- Decoding makes a text empty only if it was. -/
theorem percentDecode_eq_nil_iff {str res : Bytes} (h : percentDecode str = some res) :
    res = [] ↔ str = [] := by
  cases decodes_of_percentDecode h <;> simp

/-- Every part of the authority can be decoded, and the port is a number. -/
structure Authority.Readable (parts : Authority) : Prop where
  host : (percentDecode parts.host).isSome
  hostIpv6 : (percentDecode parts.hostIpv6).isSome
  port : (percentDecode parts.port).any (·.all isDigit)
  user : (percentDecode parts.user).isSome
  password : (percentDecode parts.password).isSome

namespace Pieces

/-- There is something to read, and every piece can be read. -/
structure Readable (p : Pieces) : Prop where
  text : p.text ≠ []
  scheme : ∀ scheme ∈ p.scheme, validScheme scheme = true ∧ p.rest ≠ []
  auth : p.auth ≠ [] → ∃ parts ∈ parseAuthority p.auth, parts.Readable
  path : (percentDecode p.path).isSome
  query : (parseQuery (p.query.getD [])).isOk
  fragment : (percentDecode (p.fragment.getD [])).isSome

/-- The string has no piece for the member. -/
def Lacks (p : Pieces) : UrlMember → Prop
  | .scheme => p.scheme = none
  | .path => p.path = []
  | .query => p.query.getD [] = []
  | .fragment => p.fragment = none
  | _ => p.auth = []

/-- Neither the string nor, where the string lacks the piece, the object has a host or a path. -/
def Nowhere (p : Pieces) (u : Url) : Prop :=
  (p.auth = [] → u.host = [] ∧ u.hostIpv6 = []) ∧
    (p.auth ≠ [] → ∀ parts ∈ parseAuthority p.auth, parts.host = [] ∧ parts.hostIpv6 = []) ∧
    p.path = [] ∧ u.path = []

/-- The object already has what the pieces before the first unreadable one write. -/
def Held (p : Pieces) (u : Url) : Prop :=
  ∀ member value, (Url.script p).writes member = some value → u.get member = value

end Pieces

namespace Url

variable {u u' : Url} {str : Bytes} {p : Pieces}

section Stop

/-- A text goes through exactly if it can be decoded. -/
@[simp]
theorem decodeScript_stop {write : Bytes → UrlPatch} :
    (decodeScript write str).stop = none ↔ (percentDecode str).isSome := by
  rw [decodeScript]
  cases percentDecode str <;> simp [Script.fail, Script.put]

/-- A scheme goes through exactly if it is valid and something follows it. -/
theorem schemeScript_stop {scheme : Option Bytes} :
    (schemeScript scheme str).stop = none ↔
      ∀ s ∈ scheme, validScheme s = true ∧ str ≠ [] := by
  cases scheme with
  | none => simp [schemeScript, Script.skip]
  | some scheme =>
    rw [schemeScript]
    split
    next hinvalid => simp [hinvalid, Script.fail]
    next hvalid => simp [hvalid]

/-- An authority goes through exactly if its parts can be read. -/
theorem authScript_stop :
    (authScript str).stop = none ↔
      (str ≠ [] → ∃ parts ∈ parseAuthority str, parts.Readable) := by
  rw [authScript]
  split
  next hnil => simp [hnil, Script.skip]
  next hne =>
    cases parseAuthority str with
    | none => simp [hne, Script.fail]
    | some parts =>
      have hport : (portScript parts.port).stop = none ↔
          (percentDecode parts.port).any (·.all isDigit) := by
        rw [portScript]
        cases percentDecode parts.port <;> simp [Script.fail]
      have hlower : (lowerScript parts).stop = none := rfl
      simp only [partsScript, Script.andThen_stop_eq_none, decodeScript_stop, hport, hlower,
        and_true, ne_eq, hne, not_false_eq_true, forall_const, Option.mem_def,
        Option.some.injEq, exists_eq_left']
      constructor
      · rintro ⟨hhost, hhostIpv6, hport, huser, hpassword⟩
        exact ⟨hhost, hhostIpv6, hport, huser, hpassword⟩
      · rintro ⟨hhost, hhostIpv6, hport, huser, hpassword⟩
        exact ⟨hhost, hhostIpv6, hport, huser, hpassword⟩

/-- A path goes through exactly if it can be decoded. -/
theorem pathScript_stop : (pathScript str).stop = none ↔ (percentDecode str).isSome := by
  rw [pathScript]
  split
  next hnil => simp [hnil, Script.skip, percentDecode]
  next => exact decodeScript_stop

/-- A query goes through exactly if it can be parsed. -/
theorem queryScript_stop {query : Option Bytes} :
    (queryScript query).stop = none ↔ (parseQuery (query.getD [])).isOk := by
  rw [queryScript]
  split
  next hnil =>
    rw [hnil]
    exact iff_of_true rfl rfl
  next =>
    cases parseQuery (query.getD []) <;>
      simp [Script.fail, Script.put, Except.isOk, Except.toBool]

/-- A fragment goes through exactly if it can be decoded. -/
theorem fragmentScript_stop {fragment : Option Bytes} :
    (fragmentScript fragment).stop = none ↔ (percentDecode (fragment.getD [])).isSome := by
  cases fragment with
  | none => simp [fragmentScript, Script.skip, percentDecode]
  | some fragment => exact decodeScript_stop

/-- A string goes through exactly if every piece can be read. -/
theorem script_stop_eq_none_iff : (script p).stop = none ↔ p.Readable := by
  rw [script]
  split
  next hnil =>
    refine iff_of_false (by simp [Script.fail]) fun hreadable => hreadable.text hnil
  next hne =>
    simp only [Script.andThen_stop_eq_none, schemeScript_stop, authScript_stop, pathScript_stop,
      queryScript_stop, fragmentScript_stop]
    constructor
    · rintro ⟨hscheme, hauth, hpath, hquery, hfragment⟩
      exact ⟨hne, hscheme, hauth, hpath, hquery, hfragment⟩
    · intro hreadable
      exact ⟨hreadable.scheme, hreadable.auth, hreadable.path, hreadable.query,
        hreadable.fragment⟩

end Stop

section Writes

variable {m : UrlMember}

/-- A new value is written to its own member only. -/
theorem write_eq_none_iff {k : UrlMember} {value : k.Value} : k.write value m = none ↔ k ≠ m := by
  by_cases h : k = m
  · subst h
    simp [UrlMember.write]
  · simp [UrlMember.write, Patch.single_of_ne value h, h]

/-- A text that can be decoded writes its member. -/
theorem decodeScript_writes {write : Bytes → UrlPatch} {k : UrlMember}
    (h : (decodeScript write str).stop = none) (hwrite : ∀ res, write res m = none ↔ k ≠ m) :
    (decodeScript write str).writes m = none ↔ k ≠ m := by
  obtain ⟨res, hres⟩ := Option.isSome_iff_exists.mp (decodeScript_stop.mp h)
  simp only [decodeScript, hres]
  exact hwrite res

/-- A scheme writes its member. -/
theorem schemeScript_writes {scheme : Option Bytes} (h : (schemeScript scheme str).stop = none) :
    (schemeScript scheme str).writes m = none ↔ (m = .scheme → scheme = none) := by
  cases scheme with
  | none => simp [schemeScript, Script.skip, Patch.empty]
  | some scheme =>
    have hvalid : ¬ validScheme scheme = false := by
      simp [(schemeScript_stop.mp h scheme rfl).1]
    simp [schemeScript, if_neg hvalid, write_eq_none_iff, @eq_comm _ m]

/-- The members that an authority writes. -/
def authorityMembers : List UrlMember := [.host, .hostIpv6, .port, .user, .password]

/-- The parts of an authority write all of its members. -/
theorem partsScript_writes {parts : Authority} (h : (partsScript parts).stop = none) :
    (partsScript parts).writes m = none ↔ m ∉ authorityMembers := by
  simp only [partsScript, Script.andThen_stop_eq_none] at h
  obtain ⟨hhost, hhostIpv6, hport, huser, hpassword, -⟩ := h
  have hports : (portScript parts.port).writes m = none ↔ .port ≠ m := by
    rw [portScript] at hport ⊢
    cases hdecode : percentDecode parts.port with
    | none => simp [hdecode, Script.fail] at hport
    | some port => exact write_eq_none_iff
  have hlower : (lowerScript parts).writes m = none ↔ .host ≠ m ∧ .hostIpv6 ≠ m := by
    simp only [lowerScript, Script.put, Patch.andThen, Option.or_eq_none_iff, write_eq_none_iff]
    exact and_comm
  rw [partsScript, Script.andThen_writes_eq_none hhost, Script.andThen_writes_eq_none hhostIpv6,
    Script.andThen_writes_eq_none hport, Script.andThen_writes_eq_none huser,
    Script.andThen_writes_eq_none hpassword,
    decodeScript_writes (k := .host) hhost fun _ => write_eq_none_iff,
    decodeScript_writes (k := .hostIpv6) hhostIpv6 fun _ => write_eq_none_iff, hports,
    decodeScript_writes (k := .user) huser fun _ => write_eq_none_iff,
    decodeScript_writes (k := .password) hpassword fun _ => write_eq_none_iff, hlower]
  cases m <;> simp [authorityMembers]

/-- An authority that is there writes all of its members. -/
theorem authScript_writes (h : (authScript str).stop = none) :
    (authScript str).writes m = none ↔ (m ∈ authorityMembers → str = []) := by
  rw [authScript] at h ⊢
  split
  next hnil => simp [hnil, Script.skip, Patch.empty]
  next hne =>
    rw [if_neg hne] at h
    cases hparts : parseAuthority str with
    | none => simp [hparts, Script.fail] at h
    | some parts =>
      simp only [hparts] at h
      simp [partsScript_writes h, hne]

/-- A path that is there writes its member. -/
theorem pathScript_writes (h : (pathScript str).stop = none) :
    (pathScript str).writes m = none ↔ (m = .path → str = []) := by
  rw [pathScript] at h ⊢
  split
  next hnil => simp [hnil, Script.skip, Patch.empty]
  next hne =>
    rw [if_neg hne] at h
    rw [decodeScript_writes (k := .path) h fun _ => write_eq_none_iff]
    simp [hne, @eq_comm _ m]

/-- A query that is there writes its member. -/
theorem queryScript_writes {query : Option Bytes} (h : (queryScript query).stop = none) :
    (queryScript query).writes m = none ↔ (m = .query → query.getD [] = []) := by
  rw [queryScript] at h ⊢
  split
  next hnil => simp [hnil, Script.skip, Patch.empty]
  next hne =>
    rw [if_neg hne] at h
    cases hparse : parseQuery (query.getD []) with
    | error stop => simp [hparse, Script.fail] at h
    | ok dict => simp [Script.put, write_eq_none_iff, hne, @eq_comm _ m]

/-- A fragment writes its member. -/
theorem fragmentScript_writes {fragment : Option Bytes}
    (h : (fragmentScript fragment).stop = none) :
    (fragmentScript fragment).writes m = none ↔ (m = .fragment → fragment = none) := by
  cases fragment with
  | none => simp [fragmentScript, Script.skip, Patch.empty]
  | some fragment =>
    rw [fragmentScript, decodeScript_writes (k := .fragment) h fun _ => write_eq_none_iff]
    simp [@eq_comm _ m]

/-- A readable string writes the members that it has pieces for. -/
theorem script_writes_eq_none_iff (h : p.Readable) :
    (script p).writes m = none ↔ p.Lacks m := by
  have hstop := script_stop_eq_none_iff.mpr h
  rw [script, if_neg h.text] at hstop ⊢
  simp only [Script.andThen_stop_eq_none] at hstop
  obtain ⟨hscheme, hauth, hpath, hquery, hfragment⟩ := hstop
  rw [Script.andThen_writes_eq_none hscheme, Script.andThen_writes_eq_none hauth,
    Script.andThen_writes_eq_none hpath, Script.andThen_writes_eq_none hquery,
    schemeScript_writes hscheme, authScript_writes hauth, pathScript_writes hpath,
    queryScript_writes hquery, fragmentScript_writes hfragment]
  cases m <;> simp [Pieces.Lacks, authorityMembers]

/-- A script that goes through keeps the members it does not write. -/
theorem get_of_writes {a : UrlScript} {P Q : Prop} (hrun : a.run fields u = .ok u')
    (hwrites : a.stop = none → (a.writes m = none ↔ (P → Q))) (h : ¬ P) : u'.get m = u.get m :=
  Script.get_of_run fields hrun fun hstop => (hwrites hstop).mpr (absurd · h)

end Writes

/-- The hosts after an authority. -/
theorem hosts_eq_nil_iff
    (h : (if str = [] then .ok u else u.storeAuthority str) = Except.ok u') :
    (u'.host = [] ∧ u'.hostIpv6 = []) ↔
      (str = [] → u.host = [] ∧ u.hostIpv6 = []) ∧
        (str ≠ [] → ∀ parts ∈ parseAuthority str, parts.host = [] ∧ parts.hostIpv6 = []) := by
  split at h
  next hnil =>
    cases h
    simp [hnil]
  next hne =>
    obtain ⟨parts, hparts, hholds, -⟩ := storeAuthority_eq_ok_iff.mp h
    obtain ⟨host, hhost, hlower⟩ := Option.map_eq_some_iff.mp hholds.host
    obtain ⟨hostIpv6, hhostIpv6, hlower'⟩ := Option.map_eq_some_iff.mp hholds.hostIpv6
    rw [← hlower, ← hlower', List.map_eq_nil_iff, List.map_eq_nil_iff,
      percentDecode_eq_nil_iff hhost, percentDecode_eq_nil_iff hhostIpv6]
    simp [hne, hparts]

/-- The path after a path. -/
theorem path_eq_nil_iff (h : u.storePath str = .ok u') :
    u'.path = [] ↔ str = [] ∧ u.path = [] := by
  rw [storePath] at h
  split at h
  next hnil =>
    cases h
    simp [hnil]
  next hne =>
    obtain ⟨res, hres, rfl⟩ := decodeInto_eq_ok_iff.mp h
    simp [percentDecode_eq_nil_iff hres, hne]

/-- What the test at the end of a call sees once every piece is read. -/
theorem nowhere_iff (h : (script p).run fields u = .ok u') :
    (u'.host = [] ∧ u'.hostIpv6 = [] ∧ u'.path = []) ↔ p.Nowhere u := by
  rw [script] at h
  split at h
  next => simp at h
  next =>
    simp only [Script.run_andThen, bind_eq_ok_iff] at h
    obtain ⟨u₁, hscheme, u₂, hauth, u₃, hpath, u₄, hquery, hfragment⟩ := h
    -- Only the authority and the path write what the test reads.
    have hhost₁ : u₁.host = u.host :=
      get_of_writes (m := .host) hscheme schemeScript_writes (by decide)
    have hhostIpv6₁ : u₁.hostIpv6 = u.hostIpv6 :=
      get_of_writes (m := .hostIpv6) hscheme schemeScript_writes (by decide)
    have hpath₂ : u₂.path = u.path :=
      calc u₂.path = u₁.path := get_of_writes (m := .path) hauth authScript_writes (by decide)
        _ = u.path := get_of_writes (m := .path) hscheme schemeScript_writes (by decide)
    have hlast : ∀ m, m ≠ .query → m ≠ .fragment → u'.get m = u₃.get m := fun m hq hf =>
      calc u'.get m = u₄.get m := get_of_writes hfragment fragmentScript_writes hf
        _ = u₃.get m := get_of_writes hquery queryScript_writes hq
    have hhost : u'.host = u₂.host :=
      calc u'.host = u₃.host := hlast .host (by decide) (by decide)
        _ = u₂.host := get_of_writes (m := .host) hpath pathScript_writes (by decide)
    have hhostIpv6 : u'.hostIpv6 = u₂.hostIpv6 :=
      calc u'.hostIpv6 = u₃.hostIpv6 := hlast .hostIpv6 (by decide) (by decide)
        _ = u₂.hostIpv6 := get_of_writes (m := .hostIpv6) hpath pathScript_writes (by decide)
    have hpath₃ : u'.path = u₃.path := hlast .path (by decide) (by decide)
    rw [run_authScript] at hauth
    rw [run_pathScript] at hpath
    rw [hhost, hhostIpv6, hpath₃, ← and_assoc, hosts_eq_nil_iff hauth, path_eq_nil_iff hpath,
      hpath₂, hhost₁, hhostIpv6₁, and_assoc]
    rfl

section Calls

variable (hwf : p.WellFormed) (htrim : trim str = p.text)
include hwf htrim

/-- A string that cannot be read is rejected, and leaves what was written. -/
theorem parse_of_not_readable (h : ¬ p.Readable) :
    u.parse str = .error (.rejected, u.patch (script p).writes) := by
  have hparse : u.parse str = (script p).run fields u >>= accept := parse_eq_run hwf htrim
  cases hstop : (script p).stop with
  | none => exact absurd (script_stop_eq_none_iff.mp hstop) h
  | some stop =>
    simp only [Script.run, hstop] at hparse
    cases stop with
    | rejected => exact hparse
    | loops => exact absurd hparse (ends_parse u str _)

/-- A string that can be read is rejected if the object then has no host and no path. -/
theorem parse_of_nowhere (h : p.Readable) (hnowhere : p.Nowhere u) :
    u.parse str = .error (.rejected, u.patch (script p).writes) := by
  have hrun : (script p).run fields u = .ok (u.patch (script p).writes) :=
    (Script.run_eq_ok_iff fields).mpr ⟨script_stop_eq_none_iff.mpr h, rfl⟩
  rw [parse_eq_run hwf htrim, hrun]
  exact if_pos ((nowhere_iff hrun).mpr hnowhere)

/-- A string that can be read is accepted if the object then has a host or a path. -/
theorem parse_of_not_nowhere (h : p.Readable) (hnowhere : ¬ p.Nowhere u) :
    u.parse str = .ok (u.patch (script p).writes) := by
  have hrun : (script p).run fields u = .ok (u.patch (script p).writes) :=
    (Script.run_eq_ok_iff fields).mpr ⟨script_stop_eq_none_iff.mpr h, rfl⟩
  rw [parse_eq_run hwf htrim, hrun]
  exact if_neg (mt (nowhere_iff hrun).mp hnowhere)

end Calls

/-- What a call returns, if it returns. -/
def returned : Except (Stop × Url) Url → Option Bool
  | .ok _ => some true
  | .error (.rejected, _) => some false
  | .error (.loops, _) => none

/-- The object after a call. -/
def left : Except (Stop × Url) Url → Url
  | .ok u => u
  | .error (_, u) => u

/-- Two calls return the same, and leave the same object if they return `true`. -/
def SameResult (r₁ r₂ : Except (Stop × Url) Url) : Prop :=
  ∃ value, returned r₁ = some value ∧ returned r₂ = some value ∧
    (value = true → left r₁ = left r₂)

theorem SameResult.symm {r₁ r₂ : Except (Stop × Url) Url} (h : SameResult r₁ r₂) :
    SameResult r₂ r₁ := by
  obtain ⟨value, h₁, h₂, hleft⟩ := h
  exact ⟨value, h₂, h₁, fun htrue => (hleft htrue).symm⟩

/-- If the string can be read, the two objects agree on every member that it has no piece for, or
there is no host and no path either in the string or in the objects. -/
def AgreeOutside (str : Bytes) (u₁ u₂ : Url) : Prop :=
  ∀ p : Pieces, p.WellFormed → trim str = p.text → p.Readable →
    (∀ member, p.Lacks member → u₁.get member = u₂.get member) ∨ p.Nowhere u₁ ∧ p.Nowhere u₂

/-- The string can be read and gives a host or a path, or the object already has what the pieces
before the first unreadable one write. -/
def WritesNothingNew (str : Bytes) (u : Url) : Prop :=
  ∀ p : Pieces, p.WellFormed → trim str = p.text → p.Readable ∧ ¬ p.Nowhere u ∨ p.Held u

/-- Readable strings leave equal objects exactly if these agree on what the string lacks. -/
theorem patch_eq_patch_iff_lacks {u₁ u₂ : Url} (h : p.Readable) :
    u₁.patch (script p).writes = u₂.patch (script p).writes ↔
      ∀ member, p.Lacks member → u₁.get member = u₂.get member :=
  fields.patch_eq_patch_iff.trans
    (forall_congr' fun _ => imp_congr_left (script_writes_eq_none_iff h))

/-- Objects that agree on what a string lacks are both without host and path afterwards, or neither
is. -/
theorem nowhere_congr {u₁ u₂ : Url} (h : p.Readable)
    (hagree : ∀ member, p.Lacks member → u₁.get member = u₂.get member) :
    p.Nowhere u₁ ↔ p.Nowhere u₂ := by
  have hrun : ∀ u : Url, (script p).run fields u = .ok (u.patch (script p).writes) := fun u =>
    (Script.run_eq_ok_iff fields).mpr ⟨script_stop_eq_none_iff.mpr h, rfl⟩
  rw [← nowhere_iff (hrun u₁), ← nowhere_iff (hrun u₂), (patch_eq_patch_iff_lacks h).mpr hagree]

section Results

variable {u₁ u₂ : Url} (hwf : p.WellFormed) (htrim : trim str = p.text)
include hwf htrim

/-- Two calls with a readable string of which only the first leaves an object without host and path
do not give the same result. -/
theorem not_sameResult (h : p.Readable) (hnowhere : p.Nowhere u₁) (hsome : ¬ p.Nowhere u₂) :
    ¬ SameResult (u₁.parse str) (u₂.parse str) := by
  rw [parse_of_nowhere hwf htrim h hnowhere, parse_of_not_nowhere hwf htrim h hsome]
  rintro ⟨value, hfalse, htrue, -⟩
  exact absurd (hfalse.trans htrue.symm) (by simp [returned])

/-- When two calls with a readable string give the same result. -/
theorem sameResult_iff_of_readable (h : p.Readable) :
    SameResult (u₁.parse str) (u₂.parse str) ↔
      (∀ member, p.Lacks member → u₁.get member = u₂.get member) ∨
        p.Nowhere u₁ ∧ p.Nowhere u₂ := by
  have hagree := @nowhere_congr p u₁ u₂ h
  by_cases h₁ : p.Nowhere u₁
  · by_cases h₂ : p.Nowhere u₂
    · rw [parse_of_nowhere hwf htrim h h₁, parse_of_nowhere hwf htrim h h₂]
      exact iff_of_true ⟨false, rfl, rfl, nofun⟩ (.inr ⟨h₁, h₂⟩)
    · refine iff_of_false (not_sameResult hwf htrim h h₁ h₂) ?_
      rintro (heq | hboth)
      · exact h₂ ((hagree heq).mp h₁)
      · exact h₂ hboth.2
  · by_cases h₂ : p.Nowhere u₂
    · refine iff_of_false (fun hsame => not_sameResult hwf htrim h h₂ h₁ hsame.symm) ?_
      rintro (heq | hboth)
      · exact h₁ ((hagree heq).mpr h₂)
      · exact h₁ hboth.1
    · rw [parse_of_not_nowhere hwf htrim h h₁, parse_of_not_nowhere hwf htrim h h₂,
        or_iff_left fun hboth => h₁ hboth.1, ← patch_eq_patch_iff_lacks h]
      constructor
      · rintro ⟨value, htrue, -, hleft⟩
        exact hleft (Option.some.inj htrue).symm
      · intro heq
        exact ⟨true, rfl, rfl, fun _ => heq⟩

/-- When a call that fails keeps the object. -/
theorem keeps_iff_held :
    (returned (u.parse str) = some false → left (u.parse str) = u) ↔
      p.Readable ∧ ¬ p.Nowhere u ∨ p.Held u := by
  by_cases hlocated : p.Readable ∧ ¬ p.Nowhere u
  · rw [parse_of_not_nowhere hwf htrim hlocated.1 hlocated.2]
    exact iff_of_true nofun (.inl hlocated)
  · have hreject : u.parse str = .error (.rejected, u.patch (script p).writes) := by
      by_cases hreadable : p.Readable
      · have hnowhere : p.Nowhere u := by
          by_contra hnot
          exact hlocated ⟨hreadable, hnot⟩
        exact parse_of_nowhere hwf htrim hreadable hnowhere
      · exact parse_of_not_readable hwf htrim hreadable
    rw [hreject, or_iff_right hlocated]
    simp only [returned, left, forall_const]
    exact fields.patch_eq_self_iff

end Results

/-- Every string has pieces, so a fact about each way to cut it is a fact about the string. -/
theorem iff_forall_pieces {P : Prop} {Q : Pieces → Prop}
    (h : ∀ p : Pieces, p.WellFormed → trim str = p.text → (P ↔ Q p)) :
    P ↔ ∀ p : Pieces, p.WellFormed → trim str = p.text → Q p := by
  obtain ⟨p, hwf, htext⟩ := exists_pieces (trim str)
  constructor
  · intro hp q hwf' htrim
    exact (h q hwf' htrim).mp hp
  · intro hall
    exact (h p hwf htext.symm).mpr (hall p hwf htext.symm)

/-- Two calls with one string give the same result exactly if the string cannot be read, or the two
objects agree on every member it has no piece for, or both are without host and path in the end. -/
theorem parse_sameResult_iff (str : Bytes) (u₁ u₂ : Url) :
    SameResult (u₁.parse str) (u₂.parse str) ↔ AgreeOutside str u₁ u₂ := by
  refine iff_forall_pieces fun p hwf htrim => ?_
  by_cases hreadable : p.Readable
  · rw [sameResult_iff_of_readable hwf htrim hreadable]
    simp [hreadable]
  · rw [parse_of_not_readable hwf htrim hreadable, parse_of_not_readable hwf htrim hreadable]
    exact iff_of_true ⟨false, rfl, rfl, nofun⟩ (absurd · hreadable)

/-- A call that fails keeps the object exactly if the object already has what the pieces before the
first unreadable one write. -/
theorem parse_keeps_iff (str : Bytes) (u : Url) :
    (returned (u.parse str) = some false → left (u.parse str) = u) ↔ WritesNothingNew str u :=
  iff_forall_pieces fun _ hwf htrim => keeps_iff_held hwf htrim

/-- The object after the given calls. -/
def after (strs : List String) : Url :=
  strs.foldl (fun u str => left (u.parse (ascii str))) {}

/-- A string without an authority keeps the credentials of the URL that was parsed before. -/
theorem parse_mixes_credentials :
    ¬ ∀ (str : Bytes) (u₁ u₂ : Url), SameResult (u₁.parse str) (u₂.parse str) := by
  intro hall
  obtain ⟨value, hvalue, -, hleft⟩ := hall (ascii "/x") {} (after ["http://u:p@h/y"])
  have htrue : returned (({} : Url).parse (ascii "/x")) = some true := by decide +kernel
  have huser : (left (({} : Url).parse (ascii "/x"))).user ≠
      (left ((after ["http://u:p@h/y"]).parse (ascii "/x"))).user := by
    decide +kernel
  exact huser (congrArg Url.user (hleft (Option.some.inj (hvalue.symm.trans htrue))))

/-- A scheme with nothing behind it is rejected after it has been stored. -/
theorem parse_fails_changed :
    ¬ ∀ (str : Bytes) (u : Url),
      returned (u.parse str) = some false → left (u.parse str) = u := by
  intro hall
  have hfalse : returned ((after ["http://h/y"]).parse (ascii "ftp://")) = some false := by
    decide +kernel
  have hscheme : (left ((after ["http://h/y"]).parse (ascii "ftp://"))).scheme ≠
      (after ["http://h/y"]).scheme := by
    decide +kernel
  exact hscheme (congrArg Url.scheme (hall _ _ hfalse))

end Url

end Demos.Oak
