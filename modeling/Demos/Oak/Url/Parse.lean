import Demos.Lib.SlotLoop
import Demos.Oak.Url.Pieces

/-!
# Parsing piece by piece

What `Url::Parse` does with a string is what it does with its pieces, one after the other, and for a
fresh object each piece alone decides on its members.
-/

namespace Demos.Oak

open Demos.Lib

namespace Url

variable {u u' : Url} {str : Bytes} {fuel : ℕ} {p : Pieces}

/-- Store the scheme; something has to follow it. -/
def storeScheme (u : Url) (scheme : Option Bytes) (rest : Bytes) : Except (Stop × Url) Url :=
  match scheme with
  | none => .ok u
  | some scheme =>
    if validScheme scheme = false then .error (.rejected, u)
    else if rest = [] then .error (.rejected, { u with scheme := scheme.map toLower })
    else .ok { u with scheme := scheme.map toLower }

/-- Store the path, if there is one. -/
def storePath (u : Url) (path : Bytes) : Except (Stop × Url) Url :=
  if path = [] then .ok u else decodeInto u path fun res => { u with path := res }

/-- Store the query, if there is one. -/
def storeQuery (u : Url) (query : Option Bytes) : Except (Stop × Url) Url :=
  if query.getD [] = [] then .ok u
  else
    match parseQuery (query.getD []) with
    | .error stop => .error (stop, u)
    | .ok query => .ok { u with query := query }

/-- Store the fragment, if there is one. -/
def storeFragment (u : Url) : Option Bytes → Except (Stop × Url) Url
  | none => .ok u
  | some fragment => decodeInto u fragment fun res => { u with fragment := res }

/-- The scheme of the pieces is the one that is found. -/
theorem parseScheme_text (hwf : p.WellFormed) :
    u.parseScheme p.text = (u.storeScheme p.scheme p.rest).map fun u => (u, p.rest) := by
  rw [parseScheme, hwf.scheme]
  cases hscheme : p.scheme with
  | none => simp [Pieces.text, hscheme, storeScheme, Except.map]
  | some scheme =>
    have htext : p.text = scheme ++ (ascii "://" ++ p.rest) := by rw [Pieces.text, hscheme]
    have htake : p.text.take scheme.length = scheme := by rw [htext, List.take_left]
    have hdrop : p.text.drop (scheme.length + 3) = p.rest := by
      rw [htext, ← List.append_assoc]
      exact List.drop_left' (by simp [ascii])
    simp only [Option.map_some, htake, hdrop, storeScheme]
    split
    next => rfl
    next =>
      split
      next => rfl
      next => rfl

/-- The last component. -/
theorem parseComponents_fragment {fragment : Option Bytes}
    (hfuel : (Pieces.component '#' fragment).length ≤ fuel) :
    parseComponents fuel u (Pieces.component '#' fragment) = u.storeFragment fragment := by
  cases fragment with
  | none => cases fuel <;> rfl
  | some fragment =>
    cases fuel with
    | zero => simp [Pieces.component] at hfuel
    | succ fuel =>
      have hslash : byteOf '#' ≠ byteOf '/' := by decide
      have hmark : byteOf '#' ≠ byteOf '?' := by decide
      simp only [Pieces.component, parseComponents, if_neg hslash, if_neg hmark, storeFragment,
        if_true]
      cases decodeInto u fragment fun res => { u with fragment := res } with
      | error stop => rfl
      | ok u => cases fuel <;> rfl

/-- The last two components. -/
theorem parseComponents_query {query fragment : Option Bytes}
    (hquery : ∀ q ∈ query, byteOf '#' ∉ q)
    (hfuel : (Pieces.component '?' query ++ Pieces.component '#' fragment).length ≤ fuel) :
    parseComponents fuel u (Pieces.component '?' query ++ Pieces.component '#' fragment) =
      u.storeQuery query >>= fun u => u.storeFragment fragment := by
  cases query with
  | none => exact parseComponents_fragment hfuel
  | some query =>
    cases fuel with
    | zero => simp [Pieces.component] at hfuel
    | succ fuel =>
      have hslash : byteOf '?' ≠ byteOf '/' := by decide
      obtain ⟨hview, hrest⟩ := substrTo_findChar (hquery query rfl)
        (Pieces.stops_component '#' fragment (decide_eq_true rfl))
      have hfuel' : (Pieces.component '#' fragment).length ≤ fuel := by
        simp only [Pieces.component, List.length_append, List.length_cons] at hfuel ⊢
        omega
      change parseComponents (fuel + 1) u
        (byteOf '?' :: (query ++ Pieces.component '#' fragment)) = _
      rw [parseComponents, if_neg hslash, if_pos rfl]
      simp only [hview, hrest, storeQuery, Option.getD_some, parseComponents_fragment hfuel']
      split
      next => rfl
      next => cases parseQuery query <;> rfl

/-- All components. -/
theorem parseComponents_text (hwf : p.WellFormed) (hfuel : (p.path ++ (Pieces.component '?' p.query
      ++ Pieces.component '#' p.fragment)).length ≤ fuel) :
    parseComponents fuel u
        (p.path ++ (Pieces.component '?' p.query ++ Pieces.component '#' p.fragment)) =
      u.storePath p.path >>= fun u =>
        u.storeQuery p.query >>= fun u => u.storeFragment p.fragment := by
  cases hpath : p.path with
  | nil =>
    rw [hpath] at hfuel
    exact parseComponents_query hwf.query hfuel
  | cons c path =>
    have hc : c = byteOf '/' := hwf.path_slash c (by rw [hpath]; rfl)
    have hstops : Stops (· ∈ ascii "?#")
        (Pieces.component '?' p.query ++ Pieces.component '#' p.fragment) := by
      cases hquery : p.query with
      | none => exact Pieces.stops_component '#' p.fragment (by decide)
      | some query => exact Pieces.stops_component '?' (some (query ++ _)) (by decide)
    obtain ⟨hview, hrest⟩ := substrTo_findFirstOf hwf.path hstops
    rw [hpath] at hview hrest hfuel
    cases fuel with
    | zero => simp at hfuel
    | succ fuel =>
      have hfuel' : (Pieces.component '?' p.query ++
          Pieces.component '#' p.fragment).length ≤ fuel := by
        simp only [List.length_append, List.length_cons] at hfuel ⊢
        omega
      rw [List.cons_append] at hview hrest ⊢
      rw [parseComponents, if_pos hc, storePath, if_neg (List.cons_ne_nil c path)]
      simp only [hview, hrest, parseComponents_query hwf.query hfuel']

/-- What follows the authority starts with a delimiter. -/
theorem stops_rest (hslash : ∀ c ∈ p.path.head?, c = byteOf '/') :
    Stops (· ∈ ascii "/?#")
    (p.path ++ (Pieces.component '?' p.query ++ Pieces.component '#' p.fragment)) := by
  cases hpath : p.path with
  | nil =>
    cases hquery : p.query with
    | none => exact Pieces.stops_component '#' p.fragment (by decide)
    | some query => exact Pieces.stops_component '?' (some (query ++ _)) (by decide)
  | cons c path =>
    have hc : c = byteOf '/' := hslash c (by rw [hpath]; rfl)
    exact hc ▸ Pieces.stops_component '/' (some (path ++ _)) (by decide)

/-- What follows the scheme is parsed piece by piece. -/
theorem parseRest_text (hwf : p.WellFormed) :
    u.parseRest p.rest = (if p.auth = [] then .ok u else u.storeAuthority p.auth) >>= fun u =>
      u.storePath p.path >>= fun u => u.storeQuery p.query >>= fun u =>
        u.storeFragment p.fragment >>= accept := by
  obtain ⟨hview, hrest⟩ := substrTo_findFirstOf hwf.auth (stops_rest hwf.path_slash)
  change substrTo p.rest (findFirstOf (ascii "/?#") p.rest) = _ at hview
  change removeTo p.rest (findFirstOf (ascii "/?#") p.rest) = _ at hrest
  have hcomponents : ∀ u : Url, (if findFirstOf (ascii "/?#") p.rest = none then .ok u
      else parseComponents p.rest.length u (removeTo p.rest (findFirstOf (ascii "/?#") p.rest))) =
      u.storePath p.path >>= fun u => u.storeQuery p.query >>= fun u =>
        u.storeFragment p.fragment := by
    intro u
    have hfuel : (p.path ++ (Pieces.component '?' p.query ++
        Pieces.component '#' p.fragment)).length ≤ p.rest.length := by
      simp only [Pieces.rest, List.length_append]
      omega
    rw [← parseComponents_text hwf hfuel]
    split
    next hnone =>
      rw [hnone, removeTo, Option.getD_none, List.drop_length] at hrest
      rw [← hrest, parseComponents]
    next => rw [hrest]
  simp only [parseRest, hview, hcomponents, bind_assoc]

/-- A string is parsed piece by piece. -/
theorem parse_text (hwf : p.WellFormed) (htrim : trim str = p.text) (hne : p.text ≠ []) :
    u.parse str = u.storeScheme p.scheme p.rest >>= fun u => u.parseRest p.rest := by
  rw [parse, htrim, if_neg hne, parseScheme_text hwf]
  cases u.storeScheme p.scheme p.rest <;> rfl

/-- A piece is stored exactly if it can be decoded. -/
theorem decodeInto_eq_ok_iff {put : Bytes → Url} :
    decodeInto u str put = .ok u' ↔ ∃ res, percentDecode str = some res ∧ put res = u' := by
  rw [decodeInto]
  cases percentDecode str <;> simp

/-- The object holds what the parts of an authority decode to. -/
structure Holds (u : Url) (parts : Authority) : Prop where
  host : (percentDecode parts.host).map (List.map toLower) = some u.host
  hostIpv6 : (percentDecode parts.hostIpv6).map (List.map toLower) = some u.hostIpv6
  port : percentDecode parts.port = some u.port
  digits : u.port.all isDigit = true
  user : percentDecode parts.user = some u.user
  password : percentDecode parts.password = some u.password

/-- An authority is stored exactly if its parts can be decoded and the port is a number. -/
theorem storeAuthority_eq_ok_iff : u.storeAuthority str = .ok u' ↔
    ∃ parts, parseAuthority str = some parts ∧ u'.Holds parts ∧
      u'.scheme = u.scheme ∧ u'.path = u.path ∧ u'.query = u.query ∧ u'.fragment = u.fragment := by
  cases hparts : parseAuthority str with
  | none => simp [storeAuthority, hparts]
  | some parts =>
    simp only [storeAuthority, hparts, bind_eq_ok_iff, decodeInto_eq_ok_iff, checkPort]
    constructor
    · rintro ⟨u₁, ⟨host, hhost, rfl⟩, u₂, ⟨hostIpv6, hhostIpv6, rfl⟩, u₃, ⟨port, hport, rfl⟩, u₄,
        hcheck, u₅, ⟨user, huser, rfl⟩, u₆, ⟨password, hpassword, rfl⟩, hresult⟩
      split at hcheck
      next hdigits =>
        cases hcheck
        cases hresult
        exact ⟨parts, rfl, ⟨by simp [hhost], by simp [hhostIpv6], hport, hdigits, huser, hpassword⟩,
          rfl, rfl, rfl, rfl⟩
      next => exact absurd hcheck (by simp)
    · rintro ⟨parts', hsome, hholds, hscheme, hpath, hquery, hfragment⟩
      cases hsome
      obtain ⟨host, hhost, hlower⟩ := Option.map_eq_some_iff.mp hholds.host
      obtain ⟨hostIpv6, hhostIpv6, hlower'⟩ := Option.map_eq_some_iff.mp hholds.hostIpv6
      refine ⟨_, ⟨host, hhost, rfl⟩, _, ⟨hostIpv6, hhostIpv6, rfl⟩, _, ⟨_, hholds.port, rfl⟩, _,
        if_pos hholds.digits, _, ⟨_, hholds.user, rfl⟩, _, ⟨_, hholds.password, rfl⟩, ?_⟩
      refine congrArg Except.ok (Url.ext ?_ ?_ ?_ ?_ ?_ ?_ ?_ ?_ ?_) <;> simp [*]

/-- The pieces give an object: each of them decodes to its members. -/
structure Gives (p : Pieces) (u : Url) : Prop where
  valid : ∀ scheme ∈ p.scheme, validScheme scheme = true
  scheme : u.scheme = (p.scheme.getD []).map toLower
  auth : ∃ parts, parseAuthority p.auth = some parts ∧ u.Holds parts
  path : percentDecode p.path = some u.path
  query : parseQuery (p.query.getD []) = .ok u.query
  fragment : percentDecode (p.fragment.getD []) = some u.fragment
  present : ¬ (u.host = [] ∧ u.hostIpv6 = [] ∧ u.path = [])

/-- The path is stored exactly if it can be decoded. -/
theorem storePath_eq_ok_iff (hpath : u.path = []) : u.storePath str = .ok u' ↔
    ∃ path, percentDecode str = some path ∧ { u with path := path } = u' := by
  rw [storePath]
  split
  next hnil =>
    have hsame : { u with path := [] } = u := by rw [← hpath]
    simp [hnil, percentDecode, hsame]
  next => exact decodeInto_eq_ok_iff

/-- The query is stored exactly if it can be parsed. -/
theorem storeQuery_eq_ok_iff {query : Option Bytes} (hquery : u.query = ∅) :
    u.storeQuery query = .ok u' ↔
      ∃ dict, parseQuery (query.getD []) = .ok dict ∧ { u with query := dict } = u' := by
  rw [storeQuery]
  split
  next hnil =>
    have hempty : parseQuery [] = .ok ∅ := rfl
    have hsame : { u with query := ∅ } = u := by rw [← hquery]
    simp [hnil, hempty, hsame]
  next => cases parseQuery (query.getD []) <;> simp

/-- The fragment is stored exactly if it can be decoded. -/
theorem storeFragment_eq_ok_iff {fragment : Option Bytes} (hfragment : u.fragment = []) :
    u.storeFragment fragment = .ok u' ↔
      ∃ res, percentDecode (fragment.getD []) = some res ∧ { u with fragment := res } = u' := by
  cases fragment with
  | none =>
    have hsame : { u with fragment := [] } = u := by rw [← hfragment]
    simp [storeFragment, percentDecode, hsame]
  | some fragment => exact decodeInto_eq_ok_iff

/-- An object without an authority holds the parts of the empty one. -/
theorem holds_empty_iff : u.Holds {} ↔
    u.host = [] ∧ u.hostIpv6 = [] ∧ u.port = [] ∧ u.user = [] ∧ u.password = [] := by
  constructor
  · intro hholds
    exact ⟨(Option.some.inj hholds.host).symm, (Option.some.inj hholds.hostIpv6).symm,
      (Option.some.inj hholds.port).symm, (Option.some.inj hholds.user).symm,
      (Option.some.inj hholds.password).symm⟩
  · rintro ⟨hhost, hhostIpv6, hport, huser, hpassword⟩
    constructor <;> simp [percentDecode, *]

/-- The scheme of a fresh object. -/
theorem storeScheme_eq_ok_iff {scheme : Option Bytes} :
    ({} : Url).storeScheme scheme str = .ok u ↔
      (∀ s ∈ scheme, validScheme s = true ∧ str ≠ []) ∧
        u = { scheme := (scheme.getD []).map toLower } := by
  cases scheme with
  | none =>
    rw [storeScheme, Except.ok.injEq]
    simp [@eq_comm _ u]
  | some scheme =>
    simp only [storeScheme, Option.mem_def, Option.some.injEq, forall_eq', Option.getD_some]
    split
    next hinvalid => simp [hinvalid]
    next hvalid =>
      split
      next hnil => simp [hnil]
      next hne => simp [hne, hvalid, eq_comm]

/-- The authority of an object that has a scheme only. -/
theorem storeAuth_eq_ok_iff {scheme : Bytes} :
    (if str = [] then .ok { scheme := scheme }
      else ({ scheme := scheme } : Url).storeAuthority str) = .ok u ↔
    ∃ parts, parseAuthority str = some parts ∧ u.Holds parts ∧
      u.scheme = scheme ∧ u.path = [] ∧ u.query = ∅ ∧ u.fragment = [] := by
  split
  next hnil =>
    have hempty : parseAuthority [] = some {} := rfl
    rw [hnil, hempty, Except.ok.injEq]
    constructor
    · rintro rfl
      exact ⟨{}, rfl, holds_empty_iff.mpr ⟨rfl, rfl, rfl, rfl, rfl⟩, rfl, rfl, rfl, rfl⟩
    · rintro ⟨parts, hparts, hholds, hscheme, hpath, hquery, hfragment⟩
      cases hparts
      obtain ⟨hhost, hhostIpv6, hport, huser, hpassword⟩ := holds_empty_iff.mp hholds
      refine Url.ext ?_ ?_ ?_ ?_ ?_ ?_ ?_ ?_ ?_ <;> simp [*]
  next => exact storeAuthority_eq_ok_iff

/-- The result of a call that has read everything. -/
theorem accept_eq_ok_iff :
    u.accept = .ok u' ↔ u = u' ∧ ¬ (u.host = [] ∧ u.hostIpv6 = [] ∧ u.path = []) := by
  rw [accept]
  split
  next hnone => simp [hnone]
  next hsome => simp [hsome]

/-- Something follows the scheme. -/
theorem Gives.rest_ne_nil (hgives : Gives p u) : p.rest ≠ [] := by
  intro hrest
  simp only [Pieces.rest, List.append_eq_nil_iff] at hrest
  obtain ⟨parts, hparts, hholds⟩ := hgives.auth
  have hpath := hgives.path
  rw [hrest.1] at hparts
  rw [hrest.2.1] at hpath
  cases hparts
  obtain ⟨hhost, hhostIpv6, -⟩ := holds_empty_iff.mp hholds
  exact hgives.present ⟨hhost, hhostIpv6, (Option.some.inj hpath).symm⟩

/-- A fresh object accepts a string exactly if its pieces give the object. -/
theorem parse_eq_ok_iff (hwf : p.WellFormed) (htrim : trim str = p.text) :
    ({} : Url).parse str = .ok u ↔ Gives p u := by
  by_cases hne : p.text = []
  · have hreject : ({} : Url).parse str = .error (.rejected, {}) := by
      rw [parse, htrim, if_pos hne]
    have hrest : p.rest = [] := by
      cases hscheme : p.scheme with
      | none => rwa [Pieces.text, hscheme] at hne
      | some scheme => simp [Pieces.text, hscheme, ascii] at hne
    rw [hreject]
    exact ⟨fun hok => by simp at hok, fun hgives => absurd hrest hgives.rest_ne_nil⟩
  · simp only [parse_text hwf htrim hne, bind_eq_ok_iff, storeScheme_eq_ok_iff, parseRest_text hwf]
    constructor
    · rintro ⟨u₁, ⟨hvalid, rfl⟩, u₂, hauth, u₃, hpath, u₄, hquery, u₅, hfragment, haccept⟩
      obtain ⟨parts, hparts, hholds, hscheme₂, hpath₂, hquery₂, hfragment₂⟩ :=
        storeAuth_eq_ok_iff.mp hauth
      obtain ⟨path, hdecode, rfl⟩ := (storePath_eq_ok_iff hpath₂).mp hpath
      obtain ⟨query, hparse, rfl⟩ := (storeQuery_eq_ok_iff (by exact hquery₂)).mp hquery
      obtain ⟨fragment, hdecode', rfl⟩ :=
        (storeFragment_eq_ok_iff (by exact hfragment₂)).mp hfragment
      obtain ⟨rfl, hpresent⟩ := accept_eq_ok_iff.mp haccept
      exact ⟨fun scheme hmem => (hvalid scheme hmem).1, hscheme₂,
        ⟨parts, hparts, hholds.host, hholds.hostIpv6, hholds.port, hholds.digits, hholds.user,
          hholds.password⟩, hdecode, hparse, hdecode', hpresent⟩
    · intro hgives
      obtain ⟨parts, hparts, hholds⟩ := hgives.auth
      have hvalid : ∀ s ∈ p.scheme, validScheme s = true ∧ p.rest ≠ [] :=
        fun scheme hmem => ⟨hgives.valid scheme hmem, hgives.rest_ne_nil⟩
      refine ⟨_, ⟨hvalid, rfl⟩, { u with path := [], query := ∅, fragment := [] },
        storeAuth_eq_ok_iff.mpr ⟨parts, hparts, ⟨hholds.host, hholds.hostIpv6, hholds.port,
          hholds.digits, hholds.user, hholds.password⟩, hgives.scheme, rfl, rfl, rfl⟩,
        { u with query := ∅, fragment := [] }, (storePath_eq_ok_iff rfl).mpr ⟨_, hgives.path, rfl⟩,
        { u with fragment := [] }, (storeQuery_eq_ok_iff rfl).mpr ⟨_, hgives.query, rfl⟩,
        u, (storeFragment_eq_ok_iff rfl).mpr ⟨_, hgives.fragment, rfl⟩,
        accept_eq_ok_iff.mpr ⟨rfl, hgives.present⟩⟩

end Url

end Demos.Oak
