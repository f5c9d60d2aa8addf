import Demos.Lib.Assoc
import Demos.Oak.Url.AuthorityParts

/-!
# Reading an assembled URL

A URL is assembled from a scheme, an authority, a path, the pairs of a query and a fragment, each of
which may be missing, over characters that need no encoding. `Url::Parse` reads the components back
unless the host is an IPv6 address with a port: `ParseAuthority` then leaves the colon at the port,
which is not a digit.
-/

namespace Demos.Oak

open Demos.Lib

/-- The components of a URL. -/
structure UrlParts where
  scheme : Option Bytes := none
  authority : Option AuthorityParts := none
  path : Option Bytes := none
  query : Option (List (Bytes × Bytes)) := none
  fragment : Option Bytes := none
  scheme_chars : ∀ text ∈ scheme, ∀ c ∈ text, isSchemeChar c = true
  path_slash : ∀ text ∈ path, text.head? = some (byteOf '/')
  path_chars : ∀ text ∈ path, ∀ c ∈ text, isUnreserved c = true ∨ c = byteOf '/'
  query_unreserved : ∀ pairs ∈ query, ∀ pair ∈ pairs, Unreserved pair.1 ∧ Unreserved pair.2
  query_distinct : ∀ pairs ∈ query, (pairs.map Prod.fst).Nodup
  fragment_unreserved : ∀ text ∈ fragment, Unreserved text
  present : authority.isSome ∨ path.isSome

namespace UrlParts

/-- The pieces of the assembled string. -/
def pieces (p : UrlParts) : Pieces where
  scheme := p.scheme
  auth := (p.authority.map AuthorityParts.text).getD []
  path := p.path.getD []
  query := p.query.map pairsText
  fragment := p.fragment

/-- The assembled string:
`[scheme://][[user[:password]@]host[:port]][path][?k=v&...][#fragment]`. -/
def assemble (p : UrlParts) : Bytes :=
  (p.scheme.map (· ++ ascii "://")).getD [] ++ (p.authority.map AuthorityParts.text).getD [] ++
    p.path.getD [] ++ Pieces.component '?' (p.query.map pairsText) ++
    Pieces.component '#' p.fragment

/-- The object returns the components: the scheme and the host in lower case, and the pairs of the
query. -/
structure Shows (p : UrlParts) (u : Url) : Prop where
  scheme : u.scheme = (p.scheme.getD []).map toLower
  user : u.user = ((p.authority.bind AuthorityParts.user).map Prod.fst).getD []
  password : u.password = ((p.authority.bind AuthorityParts.user).bind Prod.snd).getD []
  host : u.hostName = ((p.authority.map fun a => a.host.value).getD []).map toLower
  port : u.port = (p.authority.bind AuthorityParts.port).getD []
  path : u.path = p.path.getD []
  query : ∀ key val, u.query[key]? = some val ↔ (key, val) ∈ p.query.getD []
  fragment : u.fragment = p.fragment.getD []

/-- The host is an IPv6 address and has a port. -/
def Ipv6WithPort (p : UrlParts) : Prop :=
  ∃ a ∈ p.authority, (∃ text, a.host = .ipv6 text) ∧ a.port.isSome

variable (p : UrlParts)

theorem pieces_text : p.pieces.text = p.assemble := by
  cases hscheme : p.scheme with
  | none | some => simp [Pieces.text, pieces, hscheme, Pieces.rest, assemble]

/-- What the query and the fragment avoid as they are written. -/
theorem avoids_tail : Avoids (ascii "/:" ++ spaces)
    (Pieces.component '?' p.pieces.query ++ Pieces.component '#' p.pieces.fragment) := by
  refine Avoids.append (avoids_component (by decide) fun t ht => ?_)
    (avoids_component (by decide) fun t ht => (p.fragment_unreserved t ht).avoids.mono (by decide))
  obtain ⟨pairs, hpairs, rfl⟩ := Option.map_eq_some_iff.mp ht
  refine avoids_pairsText (by decide) (by decide) fun pair hmem => ?_
  obtain ⟨hkey, hval⟩ := p.query_unreserved pairs hpairs pair hmem
  exact ⟨hkey.avoids.mono (by decide), hval.avoids.mono (by decide)⟩

/-- What the path avoids. -/
theorem avoids_path : Avoids (ascii ":?#%+" ++ spaces) p.pieces.path := by
  cases hpath : p.path with
  | none => simp [pieces, hpath, avoids_nil]
  | some path =>
    have hchars : ∀ c ∈ path, (isUnreserved c || c = byteOf '/') = true := fun c hc => by
      simpa using p.path_chars path hpath c hc
    simpa [pieces, hpath] using avoids_of_forall hchars (by decide)

/-- What the authority avoids. -/
theorem avoids_auth : Avoids (ascii "/?#%+" ++ spaces) p.pieces.auth := by
  cases hauthority : p.authority with
  | none => simp [pieces, hauthority, avoids_nil]
  | some a => simpa [pieces, hauthority] using a.avoids_text

/-- The scheme has the characters of a scheme only. -/
theorem avoids_scheme : ∀ scheme ∈ p.pieces.scheme,
    Avoids (ascii ":" ++ spaces) scheme :=
  fun scheme hmem => avoids_of_forall (p.scheme_chars scheme hmem) (by decide)

/-- The assembled string has no white space to trim. -/
theorem trim_assemble : trim p.assemble = p.assemble := by
  have hrest : Avoids spaces p.pieces.rest :=
    (p.avoids_auth.mono (by decide)).append ((p.avoids_path.mono (by decide)).append
      (p.avoids_tail.mono (by decide)))
  have htext : Avoids spaces p.pieces.text := by
    rw [Pieces.text]
    split
    next => exact hrest
    next scheme hscheme =>
      exact ((p.avoids_scheme scheme hscheme).mono (by decide)).append
        (Avoids.append (by decide) hrest)
  rw [pieces_text] at htext
  exact @trimEnds_of_avoids _ true true htext

/-- The pieces are those that the delimiters mark. -/
theorem pieces_wellFormed : p.pieces.WellFormed where
  scheme := by
    refine findStr_text (fun scheme hmem => (p.avoids_scheme scheme hmem).notMem (by decide)) ?_
    intro _ hinside
    have hlast : p.pieces.auth.getLast? ≠ some (byteOf ':') := by
      cases hauthority : p.authority with
      | none => simp [pieces, hauthority]
      | some a => simpa [pieces, hauthority] using a.getLast?_text
    rw [Pieces.rest, scheme_infix_append_iff (p.avoids_auth.notMem (by decide)) hlast,
      scheme_infix_append_iff_left (p.avoids_tail.notMem (by decide))] at hinside
    exact p.avoids_path.notMem (by decide) (hinside.subset (by decide : byteOf ':' ∈ ascii "://"))
  auth := p.avoids_auth.mono (by decide)
  path_slash := by
    intro c hc
    cases hpath : p.path with
    | none => simp [pieces, hpath] at hc
    | some path =>
      have hslash := p.path_slash path hpath
      have hhead : path.head? = some c := by simpa [pieces, hpath] using hc
      exact Option.some.inj (hhead.symm.trans hslash)
  path := p.avoids_path.mono (by decide)
  query := by
    intro q hq
    obtain ⟨pairs, hpairs, rfl⟩ := Option.map_eq_some_iff.mp hq
    have havoids : Avoids (ascii "#") (pairsText pairs) := by
      refine avoids_pairsText (by decide) (by decide) fun pair hmem => ?_
      obtain ⟨hkey, hval⟩ := p.query_unreserved pairs hpairs pair hmem
      exact ⟨hkey.avoids.mono (by decide), hval.avoids.mono (by decide)⟩
    exact havoids.notMem (by decide)

/-- What `ParseAuthority` reads of the authority, if there is one. -/
def views : Authority := (p.authority.map AuthorityParts.views).getD {}

/-- The authority is read. -/
theorem parseAuthority_auth : parseAuthority p.pieces.auth = some p.views := by
  cases hauthority : p.authority with
  | none => simp only [pieces, views, hauthority]; rfl
  | some a => simpa [pieces, views, hauthority] using a.parseAuthority_text

/-- The object that the components describe. -/
def url : Url where
  scheme := (p.scheme.getD []).map toLower
  user := p.views.user
  password := p.views.password
  host := p.views.host.map toLower
  hostIpv6 := p.views.hostIpv6.map toLower
  port := p.views.port
  path := p.path.getD []
  query := .ofList (p.query.getD [])
  fragment := p.fragment.getD []

/-- The port that is read is a number, unless it belongs to an IPv6 host. -/
theorem views_port_digits : p.views.port.all isDigit = true ↔ ¬ p.Ipv6WithPort := by
  cases hauthority : p.authority with
  | none => simp [views, hauthority, Ipv6WithPort]
  | some a => simpa [views, hauthority, Ipv6WithPort] using a.views_port_digits

/-- What is read of an authority needs no decoding. -/
theorem avoids_views :
    Avoids (ascii "%+") p.views.user ∧ Avoids (ascii "%+") p.views.password ∧
      Avoids (ascii "%+") p.views.host ∧ Avoids (ascii "%+") p.views.hostIpv6 ∧
      Avoids (ascii "%+") p.views.port := by
  cases hauthority : p.authority with
  | none => simp [views, hauthority, avoids_nil]
  | some a => simpa [views, hauthority] using a.avoids_views

/-- The pairs of the query are read. -/
theorem parseQuery_query : parseQuery (p.pieces.query.getD []) = .ok p.url.query := by
  cases hquery : p.query with
  | none =>
    simp only [pieces, url, hquery]
    rfl
  | some pairs =>
    have hplain : ∀ pair ∈ pairs, Plain (id pair.1) ∧ Plain (id pair.2) := by
      intro pair hmem
      obtain ⟨hkey, hval⟩ := p.query_unreserved pairs hquery pair hmem
      exact ⟨⟨hkey.avoids.notMem (by decide), hkey.avoids.notMem (by decide)⟩,
        hval.avoids.notMem (by decide), hval.avoids.notMem (by decide)⟩
    have hdecode : ∀ pair ∈ pairs, percentDecode (id pair.1) = some (id pair.1) ∧
        percentDecode (id pair.2) = some (id pair.2) := by
      intro pair hmem
      obtain ⟨hkey, hval⟩ := p.query_unreserved pairs hquery pair hmem
      exact ⟨percentDecode_of_avoids (hkey.avoids.mono (by decide)),
        percentDecode_of_avoids (hval.avoids.mono (by decide))⟩
    simpa [pieces, url, hquery] using parseQuery_pairsText hplain hdecode

/-- The pieces give the object that the components describe, unless there is an IPv6 host with a
port. -/
theorem gives_url (hport : ¬ p.Ipv6WithPort) : Url.Gives p.pieces p.url where
  valid scheme hmem := List.all_eq_true.mpr (p.scheme_chars scheme hmem)
  scheme := rfl
  auth := by
    obtain ⟨huser, hpassword, hhost, hhostIpv6, hdigits⟩ := p.avoids_views
    refine ⟨p.views, p.parseAuthority_auth, ?_⟩
    exact {
      host := by rw [percentDecode_of_avoids hhost]; rfl
      hostIpv6 := by rw [percentDecode_of_avoids hhostIpv6]; rfl
      port := percentDecode_of_avoids hdigits
      digits := p.views_port_digits.mpr hport
      user := percentDecode_of_avoids huser
      password := percentDecode_of_avoids hpassword }
  path := percentDecode_of_avoids (p.avoids_path.mono (by decide))
  query := p.parseQuery_query
  fragment := by
    refine percentDecode_of_avoids ?_
    cases hfragment : p.fragment with
    | none => simp [pieces, hfragment, avoids_nil]
    | some fragment =>
      simpa [pieces, hfragment] using
        (p.fragment_unreserved fragment hfragment).avoids.mono (by decide)
  present := by
    rintro ⟨hhost, hhostIpv6, hpath⟩
    obtain hauthority | hsome := p.present
    · obtain ⟨a, ha⟩ := Option.isSome_iff_exists.mp hauthority
      have hwf := a.host_wellFormed
      cases hkind : a.host with
      | name text =>
        rw [hkind] at hwf
        exact hwf.1 (by simpa [url, views, ha, AuthorityParts.views, hkind] using hhost)
      | ipv6 text =>
        rw [hkind] at hwf
        exact hwf.1 (by simpa [url, views, ha, AuthorityParts.views, hkind] using hhostIpv6)
    · obtain ⟨path, hsome⟩ := Option.isSome_iff_exists.mp hsome
      have hslash := p.path_slash path hsome
      have hnil : path = [] := by simpa [url, hsome] using hpath
      simp [hnil] at hslash

/-- The query holds the pairs. -/
theorem url_query (key val : Bytes) :
    p.url.query[key]? = some val ↔ (key, val) ∈ p.query.getD [] := by
  apply getElem?_ofList_eq_some_iff
  cases hquery : p.query with
  | none => exact .nil
  | some pairs =>
    have hdistinct := List.pairwise_map.mp (p.query_distinct pairs hquery)
    exact hdistinct.imp fun hne heq => hne (Std.LawfulEqCmp.eq_of_compare heq)

/-- The object returns the components. -/
theorem shows_url (hport : ¬ p.Ipv6WithPort) : p.Shows p.url where
  scheme := rfl
  user := by cases hauthority : p.authority <;> simp [url, views, hauthority, AuthorityParts.views]
  password := by
    cases hauthority : p.authority <;> simp [url, views, hauthority, AuthorityParts.views]
  host := by
    cases hauthority : p.authority with
    | none => simp [Url.hostName, url, views, hauthority]
    | some a =>
      have hwf := a.host_wellFormed
      cases hkind : a.host with
      | name text =>
        rw [hkind] at hwf
        simp [Url.hostName, url, views, hauthority, AuthorityParts.views, hkind, HostPart.value,
          hwf.1]
      | ipv6 text =>
        simp [Url.hostName, url, views, hauthority, AuthorityParts.views, hkind, HostPart.value]
  port := by
    cases hauthority : p.authority with
    | none => simp [url, views, hauthority]
    | some a =>
      cases hkind : a.host with
      | name text => simp [url, views, hauthority, AuthorityParts.views, hkind]
      | ipv6 text =>
        have hnone : a.port = none := by
          simpa [Ipv6WithPort, hauthority, hkind] using hport
        simp [url, views, hauthority, AuthorityParts.views, hkind, hnone, Pieces.component]
  path := rfl
  query := p.url_query
  fragment := rfl

/-- An assembled string is accepted and its components are returned exactly if the host is not an
IPv6 address with a port. -/
theorem parse_assemble_iff :
    (∃ u, ({} : Url).parse p.assemble = .ok u ∧ p.Shows u) ↔ ¬ p.Ipv6WithPort := by
  have htrim : trim p.assemble = p.pieces.text := p.trim_assemble.trans p.pieces_text.symm
  constructor
  · rintro ⟨u, hparse, -⟩
    have hgives := (Url.parse_eq_ok_iff p.pieces_wellFormed htrim).mp hparse
    obtain ⟨parts, hparts, hholds⟩ := hgives.auth
    rw [parseAuthority_auth] at hparts
    cases hparts
    have hport := hholds.port
    rw [percentDecode_of_avoids p.avoids_views.2.2.2.2] at hport
    rw [← views_port_digits, Option.some.inj hport]
    exact hholds.digits
  · intro hport
    exact ⟨p.url, (Url.parse_eq_ok_iff p.pieces_wellFormed htrim).mpr (p.gives_url hport),
      p.shows_url hport⟩

/-- The components of `tcp://[::1]:80`. -/
def loopback : UrlParts where
  scheme := some (ascii "tcp")
  authority := some {
    host := .ipv6 (ascii "::1")
    port := some (ascii "80")
    user_unreserved := by simp
    host_wellFormed := by
      have hall : (ascii "::1").all (fun c => isHexDigit c || c = byteOf ':') = true := by decide
      exact ⟨by decide, fun c hc => by simpa using List.all_eq_true.mp hall c hc⟩
    port_digits := fun text htext => by
      cases htext
      exact ⟨by decide, List.all_eq_true.mp (by decide)⟩ }
  scheme_chars := fun text htext => by
    cases htext
    exact List.all_eq_true.mp (by decide)
  path_slash := by simp
  path_chars := by simp
  query_unreserved := by simp
  query_distinct := by simp
  fragment_unreserved := by simp
  present := by decide

/-- `tcp://[::1]:80` is rejected once the port is read as `:80`. -/
theorem parse_loopback : loopback.assemble = ascii "tcp://[::1]:80" ∧
    ({} : Url).parse loopback.assemble = .error (.rejected,
      { scheme := ascii "tcp", hostIpv6 := ascii "::1", port := ascii ":80" }) ∧
    ¬ ∃ u, ({} : Url).parse loopback.assemble = .ok u ∧ loopback.Shows u := by
  have hparse : ({} : Url).parse loopback.assemble = .error (.rejected,
      { scheme := ascii "tcp", hostIpv6 := ascii "::1", port := ascii ":80" }) := by rfl
  refine ⟨by decide, hparse, ?_⟩
  rintro ⟨u, hok, -⟩
  simp [hparse] at hok

end UrlParts

end Demos.Oak
