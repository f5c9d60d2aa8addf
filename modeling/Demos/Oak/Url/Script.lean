import Demos.Lib.Patch
import Demos.Oak.Url.Parse

/-!
# What a string writes

`Url::Parse` looks at the object only in its last test. Everything before is decided by the pieces
of the string: which members are overwritten with what, and where the call gives up. So a call is
the script of the string, followed by the test.
-/

namespace Demos.Oak

open Demos.Lib

/-- The members of a `Url`. -/
inductive UrlMember where
  | scheme
  | user
  | password
  | host
  | hostIpv6
  | port
  | path
  | query
  | fragment
deriving DecidableEq, Repr

/-- What a member holds. -/
abbrev UrlMember.Value : UrlMember → Type
  | .query => Dict
  | _ => Bytes

/-- New values for some members. -/
abbrev UrlPatch := Patch UrlMember.Value

/-- New values for some members, and why the call gives up then. -/
abbrev UrlScript := Script UrlMember.Value Stop

/-- A new value for one member. -/
def UrlMember.write (m : UrlMember) (value : m.Value) : UrlPatch := Patch.single m value

namespace Url

/-- The value of a member. -/
def get (u : Url) : (m : UrlMember) → m.Value
  | .scheme => u.scheme
  | .user => u.user
  | .password => u.password
  | .host => u.host
  | .hostIpv6 => u.hostIpv6
  | .port => u.port
  | .path => u.path
  | .query => u.query
  | .fragment => u.fragment

/-- Overwrite members. -/
def patch (w : UrlPatch) (u : Url) : Url where
  scheme := (w .scheme).getD u.scheme
  user := (w .user).getD u.user
  password := (w .password).getD u.password
  host := (w .host).getD u.host
  hostIpv6 := (w .hostIpv6).getD u.hostIpv6
  port := (w .port).getD u.port
  path := (w .path).getD u.path
  query := (w .query).getD u.query
  fragment := (w .fragment).getD u.fragment

/-- An object is given by its members. -/
def fields : Fields Url UrlMember.Value where
  get := get
  patch := patch
  ext u v h := Url.ext (h .scheme) (h .user) (h .password) (h .host) (h .hostIpv6) (h .port)
    (h .path) (h .query) (h .fragment)
  get_patch w u m := by cases m <;> rfl

variable {u : Url} {str : Bytes}

/-- Decode a text and write the result. -/
def decodeScript (write : Bytes → UrlPatch) (str : Bytes) : UrlScript :=
  match percentDecode str with
  | none => .fail .rejected
  | some res => .put (write res)

/-- The script of a scheme; something has to follow it. -/
def schemeScript (scheme : Option Bytes) (rest : Bytes) : UrlScript :=
  match scheme with
  | none => .skip
  | some scheme =>
    if validScheme scheme = false then .fail .rejected
    else ⟨UrlMember.scheme.write (scheme.map toLower), if rest = [] then some .rejected else none⟩

/-- The script of a port: it is written before its digits are checked. -/
def portScript (str : Bytes) : UrlScript :=
  match percentDecode str with
  | none => .fail .rejected
  | some port => ⟨UrlMember.port.write port, if port.all isDigit then none else some .rejected⟩

/-- The hosts in lower case. -/
def lowerScript (parts : Authority) : UrlScript :=
  .put ((UrlMember.host.write (((percentDecode parts.host).getD []).map toLower)).andThen
    (UrlMember.hostIpv6.write (((percentDecode parts.hostIpv6).getD []).map toLower)))

/-- The script of the parts of an authority. -/
def partsScript (parts : Authority) : UrlScript :=
  (decodeScript UrlMember.host.write parts.host).andThen <|
  (decodeScript UrlMember.hostIpv6.write parts.hostIpv6).andThen <|
  (portScript parts.port).andThen <|
  (decodeScript UrlMember.user.write parts.user).andThen <|
  (decodeScript UrlMember.password.write parts.password).andThen <|
  lowerScript parts

/-- The script of an authority, if there is one. -/
def authScript (auth : Bytes) : UrlScript :=
  if auth = [] then .skip
  else
    match parseAuthority auth with
    | none => .fail .rejected
    | some parts => partsScript parts

/-- The script of a path, if there is one. -/
def pathScript (path : Bytes) : UrlScript :=
  if path = [] then .skip else decodeScript UrlMember.path.write path

/-- The script of a query, if there is one. -/
def queryScript (query : Option Bytes) : UrlScript :=
  if query.getD [] = [] then .skip
  else
    match parseQuery (query.getD []) with
    | .error stop => .fail stop
    | .ok query => .put (UrlMember.query.write query)

/-- The script of a fragment, if there is one. -/
def fragmentScript : Option Bytes → UrlScript
  | none => .skip
  | some fragment => decodeScript UrlMember.fragment.write fragment

/-- The script of a string, piece by piece. -/
def script (p : Pieces) : UrlScript :=
  if p.text = [] then .fail .rejected
  else
    (schemeScript p.scheme p.rest).andThen <|
    (authScript p.auth).andThen <|
    (pathScript p.path).andThen <|
    (queryScript p.query).andThen <|
    fragmentScript p.fragment

/-- Decoding into a member follows its script. -/
theorem run_decodeScript (write : Bytes → UrlPatch) :
    (decodeScript write str).run fields u = decodeInto u str fun res => u.patch (write res) := by
  rw [decodeScript, decodeInto]
  cases percentDecode str <;> rfl

/-- Storing a scheme follows its script. -/
theorem run_schemeScript {scheme : Option Bytes} :
    (schemeScript scheme str).run fields u = u.storeScheme scheme str := by
  cases scheme with
  | none => rfl
  | some scheme =>
    rw [schemeScript, storeScheme]
    split
    next => rfl
    next => split <;> rfl

/-- Storing the parts of an authority follows their script. -/
theorem run_authScript : (authScript str).run fields u =
    if str = [] then .ok u else u.storeAuthority str := by
  rw [authScript, storeAuthority]
  split
  next => rfl
  next =>
    cases parseAuthority str with
    | none => rfl
    | some parts =>
      -- The port and the hosts are read back from the object, which holds what was just decoded.
      simp only [partsScript, lowerScript, decodeScript, portScript, decodeInto]
      cases percentDecode parts.host with
      | none => rfl
      | some host =>
      cases percentDecode parts.hostIpv6 with
      | none => rfl
      | some hostIpv6 =>
      cases percentDecode parts.port with
      | none => rfl
      | some port =>
      change _ = checkPort { u with host := host, hostIpv6 := hostIpv6, port := port } >>= _
      simp only [checkPort]
      by_cases hdigits : port.all isDigit = true
      · simp only [hdigits, if_true]
        cases percentDecode parts.user with
        | none => rfl
        | some user => cases percentDecode parts.password <;> rfl
      · simp only [hdigits]
        rfl

/-- Storing a path follows its script. -/
theorem run_pathScript : (pathScript str).run fields u = u.storePath str := by
  rw [pathScript, storePath]
  split
  next => rfl
  next => exact run_decodeScript _

/-- Storing a query follows its script. -/
theorem run_queryScript {query : Option Bytes} :
    (queryScript query).run fields u = u.storeQuery query := by
  rw [queryScript, storeQuery]
  split
  next => rfl
  next => cases parseQuery (query.getD []) <;> rfl

/-- Storing a fragment follows its script. -/
theorem run_fragmentScript {fragment : Option Bytes} :
    (fragmentScript fragment).run fields u = u.storeFragment fragment := by
  cases fragment with
  | none => rfl
  | some fragment => exact run_decodeScript _

/-- A call follows the script of its string and then tests the object. -/
theorem parse_eq_run {p : Pieces} (hwf : p.WellFormed) (htrim : trim str = p.text) :
    u.parse str = (script p).run fields u >>= accept := by
  rw [script]
  split
  next hnil =>
    rw [parse, htrim, if_pos hnil]
    rfl
  next hne =>
    rw [parse_text hwf htrim hne]
    simp only [parseRest_text hwf, Script.run_andThen, bind_assoc, run_schemeScript,
      run_authScript, run_pathScript, run_queryScript, run_fragmentScript]

end Url

end Demos.Oak
