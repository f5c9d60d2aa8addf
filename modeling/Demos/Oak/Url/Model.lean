import Mathlib.Data.List.DropRight
import Demos.Oak.Config.Types
import Demos.Oak.Url.Percent

/-!
# Parsing and normalizing URLs

`Url::Parse` fills in the members of an object as it reads a string, and leaves what it has written
when it gives up. Positions are those of `std::string_view`; no position stands for `npos`. The two
loops are bounded by the length of the text they consume, and a loop that is cut off is told apart
from a string that is rejected. `Url::Normalize` writes the members back.
-/

namespace Demos.Oak

/-- `TrimFront`. -/
def trimFront (str : Bytes) : Bytes := str.dropWhile isSpace

/-- `TrimBack`. -/
def trimBack (str : Bytes) : Bytes := str.rdropWhile isSpace

/-- `Trim`. -/
def trim (str : Bytes) : Bytes := trimFront (trimBack str)

/-- `tolower`. -/
def toLower (c : UInt8) : UInt8 := if byteOf 'A' ≤ c && c ≤ byteOf 'Z' then c + 32 else c

/-- `isalnum`. -/
def isAlnum (c : UInt8) : Bool :=
  (byteOf 'a' ≤ c && c ≤ byteOf 'z') || (byteOf 'A' ≤ c && c ≤ byteOf 'Z') || isDigit c

/-- A character that `ValidScheme` accepts. -/
def isSchemeChar (c : UInt8) : Bool :=
  isAlnum c || c = byteOf '+' || c = byteOf '-' || c = byteOf '.'

/-- `ValidScheme`. -/
def validScheme (scheme : Bytes) : Bool := scheme.all isSchemeChar

/-- `str.find(c)`. -/
def findChar (c : Char) (str : Bytes) : Option ℕ := str.findIdx? (· = byteOf c)

/-- `str.find_first_of(chars)`. -/
def findFirstOf (chars : Bytes) (str : Bytes) : Option ℕ := str.findIdx? (· ∈ chars)

/-- `str.find(part)`, for a text that is not empty. -/
def findStr (part : Bytes) : Bytes → Option ℕ
  | [] => none
  | c :: rest => if part <+: c :: rest then some 0 else (findStr part rest).map (· + 1)

/-- `str.substr(0, pos)`. -/
def substrTo (str : Bytes) (pos : Option ℕ) : Bytes := str.take (pos.getD str.length)

/-- `str.remove_prefix(pos)`, where `npos` stands for the size. -/
def removeTo (str : Bytes) (pos : Option ℕ) : Bytes := str.drop (pos.getD str.length)

/-- The members of a `Url`. -/
@[ext]
structure Url where
  scheme : Bytes := []
  user : Bytes := []
  password : Bytes := []
  host : Bytes := []
  hostIpv6 : Bytes := []
  port : Bytes := []
  path : Bytes := []
  query : Dict := ∅
  fragment : Bytes := []
deriving DecidableEq

/-- The parts of an authority, as views of it. -/
@[ext]
structure Authority where
  user : Bytes := []
  password : Bytes := []
  host : Bytes := []
  hostIpv6 : Bytes := []
  port : Bytes := []
deriving DecidableEq

/-- The first part of `ParseAuthority`: the user and the password, and the rest. -/
def parseUserInfo (auth : Bytes) : Option (Authority × Bytes) :=
  match findChar '@' auth with
  | none => some ({}, auth)
  | some pos =>
    let userPass := auth.take pos
    let auth := auth.drop (pos + 1)
    if auth = [] then none
    else
      let pos := findChar ':' userPass
      let password := match pos with
        | none => []
        | some pos => userPass.drop (pos + 1)
      some ({ password := password, user := substrTo userPass pos }, auth)

/-- The second part of `ParseAuthority`: the host and the port. -/
def parseHost (parts : Authority) (auth : Bytes) : Option Authority :=
  if auth.head? = some (byteOf '[') then
    match findChar ']' auth with
    | none => none
    | some pos =>
      let parts := { parts with hostIpv6 := (auth.drop 1).take (pos - 1) }
      let auth := auth.drop (pos + 1)
      if auth = [] then some parts
      else if auth.head? ≠ some (byteOf ':') then none
      else some { parts with port := auth }
  else
    match findChar ':' auth with
    | none => some { parts with host := auth }
    | some pos => some { parts with port := auth.drop (pos + 1), host := auth.take pos }

/-- `ParseAuthority`. -/
def parseAuthority (auth : Bytes) : Option Authority := do
  let (parts, auth) ← parseUserInfo auth
  parseHost parts auth

/-- Why a call does not return `true`. -/
inductive Stop where
  | rejected
  | loops
deriving DecidableEq, Repr

/-- A pair of the query: the decoded key and value. -/
def parsePair (kv : Bytes) : Except Stop (Bytes × Bytes) :=
  match findChar '=' kv with
  | none => .error .rejected
  | some pos =>
    match percentDecode (kv.take pos), percentDecode (kv.drop (pos + 1)) with
    | some key, some val => .ok (key, val)
    | _, _ => .error .rejected

/-- The loop of `ParseQuery`. -/
def parsePairs : ℕ → Bytes → Dict → Except Stop Dict
  | _, [], res => .ok res
  | 0, _ :: _, _ => .error .loops
  | fuel + 1, c :: rest, res => do
    let query := c :: rest
    let pos := findChar '&' query
    let (key, val) ← parsePair (substrTo query pos)
    parsePairs fuel (removeTo query (pos.map (· + 1))) (res.insert key val)

/-- `ParseQuery`. -/
def parseQuery (query : Bytes) : Except Stop Dict := parsePairs query.length query ∅

/-- `PercentDecode` into a member. -/
def decodeInto (u : Url) (str : Bytes) (put : Bytes → Url) : Except (Stop × Url) Url :=
  match percentDecode str with
  | none => .error (.rejected, u)
  | some res => .ok (put res)

namespace Url

/-- The part of `Url::Parse` that reads the scheme, and the rest of the string. -/
def parseScheme (u : Url) (url : Bytes) : Except (Stop × Url) (Url × Bytes) :=
  match findStr (ascii "://") url with
  | none => .ok (u, url)
  | some pos =>
    let scheme := url.take pos
    if validScheme scheme = false then .error (.rejected, u)
    else
      let u := { u with scheme := scheme.map toLower }
      let url := url.drop (pos + 3)
      if url = [] then .error (.rejected, u) else .ok (u, url)

/-- The check of the port: `port_.find_first_not_of("0123456789") != npos`. -/
def checkPort (u : Url) : Except (Stop × Url) Url :=
  if u.port.all isDigit then .ok u else .error (.rejected, u)

/-- The part of `Url::Parse` that stores an authority. -/
def storeAuthority (u : Url) (auth : Bytes) : Except (Stop × Url) Url :=
  match parseAuthority auth with
  | none => .error (.rejected, u)
  | some parts => do
    let u ← decodeInto u parts.host fun res => { u with host := res }
    let u ← decodeInto u parts.hostIpv6 fun res => { u with hostIpv6 := res }
    let u ← decodeInto u parts.port fun res => { u with port := res }
    let u ← u.checkPort
    let u ← decodeInto u parts.user fun res => { u with user := res }
    let u ← decodeInto u parts.password fun res => { u with password := res }
    return { u with host := u.host.map toLower, hostIpv6 := u.hostIpv6.map toLower }

/-- The loop of `Url::Parse` over the path, the query and the fragment. A character that begins none
of them is never consumed. -/
def parseComponents : ℕ → Url → Bytes → Except (Stop × Url) Url
  | _, u, [] => .ok u
  | 0, u, _ :: _ => .error (.loops, u)
  | fuel + 1, u, c :: rest =>
    if c = byteOf '/' then do
      let url := c :: rest
      let pos := findFirstOf (ascii "?#") url
      let u ← decodeInto u (substrTo url pos) fun res => { u with path := res }
      parseComponents fuel u (removeTo url pos)
    else if c = byteOf '?' then
      let pos := findChar '#' rest
      let qstr := substrTo rest pos
      if qstr = [] then parseComponents fuel u (removeTo rest pos)
      else
        match parseQuery qstr with
        | .error stop => .error (stop, u)
        | .ok query => parseComponents fuel { u with query := query } (removeTo rest pos)
    else if c = byteOf '#' then do
      let u ← decodeInto u rest fun res => { u with fragment := res }
      parseComponents fuel u []
    else parseComponents fuel u (c :: rest)

/-- The result of `Url::Parse` once everything is read. -/
def accept (u : Url) : Except (Stop × Url) Url :=
  if u.host = [] ∧ u.hostIpv6 = [] ∧ u.path = [] then .error (.rejected, u) else .ok u

/-- The part of `Url::Parse` after the scheme. -/
def parseRest (u : Url) (url : Bytes) : Except (Stop × Url) Url :=
  let pos := findFirstOf (ascii "/?#") url
  let auth := substrTo url pos
  (if auth = [] then .ok u else u.storeAuthority auth) >>= fun u =>
    (if pos = none then .ok u else parseComponents url.length u (removeTo url pos)) >>= accept

/-- `Url::Parse`. -/
def parse (u : Url) (url : Bytes) : Except (Stop × Url) Url :=
  let url := trim url
  if url = [] then .error (.rejected, u)
  else u.parseScheme url >>= fun (u, url) => u.parseRest url

/-- The user and the password as `Url::Normalize` writes them. -/
def userInfo (u : Url) (encode : Bytes → Bytes) : Bytes :=
  if u.user = [] then []
  else
    encode u.user ++ (if u.password = [] then [] else byteOf ':' :: encode u.password) ++
      [byteOf '@']

/-- The port as `Url::Normalize` writes it. -/
def portText (u : Url) : Bytes := if u.port = [] then [] else byteOf ':' :: u.port

/-- The authority as `Url::Normalize` writes it. -/
def authorityText (u : Url) : Bytes :=
  if u.host ≠ [] then u.userInfo percentEncode ++ u.host ++ u.portText
  else if u.hostIpv6 ≠ [] then
    u.userInfo id ++ byteOf '[' :: u.hostIpv6 ++ byteOf ']' :: u.portText
  else []

/-- The pairs of the query as `Url::Normalize` writes them, the first one after `lead_c`. -/
def queryText (lead : UInt8) : List (Bytes × Bytes) → Bytes
  | [] => []
  | (key, val) :: rest =>
    lead :: percentEncode key ++ byteOf '=' :: percentEncode val ++ queryText (byteOf '&') rest

/-- `Url::Normalize`. -/
def normalize (u : Url) : Bytes :=
  (if u.scheme = [] then [] else u.scheme ++ ascii "://") ++ u.authorityText ++ u.path ++
    queryText (byteOf '?') u.query.toList ++
    (if u.fragment = [] then [] else byteOf '#' :: percentEncode u.fragment)

/-- `Url::Host`. -/
def hostName (u : Url) : Bytes := if u.host ≠ [] then u.host else u.hostIpv6

end Url

end Demos.Oak
