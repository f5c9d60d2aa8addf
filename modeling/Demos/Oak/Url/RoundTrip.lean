import Demos.Lib.Assoc
import Demos.Oak.Url.Reread

/-!
# Parsing a normalized URL

When a fresh object parses what `Url::Normalize` writes for an accepted one, it does not always
become the same object. Encoded members are decoded with their first digit lost. The other members
are written as they are: a percent sign or a plus sign in them is decoded once more, white space at
the ends of the string is trimmed, and a bracket, an at sign or a scheme in the wrong place is read
as what it stands for. Members that belong to a host or a user that is missing are not written.
-/

namespace Demos.Oak

open Demos.Lib

namespace Url

/-- An authority with a host name comes back. -/
structure NameRoundTrips (u : Url) : Prop where
  host : Avoids (ascii "%+") u.host
  bracket : u.host.head? ≠ some (byteOf '[')
  user : Recodes u.user
  password : Recodes u.password
  no_user : u.user = [] → byteOf '@' ∉ u.host ∧ u.password = []
  front : u.scheme = [] → u.user = [] → trimFront u.host = u.host
  back : u.port = [] → u.path = [] → u.query = ∅ → u.fragment = [] → trimBack u.host = u.host

/-- An authority with an IPv6 host comes back. -/
structure Ipv6RoundTrips (u : Url) : Prop where
  hostIpv6 : Avoids (ascii "%+") u.hostIpv6
  user : Avoids (ascii "%+") u.user
  password : Avoids (ascii "%+") u.password
  no_user : u.user = [] → byteOf '@' ∉ u.hostIpv6 ∧ u.password = []
  front : u.scheme = [] → trimFront u.user = u.user

/-- The object comes back. -/
structure RoundTrips (u : Url) : Prop where
  name : u.host ≠ [] → u.NameRoundTrips
  ipv6 : u.hostIpv6 ≠ [] → u.Ipv6RoundTrips
  no_host : u.host = [] → u.hostIpv6 = [] → u.user = [] ∧ u.password = [] ∧ u.port = []
  path : Avoids (ascii "%+") u.path
  path_scheme : u.scheme = [] → ¬ ascii "://" <:+: u.path
  path_back : u.query = ∅ → u.fragment = [] → trimBack u.path = u.path
  query : ∀ pair ∈ u.query.toList, Recodes pair.1 ∧ Recodes pair.2
  fragment : Recodes u.fragment

variable {u : Url}

/-- Nothing is written before the authority exactly if there is no scheme. -/
theorem isNone_pieces_scheme : u.pieces.scheme.isNone = true ↔ u.scheme = [] := by
  rw [pieces]
  cases u.scheme <;> simp [nonEmpty]

/-- Nothing is written after the path exactly if there are no query and no fragment. -/
theorem isEmpty_pieces_tail : u.pieces.tail.isEmpty = true ↔ u.query = ∅ ∧ u.fragment = [] := by
  have hquery : Pieces.component '?' u.pieces.query = [] ↔ u.query = ∅ := by
    rw [← Std.ExtTreeMap.toList_eq_nil_iff, pieces]
    cases u.query.toList <;> simp [nonEmpty, Pieces.component]
  have hfragment : Pieces.component '#' u.pieces.fragment = [] ↔ u.fragment = [] := by
    rw [pieces]
    cases u.fragment <;> simp [nonEmpty, Pieces.component]
  rw [List.isEmpty_iff, Pieces.tail, List.append_eq_nil_iff, hquery, hfragment]

/-- Nothing is written after the authority exactly if there are no path, no query and no
fragment. -/
theorem isEmpty_pieces_path_tail : (u.pieces.path ++ u.pieces.tail).isEmpty = true ↔
    u.path = [] ∧ u.query = ∅ ∧ u.fragment = [] := by
  rw [List.isEmpty_iff, List.append_eq_nil_iff, ← isEmpty_pieces_tail, List.isEmpty_iff]
  rfl

/-- An authority with a host name is read back exactly if it comes back. -/
theorem nameRoundTrips_iff (hu : u.Accepted) (hne : u.host ≠ []) :
    (∃ parts, parseAuthority u.pieces.trimmed.auth = some parts ∧ u.Holds parts) ↔
      u.NameRoundTrips := by
  have hauth : u.pieces.trimmed.auth = u.userInfo percentEncode ++
      (trimEnds isSpace (u.pieces.scheme.isNone && u.user.isEmpty)
        ((u.pieces.path ++ u.pieces.tail).isEmpty && u.port.isEmpty) u.host ++
        Pieces.component ':' (nonEmpty u.port)) := trimEnds_authorityText_name hu hne
  have htrim : trimEnds isSpace (u.pieces.scheme.isNone && u.user.isEmpty)
        ((u.pieces.path ++ u.pieces.tail).isEmpty && u.port.isEmpty) u.host = u.host ↔
      (u.scheme = [] → u.user = [] → trimFront u.host = u.host) ∧
        (u.path = [] ∧ u.query = ∅ ∧ u.fragment = [] → u.port = [] →
          trimBack u.host = u.host) := by
    rw [trimEnds_eq_self_iff, Bool.and_eq_true, Bool.and_eq_true, isNone_pieces_scheme,
      isEmpty_pieces_path_tail, List.isEmpty_iff, List.isEmpty_iff, and_imp,
      @and_imp (_ ∧ _) (u.port = [])]
    rfl
  rw [hauth, holds_parseAuthority_name_iff hu hne trimEnds_isInfix, htrim]
  constructor
  · rintro ⟨⟨⟨hfront, hback⟩, havoids⟩, hbracket, huser, hpassword, hplain⟩
    exact {
      host := havoids
      bracket := hbracket
      user := huser
      password := hpassword
      no_user := hplain
      front := hfront
      back := fun hport hpath hquery hfragment => hback ⟨hpath, hquery, hfragment⟩ hport }
  · intro hname
    exact ⟨⟨⟨hname.front, fun hrest hport => hname.back hport hrest.1 hrest.2.1 hrest.2.2⟩,
      hname.host⟩, hname.bracket, hname.user, hname.password, hname.no_user⟩

/-- An authority with an IPv6 host is read back exactly if it comes back. -/
theorem ipv6RoundTrips_iff (hu : u.Accepted) (hne : u.hostIpv6 ≠ []) :
    (∃ parts, parseAuthority u.pieces.trimmed.auth = some parts ∧ u.Holds parts) ↔
      u.Ipv6RoundTrips := by
  by_cases huser : u.user = []
  · have hauth : u.pieces.trimmed.auth = byteOf '[' :: u.hostIpv6 ++ [byteOf ']'] :=
      trimEnds_authorityText_bracket hu hne huser
    rw [hauth, holds_parseAuthority_bracket_iff hu hne huser]
    constructor
    · rintro ⟨havoids, hat, hpassword⟩
      exact {
        hostIpv6 := havoids
        user := by simp [huser, avoids_nil]
        password := by simp [hpassword, avoids_nil]
        no_user := fun _ => ⟨hat, hpassword⟩
        front := fun _ => by rw [huser]; rfl }
    · intro hipv6
      exact ⟨hipv6.hostIpv6, hipv6.no_user huser⟩
  · have hauth : u.pieces.trimmed.auth = trimEnds isSpace u.pieces.scheme.isNone false u.user ++
        Pieces.component ':' (nonEmpty u.password) ++
          byteOf '@' :: (byteOf '[' :: u.hostIpv6 ++ [byteOf ']']) :=
      trimEnds_authorityText_ipv6 hu hne huser
    have htrim : trimEnds isSpace u.pieces.scheme.isNone false u.user = u.user ↔
        (u.scheme = [] → trimFront u.user = u.user) := by
      rw [trimEnds_eq_self_iff, isNone_pieces_scheme]
      simp [trimFront]
    rw [hauth, holds_parseAuthority_ipv6_iff hu hne trimEnds_isInfix, htrim]
    constructor
    · rintro ⟨hhost, ⟨hfront, havoids⟩, hpassword⟩
      exact ⟨hhost, havoids, hpassword, fun hnil => absurd hnil huser, hfront⟩
    · intro hipv6
      exact ⟨hipv6.hostIpv6, ⟨hipv6.front, hipv6.user⟩, hipv6.password⟩

/-- Without a host nothing else of an authority is written. -/
theorem noHostRoundTrips_iff (hhost : u.host = []) (hipv6 : u.hostIpv6 = []) :
    (∃ parts, parseAuthority u.pieces.trimmed.auth = some parts ∧ u.Holds parts) ↔
      u.user = [] ∧ u.password = [] ∧ u.port = [] := by
  have hempty : u.pieces.auth = [] := by simp [pieces, authorityText, hhost, hipv6]
  have hauth : u.pieces.trimmed.auth = [] := by
    change trimEnds isSpace _ _ u.pieces.auth = []
    rw [hempty]
    exact List.infix_nil.mp trimEnds_isInfix
  have hparse : parseAuthority [] = some {} := rfl
  rw [hauth, hparse]
  simp only [Option.some.injEq, exists_eq_left', holds_empty_iff, hhost, hipv6, true_and]
  constructor
  · rintro ⟨hport, huser, hpassword⟩
    exact ⟨huser, hpassword, hport⟩
  · rintro ⟨huser, hpassword, hport⟩
    exact ⟨hport, huser, hpassword⟩

/-- A path with a scheme in it is not read back without a scheme before it. -/
theorem scheme_not_infix_path (hu : u.Accepted) (hscheme : u.scheme = [])
    (hback : ({} : Url).parse u.normalize = .ok u) : ¬ ascii "://" <:+: u.path := by
  obtain ⟨p, hwf, htext⟩ := exists_pieces (trim u.normalize)
  have hgives := (parse_eq_ok_iff hwf htext.symm).mp hback
  have hrest : p.text = u.pieces.trimmed.auth ++
      (u.pieces.trimmed.path ++ u.pieces.trimmed.tail) := by
    rw [htext, trim_normalize hu, Pieces.text]
    simp [Pieces.trimmed, pieces, hscheme, nonEmpty, Pieces.rest, Pieces.tail]
  cases hsome : p.scheme with
  | none =>
    intro hpath
    have hfind := hwf.scheme
    rw [hsome, Option.map_none, findStr_eq_none_iff (by decide), hrest] at hfind
    have hpart : u.pieces.trimmed.path <:+: u.pieces.trimmed.auth ++
        (u.pieces.trimmed.path ++ u.pieces.trimmed.tail) := ⟨_, _, List.append_assoc _ _ _⟩
    exact hfind ((Pieces.scheme_infix_trimmed_path (by exact hpath)).trans hpart)
  | some scheme =>
    -- The scheme that is read is empty, but the string starts with an authority or a path.
    have hempty : scheme = [] := by simpa [hscheme, hsome] using hgives.scheme
    have hstart : ascii "://" <+: u.pieces.trimmed.auth ++
        (u.pieces.trimmed.path ++ u.pieces.trimmed.tail) := by
      rw [← hrest, Pieces.text, hsome, hempty]
      exact ⟨p.rest, rfl⟩
    by_cases hnil : u.pieces.trimmed.auth = []
    · obtain ⟨rest, heq⟩ := hstart
      rw [hnil, List.nil_append] at heq
      have hmark := stops_rest (trimmed_path_slash hu) (byteOf ':') (by exact heq ▸ rfl)
      exact absurd hmark (by decide)
    · have havoids : Avoids (ascii "/?#") u.pieces.trimmed.auth :=
        (avoids_authorityText hu).of_part trimEnds_isInfix
      exact absurd hstart (not_scheme_isPrefix_append hnil (havoids.notMem (by decide))
        (getLast?_trimEnds_authorityText hu))

/-- The query is read back exactly if every key and every value comes back. -/
theorem parseQuery_pieces_iff : parseQuery (u.pieces.query.getD []) = .ok u.query ↔
    ∀ pair ∈ u.query.toList, Recodes pair.1 ∧ Recodes pair.2 := by
  have hencoded : ∀ str, Avoids (ascii "&=") (percentEncode str) :=
    avoids_percentEncode (by decide)
  have hplain : ∀ str, Plain (percentEncode str) := fun str =>
    ⟨(hencoded str).notMem (by decide), (hencoded str).notMem (by decide)⟩
  have hidem : ∀ str : Bytes, (str.map recode).map recode = str.map recode := by
    have hbyte : ∀ c, recode (recode c) = recode c :=
      forall_byte (P := fun c => recode (recode c) = recode c) (by decide +kernel)
    simp [hbyte]
  have htext : u.pieces.query.getD [] =
      pairsText (u.query.toList.map (Prod.map percentEncode percentEncode)) :=
    getD_map_nonEmpty rfl u.query.toList
  rw [htext, parseQuery_pairsText (fun pair _ => ⟨hplain pair.1, hplain pair.2⟩)
    (fun pair _ => ⟨percentDecode_percentEncode pair.1, percentDecode_percentEncode pair.2⟩),
    Except.ok.injEq, ofList_map_toList_eq_iff hidem hidem]
  simp only [map_recode_eq_self_iff]
  rfl

/-- The path is read back exactly if it is not trimmed and needs no decoding. -/
theorem percentDecode_pieces_path_iff : percentDecode u.pieces.trimmed.path = some u.path ↔
    (u.query = ∅ → u.fragment = [] → trimBack u.path = u.path) ∧ Avoids (ascii "%+") u.path := by
  have htrim : u.pieces.trimmed.path = u.path ↔
      (u.query = ∅ → u.fragment = [] → trimBack u.path = u.path) := by
    change trimEnds isSpace false u.pieces.tail.isEmpty u.path = u.path ↔ _
    rw [trimEnds_eq_self_iff, isEmpty_pieces_tail, and_imp]
    simp [trimBack]
  rw [percentDecode_eq_some_iff (by exact u.pieces.trimmed_path_isPrefix.isInfix), htrim]

/-- The fragment is read back exactly if it comes back. -/
theorem percentDecode_pieces_fragment_iff :
    percentDecode (u.pieces.fragment.getD []) = some u.fragment ↔ Recodes u.fragment := by
  have htext : u.pieces.fragment.getD [] = percentEncode u.fragment :=
    getD_map_nonEmpty rfl u.fragment
  rw [htext, recodes_iff]

/-- A fresh object accepts what is written for an accepted one and becomes the same exactly if the
members come back. -/
theorem parse_normalize_iff (str : Bytes) (u : Url) (hparse : ({} : Url).parse str = .ok u) :
    ({} : Url).parse u.normalize = .ok u ↔ u.RoundTrips := by
  have hu := accepted_of_parse hparse
  constructor
  · intro hback
    have hscheme : u.scheme = [] → ¬ ascii "://" <:+: u.path :=
      fun hnil => scheme_not_infix_path hu hnil hback
    have hgives :=
      (parse_eq_ok_iff (trimmed_wellFormed hu hscheme) (trim_normalize hu)).mp hback
    obtain ⟨hpath_back, hpath⟩ := percentDecode_pieces_path_iff.mp hgives.path
    exact {
      name := fun hne => (nameRoundTrips_iff hu hne).mp hgives.auth
      ipv6 := fun hne => (ipv6RoundTrips_iff hu hne).mp hgives.auth
      no_host := fun hhost hipv6 => (noHostRoundTrips_iff hhost hipv6).mp hgives.auth
      path := hpath
      path_scheme := hscheme
      path_back := hpath_back
      query := parseQuery_pieces_iff.mp hgives.query
      fragment := percentDecode_pieces_fragment_iff.mp hgives.fragment }
  · intro hround
    refine (parse_eq_ok_iff (trimmed_wellFormed hu hround.path_scheme) (trim_normalize hu)).mpr ?_
    exact {
      valid := by
        intro scheme hmem
        rw [← eq_of_nonEmpty hmem]
        exact List.all_eq_true.mpr hu.scheme
      scheme := by
        change u.scheme = ((nonEmpty u.scheme).getD []).map toLower
        rw [getD_nonEmpty, hu.scheme_lower]
      auth := by
        by_cases hhost : u.host = []
        · by_cases hipv6 : u.hostIpv6 = []
          · exact (noHostRoundTrips_iff hhost hipv6).mpr (hround.no_host hhost hipv6)
          · exact (ipv6RoundTrips_iff hu hipv6).mpr (hround.ipv6 hipv6)
        · exact (nameRoundTrips_iff hu hhost).mpr (hround.name hhost)
      path := percentDecode_pieces_path_iff.mpr ⟨hround.path_back, hround.path⟩
      query := parseQuery_pieces_iff.mpr hround.query
      fragment := percentDecode_pieces_fragment_iff.mpr hround.fragment
      present := hu.present }

/-- What `http://u:p@Host:80/path?k=v#f` leaves in an object. -/
def httpUrl : Url where
  scheme := ascii "http"
  user := ascii "u"
  password := ascii "p"
  host := ascii "host"
  port := ascii "80"
  path := ascii "/path"
  query := .ofList [(ascii "k", ascii "v")]
  fragment := ascii "f"

/-- The object is an accepted one, and what is written for it is parsed as the object. -/
theorem parse_normalize_httpUrl :
    ({} : Url).parse (ascii "http://u:p@Host:80/path?k=v#f") = .ok httpUrl ∧
      ({} : Url).parse httpUrl.normalize = .ok httpUrl ∧ httpUrl.RoundTrips := by
  have hparse : ({} : Url).parse (ascii "http://u:p@Host:80/path?k=v#f") = .ok httpUrl := by
    decide +kernel
  have hback : ({} : Url).parse httpUrl.normalize = .ok httpUrl := by decide +kernel
  exact ⟨hparse, hback, (parse_normalize_iff _ httpUrl hparse).mp hback⟩

/-- The fragment of `h#a!` is written as `a%21` and read back with a byte `0x01` at its end. -/
theorem parse_normalize_fragment :
    ({} : Url).parse (ascii "h#a!") = .ok { host := ascii "h", fragment := ascii "a!" } ∧
    normalize { host := ascii "h", fragment := ascii "a!" } = ascii "h#a%21" ∧
    ({} : Url).parse (ascii "h#a%21") =
      .ok { host := ascii "h", fragment := [byteOf 'a', 0x01] } ∧
    ¬ ∀ str u, ({} : Url).parse str = .ok u → ({} : Url).parse u.normalize = .ok u := by
  have hfirst : ({} : Url).parse (ascii "h#a!") =
      .ok { host := ascii "h", fragment := ascii "a!" } := by decide +kernel
  have hwritten : normalize { host := ascii "h", fragment := ascii "a!" } = ascii "h#a%21" := by
    decide +kernel
  have hsecond : ({} : Url).parse (ascii "h#a%21") =
      .ok { host := ascii "h", fragment := [byteOf 'a', 0x01] } := by decide +kernel
  refine ⟨hfirst, hwritten, hsecond, fun hall => ?_⟩
  have hback := hall _ _ hfirst
  rw [hwritten, hsecond] at hback
  have hfragment : [byteOf 'a', 0x01] = ascii "a!" :=
    congrArg Url.fragment (Except.ok.inj hback)
  exact absurd hfragment (by decide)

end Url

end Demos.Oak
