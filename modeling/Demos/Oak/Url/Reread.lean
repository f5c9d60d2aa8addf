import Demos.Oak.Url.Normalize

/-!
# Reading back an authority that `Url::Normalize` writes

What `ParseAuthority` reads from the authority of an accepted object, once it is trimmed, is decoded
as the members of the object only under conditions on them: a host name must be the whole name, need
no decoding and not be taken for an address or a user; an encoded user comes back only if the first
digit of every encoded byte is zero.
-/

namespace Demos.Oak

open Demos.Lib

/-- Every byte is one that comes back when it is encoded and decoded. -/
def Recodes (str : Bytes) : Prop := ∀ c ∈ str, isUnreserved c = true ∨ c < 0x10

/-- A text comes back when all its bytes do. -/
theorem recodes_iff {str : Bytes} : percentDecode (percentEncode str) = some str ↔ Recodes str := by
  rw [percentDecode_percentEncode, Option.some.injEq, map_recode_eq_self_iff]
  rfl

namespace Url

variable {u : Url} {parts parts' : Authority} {host user password : Bytes}

theorem Holds.host_length_le (hholds : u.Holds parts) : u.host.length ≤ parts.host.length := by
  obtain ⟨host, hhost, hlower⟩ := Option.map_eq_some_iff.mp hholds.host
  rw [← hlower, List.length_map]
  exact (decodes_of_percentDecode hhost).length_le

/-- The parts of an authority with a host name hold exactly if each member is decoded. -/
theorem holds_name_iff (hu : u.Accepted) (hne : u.host ≠ []) (hhost : host <:+: u.host) :
    u.Holds { user := user, password := password, host := host, port := u.port } ↔
      (host = u.host ∧ Avoids (ascii "%+") u.host) ∧
        percentDecode user = some u.user ∧ percentDecode password = some u.password := by
  have hdecode := percentDecode_map_eq_iff (f := toLower) (by decide) hu.host_lower hhost
  have hport : percentDecode u.port = some u.port :=
    percentDecode_of_avoids (avoids_of_forall (List.all_eq_true.mp hu.port) (by decide))
  have hipv6 : u.hostIpv6 = [] := hu.one_host.resolve_left hne
  constructor
  · intro hholds
    exact ⟨hdecode.mp hholds.host, hholds.user, hholds.password⟩
  · rintro ⟨hsame, huser, hpassword⟩
    exact {
      host := hdecode.mpr hsame
      hostIpv6 := by rw [hipv6]; rfl
      port := hport
      digits := hu.port
      user := huser
      password := hpassword }

/-- The parts of an authority with an IPv6 host hold exactly if each member is decoded. -/
theorem holds_ipv6_iff (hu : u.Accepted) (hne : u.hostIpv6 ≠ []) :
    u.Holds { user := user, password := password, hostIpv6 := u.hostIpv6 } ↔
      Avoids (ascii "%+") u.hostIpv6 ∧
        percentDecode user = some u.user ∧ percentDecode password = some u.password := by
  have hdecode := percentDecode_map_eq_iff (f := toLower) (by decide) hu.hostIpv6_lower
    List.infix_rfl
  have hname : u.host = [] := hu.one_host.resolve_right hne
  constructor
  · intro hholds
    exact ⟨(hdecode.mp hholds.hostIpv6).2, hholds.user, hholds.password⟩
  · rintro ⟨havoids, huser, hpassword⟩
    exact {
      host := by rw [hname]; rfl
      hostIpv6 := hdecode.mpr ⟨rfl, havoids⟩
      port := by rw [hu.ipv6_port hne]; rfl
      digits := hu.port
      user := huser
      password := hpassword }

/-- A host name is read as one, if a host name is read. -/
theorem parseHost_eq_some_name {port : Option Bytes} (hport : parts.port = [])
    (hempty : parts.host = []) (hcolon : byteOf ':' ∉ host)
    (hparse : parseHost parts (host ++ Pieces.component ':' port) = some parts')
    (hne : parts'.host ≠ []) :
    (host ++ Pieces.component ':' port).head? ≠ some (byteOf '[') ∧
      parts' = { parts with host := host, port := port.getD [] } := by
  have hbracket : (host ++ Pieces.component ':' port).head? ≠ some (byteOf '[') := by
    intro hhead
    obtain ⟨_, _, _, hnot, _⟩ | ⟨_, _, _, _, rfl⟩ := parseHost_cases hport hparse
    · exact hnot hhead
    · exact hne hempty
  rw [parseHost_name hport hcolon hbracket] at hparse
  exact ⟨hbracket, (Option.some.inj hparse).symm⟩

/-- Behind an at sign the host name that is read is the text that follows, since the at sign ends a
user. -/
theorem host_of_parseAuthority_at {pre text : Bytes} {port : Option Bytes} (hat : byteOf '@' ∉ pre)
    (hpre : byteOf ':' ∉ pre) (hpost : byteOf ':' ∉ text)
    (hparts : parseAuthority
      (pre ++ Pieces.component '@' (some text) ++ Pieces.component ':' port) = some parts)
    (hname : parts.host ≠ []) : parts.host = text := by
  have htext : pre ++ Pieces.component '@' (some text) ++ Pieces.component ':' port =
      pre ++ Pieces.component ':' none ++ byteOf '@' :: (text ++ Pieces.component ':' port) := by
    simp [Pieces.component]
  have hrest : text ++ Pieces.component ':' port ≠ [] := by
    intro hnil
    rw [htext, hnil, parseAuthority, parseUserInfo_nil (by simpa [Pieces.component])] at hparts
    exact absurd hparts (by simp)
  rw [htext, parseAuthority_eq (parseUserInfo_some ⟨hat, hpre⟩ (by simp) hrest)] at hparts
  obtain ⟨-, rfl⟩ := parseHost_eq_some_name rfl rfl hpost hparts hname
  rfl

/-- A host name without a user is read back exactly if it is the whole name, needs no decoding, is
not taken for an address and has no at sign. -/
theorem holds_parseAuthority_host_iff (hu : u.Accepted) (hne : u.host ≠ [])
    (hhost : host <:+: u.host) (huser : u.user = []) :
    (∃ parts, parseAuthority (host ++ Pieces.component ':' (nonEmpty u.port)) = some parts ∧
      u.Holds parts) ↔
    (host = u.host ∧ Avoids (ascii "%+") u.host) ∧ u.host.head? ≠ some (byteOf '[') ∧
      byteOf '@' ∉ u.host ∧ u.password = [] := by
  have hcolon : byteOf ':' ∉ host := (hu.host.of_part hhost).notMem (by decide)
  have hdigits : Avoids (ascii "@") (Pieces.component ':' (nonEmpty u.port)) :=
    avoids_port hu (by decide) (by decide)
  have hport : byteOf '@' ∉ Pieces.component ':' (nonEmpty u.port) := hdigits.notMem (by decide)
  constructor
  · rintro ⟨parts, hparts, hholds⟩
    have hlong := hholds.host_length_le
    have hname : parts.host ≠ [] := fun hnil => hne (by simpa [hnil] using hlong)
    obtain ⟨pre, text, rfl, hat⟩ := exists_component '@' host
    cases text with
    | none =>
      rw [Pieces.component, List.append_nil] at *
      have hat' : byteOf '@' ∉ pre ++ Pieces.component ':' (nonEmpty u.port) := by
        simp [hat, hport]
      rw [parseAuthority_eq (parseUserInfo_none hat')] at hparts
      obtain ⟨hbracket, rfl⟩ := parseHost_eq_some_name rfl rfl hcolon hparts hname
      rw [getD_nonEmpty, holds_name_iff hu hne hhost] at hholds
      obtain ⟨⟨rfl, havoids⟩, -, hpassword⟩ := hholds
      rw [List.head?_append_of_ne_nil _ hne] at hbracket
      exact ⟨⟨rfl, havoids⟩, hbracket, hat, (Option.some.inj hpassword).symm⟩
    | some text =>
      -- the name that is read is shorter than the one it must equal
      have hpre : byteOf ':' ∉ pre := fun hmem => hcolon (List.mem_append_left _ hmem)
      have hpost : byteOf ':' ∉ text := fun hmem =>
        hcolon (List.mem_append_right _ (List.mem_cons_of_mem _ hmem))
      have hread : parts.host = text := host_of_parseAuthority_at hat hpre hpost hparts hname
      have hshort := hhost.length_le
      simp only [Pieces.component, List.length_append, List.length_cons] at hshort
      rw [hread] at hlong
      omega
  · rintro ⟨⟨rfl, havoids⟩, hbracket, hat, hpassword⟩
    have hat' : byteOf '@' ∉ u.host ++ Pieces.component ':' (nonEmpty u.port) := by
      simp [hat, hport]
    have hhead : (u.host ++ Pieces.component ':' (nonEmpty u.port)).head? ≠ some (byteOf '[') := by
      rwa [List.head?_append_of_ne_nil _ hne]
    refine ⟨{ host := u.host, port := u.port }, ?_, ?_⟩
    · rw [parseAuthority_eq (parseUserInfo_none hat'), parseHost_name rfl hcolon hhead,
        getD_nonEmpty]
    · refine (holds_name_iff hu hne List.infix_rfl).mpr ⟨⟨rfl, havoids⟩, ?_, ?_⟩
      · rw [huser]
        rfl
      · rw [hpassword]
        rfl

/-- The host is read after an encoded user. -/
theorem parseAuthority_userInfo {rest : Bytes} (huser : u.user ≠ []) (hrest : rest ≠ []) :
    parseAuthority (u.userInfo percentEncode ++ rest) =
      parseHost { user := percentEncode u.user, password := percentEncode u.password } rest := by
  have hencoded : ∀ str, Avoids (ascii "@:") (percentEncode str) :=
    avoids_percentEncode (by decide)
  have hpassword : ((nonEmpty u.password).map percentEncode).getD [] = percentEncode u.password :=
    getD_map_nonEmpty rfl u.password
  have hat : byteOf '@' ∉ ((nonEmpty u.password).map percentEncode).getD [] := by
    rw [hpassword]
    exact (hencoded u.password).notMem (by decide)
  rw [userInfo_of_ne_nil percentEncode huser, List.append_assoc, List.singleton_append,
    parseAuthority_eq (parseUserInfo_some ⟨(hencoded u.user).notMem (by decide),
      (hencoded u.user).notMem (by decide)⟩ hat hrest), hpassword]

/-- An encoded user without a host is rejected. -/
theorem parseAuthority_userInfo_nil (huser : u.user ≠ []) :
    parseAuthority (u.userInfo percentEncode) = none := by
  have havoids : Avoids (ascii "@") (percentEncode u.user ++
      Pieces.component ':' ((nonEmpty u.password).map percentEncode)) :=
    u.avoids_user (by decide) (by decide)
  rw [userInfo_of_ne_nil percentEncode huser, parseAuthority,
    parseUserInfo_nil (havoids.notMem (by decide))]
  rfl

/-- A host name after a user is read back exactly if it is the whole name, needs no decoding and is
not taken for an address, and if the user and the password come back. -/
theorem holds_parseAuthority_user_iff (hu : u.Accepted) (hne : u.host ≠ [])
    (hhost : host <:+: u.host) (huser : u.user ≠ []) :
    (∃ parts, parseAuthority (u.userInfo percentEncode ++
      (host ++ Pieces.component ':' (nonEmpty u.port))) = some parts ∧ u.Holds parts) ↔
    (host = u.host ∧ Avoids (ascii "%+") u.host) ∧ u.host.head? ≠ some (byteOf '[') ∧
      Recodes u.user ∧ Recodes u.password := by
  have hcolon : byteOf ':' ∉ host := (hu.host.of_part hhost).notMem (by decide)
  constructor
  · rintro ⟨parts, hparts, hholds⟩
    have hlong := hholds.host_length_le
    have hname : parts.host ≠ [] := fun hnil => hne (by simpa [hnil] using hlong)
    have hrest : host ++ Pieces.component ':' (nonEmpty u.port) ≠ [] := by
      intro hnil
      rw [hnil, List.append_nil, parseAuthority_userInfo_nil huser] at hparts
      exact absurd hparts (by simp)
    rw [parseAuthority_userInfo huser hrest] at hparts
    obtain ⟨hbracket, rfl⟩ := parseHost_eq_some_name rfl rfl hcolon hparts hname
    rw [getD_nonEmpty, holds_name_iff hu hne hhost, recodes_iff, recodes_iff] at hholds
    obtain ⟨⟨rfl, havoids⟩, hrecodes⟩ := hholds
    rw [List.head?_append_of_ne_nil _ hne] at hbracket
    exact ⟨⟨rfl, havoids⟩, hbracket, hrecodes⟩
  · rintro ⟨⟨rfl, havoids⟩, hbracket, hrecodes⟩
    have hhead : (u.host ++ Pieces.component ':' (nonEmpty u.port)).head? ≠ some (byteOf '[') := by
      rwa [List.head?_append_of_ne_nil _ hne]
    refine ⟨_, (parseAuthority_userInfo huser (by simp [hne])).trans
      (parseHost_name rfl hcolon hhead), ?_⟩
    rw [getD_nonEmpty, holds_name_iff hu hne List.infix_rfl, recodes_iff, recodes_iff]
    exact ⟨⟨rfl, havoids⟩, hrecodes⟩

/-- A host name is read back exactly if it is the whole name, needs no decoding and is not taken for
an address or for a user, and if the user and the password come back. -/
theorem holds_parseAuthority_name_iff (hu : u.Accepted) (hne : u.host ≠ [])
    (hhost : host <:+: u.host) :
    (∃ parts, parseAuthority (u.userInfo percentEncode ++
      (host ++ Pieces.component ':' (nonEmpty u.port))) = some parts ∧ u.Holds parts) ↔
    (host = u.host ∧ Avoids (ascii "%+") u.host) ∧ u.host.head? ≠ some (byteOf '[') ∧
      Recodes u.user ∧ Recodes u.password ∧
      (u.user = [] → byteOf '@' ∉ u.host ∧ u.password = []) := by
  by_cases huser : u.user = []
  · have hnone : u.userInfo percentEncode = [] := by simp [userInfo, huser]
    rw [hnone, List.nil_append, holds_parseAuthority_host_iff hu hne hhost huser]
    constructor
    · rintro ⟨hsame, hbracket, hat, hpassword⟩
      exact ⟨hsame, hbracket, by simp [huser, Recodes], by simp [hpassword, Recodes],
        fun _ => ⟨hat, hpassword⟩⟩
    · rintro ⟨hsame, hbracket, -, -, hplain⟩
      exact ⟨hsame, hbracket, hplain huser⟩
  · rw [holds_parseAuthority_user_iff hu hne hhost huser]
    simp [huser]

/-- An IPv6 host after a user is read back exactly if it is after the whole user and none of the
members needs decoding. -/
theorem holds_parseAuthority_ipv6_iff (hu : u.Accepted) (hne : u.hostIpv6 ≠ [])
    (huser : user <:+: u.user) :
    (∃ parts, parseAuthority (user ++ Pieces.component ':' (nonEmpty u.password) ++
      byteOf '@' :: (byteOf '[' :: u.hostIpv6 ++ [byteOf ']'])) = some parts ∧ u.Holds parts) ↔
    Avoids (ascii "%+") u.hostIpv6 ∧ (user = u.user ∧ Avoids (ascii "%+") u.user) ∧
      Avoids (ascii "%+") u.password := by
  have hchars := hu.user.of_part huser
  have hat : byteOf '@' ∉ (nonEmpty u.password).getD [] := by
    rw [getD_nonEmpty]
    exact hu.password.notMem (by decide)
  have haddress : parseHost { user := user, password := u.password }
      (byteOf '[' :: u.hostIpv6 ++ [byteOf ']']) =
      some { user := user, password := u.password, hostIpv6 := u.hostIpv6 } :=
    @parseHost_ipv6 _ none _ rfl (hu.hostIpv6.notMem (by decide))
  have hparse : parseAuthority (user ++ Pieces.component ':' (nonEmpty u.password) ++
      byteOf '@' :: (byteOf '[' :: u.hostIpv6 ++ [byteOf ']'])) =
      some { user := user, password := u.password, hostIpv6 := u.hostIpv6 } := by
    rw [parseAuthority_eq (parseUserInfo_some
      ⟨hchars.notMem (by decide), hchars.notMem (by decide)⟩ hat (by simp)), getD_nonEmpty,
      haddress]
  have hholds := @holds_ipv6_iff u user u.password hu hne
  rw [percentDecode_eq_some_iff huser, percentDecode_eq_some_iff List.infix_rfl] at hholds
  rw [hparse]
  simpa using hholds

/-- An IPv6 host without a user is read back exactly if it needs no decoding and has no at sign. -/
theorem holds_parseAuthority_bracket_iff (hu : u.Accepted) (hne : u.hostIpv6 ≠ [])
    (huser : u.user = []) :
    (∃ parts, parseAuthority (byteOf '[' :: u.hostIpv6 ++ [byteOf ']']) = some parts ∧
      u.Holds parts) ↔
    Avoids (ascii "%+") u.hostIpv6 ∧ byteOf '@' ∉ u.hostIpv6 ∧ u.password = [] := by
  have haddress : parseHost {} (byteOf '[' :: u.hostIpv6 ++ [byteOf ']']) =
      some { hostIpv6 := u.hostIpv6 } :=
    @parseHost_ipv6 _ none _ rfl (hu.hostIpv6.notMem (by decide))
  by_cases hat : byteOf '@' ∈ u.hostIpv6
  · refine iff_of_false ?_ fun hright => hright.2.1 hat
    rintro ⟨parts, hparts, hholds⟩
    obtain ⟨⟨parts₁, rest⟩, huserInfo, hhost⟩ := Option.bind_eq_some_iff.mp hparts
    obtain ⟨hnone, -⟩ | ⟨user, password, htext, -, -, -, rfl⟩ := parseUserInfo_cases huserInfo
    · exact hnone (by simp [hat])
    · have hread : parts.user = user := by
        obtain ⟨_, _, _, _, _, rfl⟩ | ⟨_, _, _, _, rfl⟩ := parseHost_cases rfl hhost
        · rfl
        · rfl
      have hnil : user = [] := by
        have hdecodes := decodes_of_percentDecode hholds.user
        rw [huser, hread] at hdecodes
        cases hdecodes
        rfl
      have hhead := congrArg List.head? htext
      rw [hnil] at hhead
      cases password with
      | none => exact absurd (Option.some.inj hhead : byteOf '[' = byteOf '@') (by decide)
      | some password => exact absurd (Option.some.inj hhead : byteOf '[' = byteOf ':') (by decide)
  · have hat' : byteOf '@' ∉ byteOf '[' :: u.hostIpv6 ++ [byteOf ']'] := by
      have hopen : byteOf '@' ≠ byteOf '[' := by decide
      have hclose : byteOf '@' ≠ byteOf ']' := by decide
      simp [hat, hopen, hclose]
    have hparse : parseAuthority (byteOf '[' :: u.hostIpv6 ++ [byteOf ']']) =
        some { hostIpv6 := u.hostIpv6 } := by
      rw [parseAuthority_eq (parseUserInfo_none hat'), haddress]
    have hholds := @holds_ipv6_iff u [] [] hu hne
    have hnil : percentDecode [] = some [] := rfl
    rw [hnil, huser] at hholds
    rw [hparse]
    simpa [hat, @eq_comm _ [] u.password] using hholds

end Url

end Demos.Oak
