import Demos.Oak.Url.Decode

/-!
# What an accepted string leaves in the object

The members of an accepted object have none of the delimiters at which the string was cut, since
decoding adds none. One of the two hosts is empty, and there is no port with an IPv6 host.
-/

namespace Demos.Oak

open Demos.Lib

section Authority

variable {auth rest : Bytes} {parts parts' : Authority}

/-- The two ways to read a user: there is none, or an at sign follows. -/
theorem parseUserInfo_cases (hparse : parseUserInfo auth = some (parts, rest)) :
    (byteOf '@' ∉ auth ∧ parts = {} ∧ rest = auth) ∨
      ∃ user password, auth = user ++ Pieces.component ':' password ++ byteOf '@' :: rest ∧
        byteOf '@' ∉ user ∧ byteOf ':' ∉ user ∧ byteOf '@' ∉ password.getD [] ∧
        parts = { user := user, password := password.getD [] } := by
  obtain ⟨userPass, text, rfl, hat⟩ := exists_component '@' auth
  cases text with
  | none =>
    have hnone : byteOf '@' ∉ userPass ++ Pieces.component '@' none := by
      simpa [Pieces.component] using hat
    rw [parseUserInfo_none hnone, Option.some.injEq, Prod.mk.injEq] at hparse
    exact .inl ⟨hnone, hparse.1.symm, hparse.2.symm⟩
  | some text =>
    have hne : text ≠ [] := by
      rintro rfl
      rw [Pieces.component, parseUserInfo_nil hat] at hparse
      exact absurd hparse (by simp)
    obtain ⟨user, password, rfl, hcolon⟩ := exists_component ':' userPass
    have huser : byteOf '@' ∉ user := fun hmem => hat (List.mem_append_left _ hmem)
    have hpassword : byteOf '@' ∉ password.getD [] := by
      cases password with
      | none => simp
      | some password =>
        exact fun hmem => hat (List.mem_append_right _ (List.mem_cons_of_mem _ hmem))
    rw [Pieces.component_some, parseUserInfo_some ⟨huser, hcolon⟩ hpassword hne,
      Option.some.injEq, Prod.mk.injEq] at hparse
    obtain ⟨rfl, rfl⟩ := hparse
    exact .inr ⟨user, password, rfl, huser, hcolon, hpassword, rfl⟩

/-- The two ways to read a host: a name, or an address in brackets. -/
theorem parseHost_cases (hport : parts.port = []) (hparse : parseHost parts auth = some parts') :
    (∃ host port, auth = host ++ Pieces.component ':' port ∧ auth.head? ≠ some (byteOf '[') ∧
      byteOf ':' ∉ host ∧ parts' = { parts with host := host, port := port.getD [] }) ∨
    ∃ hostIpv6 port, auth = byteOf '[' :: hostIpv6 ++ byteOf ']' :: Pieces.component ':' port ∧
      byteOf ']' ∉ hostIpv6 ∧
      parts' = { parts with hostIpv6 := hostIpv6, port := Pieces.component ':' port } := by
  by_cases hhead : auth.head? = some (byteOf '[')
  · cases auth with
    | nil => simp at hhead
    | cons c auth =>
      obtain rfl : c = byteOf '[' := Option.some.inj hhead
      have hopen : byteOf ']' ≠ byteOf '[' := by decide
      obtain ⟨hostIpv6, text, rfl, hclose⟩ := exists_component ']' auth
      cases text with
      | none =>
        have hnone : byteOf ']' ∉ byteOf '[' :: (hostIpv6 ++ Pieces.component ']' none) := by
          simpa [Pieces.component, hopen] using hclose
        simp [parseHost, findChar_eq_none hnone] at hparse
      | some text =>
        obtain ⟨port, rfl⟩ : ∃ port, text = Pieces.component ':' port := by
          cases text with
          | nil => exact ⟨none, rfl⟩
          | cons c text =>
            have hopen : byteOf ']' ∉ byteOf '[' :: hostIpv6 := by simp [hopen, hclose]
            by_cases hcolon : c = byteOf ':'
            · exact ⟨some text, by rw [hcolon]; rfl⟩
            · have hfind := @findChar_append (byteOf '[' :: hostIpv6) (c :: text) ']' hopen
              rw [List.cons_append] at hfind
              simp [parseHost, Pieces.component, hfind, hcolon] at hparse
        have hipv6 := @parseHost_ipv6 _ port _ hport hclose
        rw [List.cons_append] at hipv6
        rw [Pieces.component_some, hipv6] at hparse
        exact .inr ⟨hostIpv6, port, rfl, hclose, (Option.some.inj hparse).symm⟩
  · obtain ⟨host, port, rfl, hcolon⟩ := exists_component ':' auth
    rw [parseHost_name hport hcolon hhead] at hparse
    exact .inl ⟨host, port, rfl, hhead, hcolon, (Option.some.inj hparse).symm⟩

/-- The parts of an authority have none of the delimiters that mark them. -/
structure Authority.Separated (parts : Authority) : Prop where
  user : Avoids (ascii ":@/?#") parts.user
  password : Avoids (ascii "@/?#") parts.password
  host : Avoids (ascii ":/?#") parts.host
  hostIpv6 : Avoids (ascii "]/?#") parts.hostIpv6
  one_host : parts.host = [] ∨ parts.hostIpv6 = []
  ipv6_port : parts.hostIpv6 ≠ [] → ∃ port, parts.port = Pieces.component ':' port

/-- The user and the password that are read have none of the delimiters. -/
theorem avoids_of_parseUserInfo (hauth : Avoids (ascii "/?#") auth)
    (hparse : parseUserInfo auth = some (parts, rest)) :
    Avoids (ascii ":@/?#") parts.user ∧ Avoids (ascii "@/?#") parts.password ∧
      Avoids (ascii "/?#") rest ∧ parts.host = [] ∧ parts.hostIpv6 = [] ∧ parts.port = [] := by
  obtain ⟨-, rfl, rfl⟩ | ⟨user, password, rfl, hat, hcolon, hpassword, rfl⟩ :=
    parseUserInfo_cases hparse
  · exact ⟨avoids_nil, avoids_nil, hauth, rfl, rfl, rfl⟩
  · obtain ⟨huserPass, hrest⟩ := List.forall_mem_append.mp hauth
    obtain ⟨huser, hcomponent⟩ := List.forall_mem_append.mp huserPass
    have hsecret : Avoids (ascii "/?#") (password.getD []) := by
      cases password with
      | none => exact avoids_nil
      | some password => exact (List.forall_mem_cons.mp hcomponent).2
    exact ⟨((show Avoids (ascii "/?#") user from huser).insert hat).insert hcolon,
      hsecret.insert hpassword, (List.forall_mem_cons.mp hrest).2, rfl, rfl, rfl⟩

/-- The parts that are read have none of the delimiters. -/
theorem separated_of_parseAuthority (hauth : Avoids (ascii "/?#") auth)
    (hparse : parseAuthority auth = some parts) : parts.Separated := by
  obtain ⟨⟨parts₁, rest⟩, huserInfo, hhost⟩ := Option.bind_eq_some_iff.mp hparse
  obtain ⟨huser, hpassword, hrest, hname, haddress, hport⟩ :=
    avoids_of_parseUserInfo hauth huserInfo
  obtain ⟨host, port, rfl, -, hcolon, rfl⟩ | ⟨hostIpv6, port, rfl, hclose, rfl⟩ :=
    parseHost_cases hport hhost
  · obtain ⟨havoids, -⟩ := List.forall_mem_append.mp hrest
    exact {
      user := huser
      password := hpassword
      host := (show Avoids (ascii "/?#") host from havoids).insert hcolon
      hostIpv6 := by simp [haddress, avoids_nil]
      one_host := .inr haddress
      ipv6_port := fun hne => absurd haddress hne }
  · obtain ⟨havoids, -⟩ := List.forall_mem_append.mp hrest
    have havoids : Avoids (ascii "/?#") hostIpv6 := (List.forall_mem_cons.mp havoids).2
    exact {
      user := huser
      password := hpassword
      host := by simp [hname, avoids_nil]
      hostIpv6 := havoids.insert hclose
      one_host := .inl hname
      ipv6_port := fun _ => ⟨port, rfl⟩ }

end Authority

namespace Url

variable {u : Url} {str : Bytes}

/-- What holds of every object that a fresh one becomes. -/
structure Accepted (u : Url) : Prop where
  scheme : ∀ c ∈ u.scheme, isSchemeChar c = true
  scheme_lower : u.scheme.map toLower = u.scheme
  user : Avoids (ascii ":@/?#") u.user
  password : Avoids (ascii "@/?#") u.password
  host : Avoids (ascii ":/?#") u.host
  host_lower : u.host.map toLower = u.host
  hostIpv6 : Avoids (ascii "]/?#") u.hostIpv6
  hostIpv6_lower : u.hostIpv6.map toLower = u.hostIpv6
  one_host : u.host = [] ∨ u.hostIpv6 = []
  port : u.port.all isDigit = true
  ipv6_port : u.hostIpv6 ≠ [] → u.port = []
  path : Avoids (ascii "?#") u.path
  path_slash : ∀ c ∈ u.path.head?, c = byteOf '/'
  present : ¬ (u.host = [] ∧ u.hostIpv6 = [] ∧ u.path = [])

/-- An IPv6 host has no port: the one that is read starts with a colon. -/
theorem Holds.port_eq_nil {parts : Authority} (hholds : u.Holds parts)
    (hport : ∃ port, parts.port = Pieces.component ':' port) : u.port = [] := by
  obtain ⟨port, hport⟩ := hport
  have hdecode := hholds.port
  rw [hport] at hdecode
  cases port with
  | none => exact (Option.some.inj hdecode).symm
  | some port =>
    have hhead := (decodes_of_percentDecode hdecode).head?_eq rfl (by decide) (by decide)
    have hdigit := List.all_eq_true.mp hholds.digits _ (List.mem_of_mem_head? hhead)
    exact absurd hdigit (by decide)

/-- A host is decoded and written in lower case. -/
theorem lower_of_decodes {text host chars : Bytes}
    (h : (percentDecode text).map (List.map toLower) = some host)
    (havoids : Avoids chars text) (hchars : chars.all (fun c => 0x10 ≤ c && c ≠ byteOf ' ') = true)
    (halnum : chars.all (!isAlnum ·) = true) :
    Avoids chars host ∧ host.map toLower = host ∧ (text = [] → host = []) := by
  obtain ⟨decoded, hdecode, rfl⟩ := Option.map_eq_some_iff.mp h
  refine ⟨?_, map_toLower_map_toLower decoded, fun hnil => ?_⟩
  · exact avoids_map_toLower ((decodes_of_percentDecode hdecode).avoids hchars havoids) halnum
  · subst hnil
    cases hdecode
    rfl

/-- The scheme of a string has only characters of a scheme. -/
theorem Gives.isSchemeChar {p : Pieces} (h : Gives p u) :
    ∀ c ∈ u.scheme, isSchemeChar c = true := by
  intro c hc
  rw [h.scheme] at hc
  obtain ⟨d, hd, rfl⟩ := List.mem_map.mp hc
  rw [isSchemeChar_toLower]
  cases hsome : p.scheme with
  | none => simp [hsome] at hd
  | some scheme =>
    rw [hsome] at hd
    exact List.all_eq_true.mp (h.valid scheme hsome) d hd

/-- A path starts with a slash. -/
theorem Gives.path_slash {p : Pieces} (h : Gives p u) (hwf : p.WellFormed) :
    ∀ c ∈ u.path.head?, c = byteOf '/' := by
  intro c hc
  have hdecode := h.path
  cases hhead : p.path.head? with
  | none =>
    rw [List.head?_eq_none_iff.mp hhead] at hdecode
    rw [← Option.some.inj hdecode] at hc
    exact absurd hc (by simp)
  | some d =>
    obtain rfl := hwf.path_slash d hhead
    have hslash := (decodes_of_percentDecode hdecode).head?_eq hhead (by decide) (by decide)
    exact Option.some.inj (hc.symm.trans hslash)

/-- Every object that a fresh one becomes is of this form. -/
theorem accepted_of_parse (hparse : ({} : Url).parse str = .ok u) : u.Accepted := by
  obtain ⟨p, hwf, htext⟩ := exists_pieces (trim str)
  have hgives := (parse_eq_ok_iff hwf htext.symm).mp hparse
  obtain ⟨parts, hparts, hholds⟩ := hgives.auth
  have hseparated := separated_of_parseAuthority hwf.auth hparts
  obtain ⟨hhost, hlower, hnil⟩ :=
    lower_of_decodes hholds.host hseparated.host (by decide) (by decide)
  obtain ⟨hhostIpv6, hlower', hnil'⟩ :=
    lower_of_decodes hholds.hostIpv6 hseparated.hostIpv6 (by decide) (by decide)
  exact {
    scheme := hgives.isSchemeChar
    scheme_lower := by rw [hgives.scheme, map_toLower_map_toLower]
    user := (decodes_of_percentDecode hholds.user).avoids (by decide) hseparated.user
    password := (decodes_of_percentDecode hholds.password).avoids (by decide) hseparated.password
    host := hhost
    host_lower := hlower
    hostIpv6 := hhostIpv6
    hostIpv6_lower := hlower'
    one_host := hseparated.one_host.imp hnil hnil'
    port := hholds.digits
    ipv6_port := fun hne => hholds.port_eq_nil (hseparated.ipv6_port fun h => hne (hnil' h))
    path := (decodes_of_percentDecode hgives.path).avoids (by decide) hwf.path
    path_slash := hgives.path_slash hwf
    present := hgives.present }

end Url

end Demos.Oak
