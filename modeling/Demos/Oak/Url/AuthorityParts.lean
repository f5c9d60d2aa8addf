import Demos.Oak.Url.Texts

/-!
# Reading an assembled authority

An authority is assembled from a user, a password, a host and a port, each but the host optional,
over characters that need no encoding. `ParseAuthority` reads the components back, with the colon at
the port of an IPv6 host.
-/

namespace Demos.Oak

open Demos.Lib

/-- A hexadecimal digit. -/
def isHexDigit (c : UInt8) : Bool :=
  isDigit c || (byteOf 'a' ≤ c && c ≤ byteOf 'f') || (byteOf 'A' ≤ c && c ≤ byteOf 'F')

/-- A text over unreserved characters. -/
def Unreserved (str : Bytes) : Prop := ∀ c ∈ str, isUnreserved c = true

/-- A host: a name or an IPv6 address. -/
inductive HostPart where
  | name (text : Bytes)
  | ipv6 (text : Bytes)

/-- The text of a host without its brackets. -/
def HostPart.value : HostPart → Bytes
  | .name text => text
  | .ipv6 text => text

/-- A host as it is written. -/
def HostPart.text : HostPart → Bytes
  | .name text => text
  | .ipv6 text => byteOf '[' :: text ++ [byteOf ']']

/-- The host is not empty and has the characters of its kind. -/
def HostPart.WellFormed : HostPart → Prop
  | .name text => text ≠ [] ∧ Unreserved text
  | .ipv6 text => text ≠ [] ∧ ∀ c ∈ text, isHexDigit c = true ∨ c = byteOf ':'

/-- The components of an authority. -/
structure AuthorityParts where
  user : Option (Bytes × Option Bytes) := none
  host : HostPart
  port : Option Bytes := none
  user_unreserved : ∀ pair ∈ user, Unreserved pair.1 ∧ ∀ password ∈ pair.2, Unreserved password
  host_wellFormed : host.WellFormed
  port_digits : ∀ text ∈ port, text ≠ [] ∧ ∀ c ∈ text, isDigit c = true

/-- The user as it is written. -/
def userText : Option (Bytes × Option Bytes) → Bytes
  | none => []
  | some (user, password) => user ++ Pieces.component ':' password ++ [byteOf '@']

/-- An authority as it is written. -/
def AuthorityParts.text (a : AuthorityParts) : Bytes :=
  userText a.user ++ (a.host.text ++ Pieces.component ':' a.port)

/-- The characters that stand for something else in a URL, and white space. -/
def delimiters : Bytes := ascii ":/?#[]@&=%+" ++ spaces

theorem Unreserved.avoids {str : Bytes} (hstr : Unreserved str) : Avoids delimiters str :=
  avoids_of_forall hstr (by decide)

/-- A host has no delimiters but the colons and the brackets of an address. -/
theorem HostPart.WellFormed.avoids {host : HostPart} (hhost : host.WellFormed) :
    Avoids (ascii "/?#@[]%+" ++ spaces) host.value := by
  cases host with
  | name text => exact avoids_of_forall hhost.2 (by decide)
  | ipv6 text =>
    refine avoids_of_forall (p := fun c => isHexDigit c || c = byteOf ':') (fun c hc => ?_)
      (by decide)
    simpa using hhost.2 c hc

namespace AuthorityParts

/-- What `ParseAuthority` reads. -/
def views (a : AuthorityParts) : Authority where
  user := (a.user.map Prod.fst).getD []
  password := (a.user.bind Prod.snd).getD []
  host := match a.host with
    | .name text => text
    | .ipv6 _ => []
  hostIpv6 := match a.host with
    | .name _ => []
    | .ipv6 text => text
  port := match a.host with
    | .name _ => a.port.getD []
    | .ipv6 _ => Pieces.component ':' a.port

/-- The digits of a port avoid everything else. -/
theorem avoids_port {chars : Bytes} (a : AuthorityParts) (hchars : chars.all (!isDigit ·) = true) :
    ∀ port ∈ a.port, Avoids chars port :=
  fun port hport => avoids_of_forall (a.port_digits port hport).2 hchars

/-- The host and the port are read. -/
theorem parseHost_text (a : AuthorityParts) {parts : Authority} (hparts : parts.port = [])
    (hhost : parts.host = []) (hhostIpv6 : parts.hostIpv6 = []) :
    parseHost parts (a.host.text ++ Pieces.component ':' a.port) =
      some { a.views with user := parts.user, password := parts.password } := by
  have hwf := a.host_wellFormed
  cases hkind : a.host with
  | name text =>
    rw [hkind] at hwf
    have havoids := hwf.2.avoids
    have hbracket : (text ++ Pieces.component ':' a.port).head? ≠ some (byteOf '[') := by
      obtain ⟨c, rest, rfl⟩ := List.exists_cons_of_ne_nil hwf.1
      intro hhead
      obtain rfl : c = byteOf '[' := by simpa using hhead
      exact havoids _ List.mem_cons_self (by decide)
    have hcolon : byteOf ':' ∉ text := havoids.notMem (by decide)
    rw [HostPart.text, parseHost_name hparts hcolon hbracket]
    simp [views, hkind, hhostIpv6]
  | ipv6 text =>
    have hclose : byteOf ']' ∉ text := by
      have havoids := hwf.avoids
      rw [hkind] at havoids
      exact havoids.notMem (by decide)
    rw [HostPart.text, List.append_assoc, List.singleton_append, parseHost_ipv6 hparts hclose]
    simp [views, hkind, hhost]

/-- What a host and a port avoid as they are written. -/
theorem avoids_hostText (a : AuthorityParts) :
    Avoids (ascii "/?#@%+" ++ spaces)
      (a.host.text ++ Pieces.component ':' a.port) := by
  have hvalue : Avoids (ascii "/?#@%+" ++ spaces) a.host.value :=
    a.host_wellFormed.avoids.mono (by decide)
  refine Avoids.append ?_ (avoids_component (by decide) (a.avoids_port (by decide)))
  cases hkind : a.host with
  | name text =>
    rw [hkind] at hvalue
    exact hvalue
  | ipv6 text =>
    rw [hkind] at hvalue
    exact (Avoids.cons (by decide) hvalue).append (.cons (by decide) avoids_nil)

/-- An authority is not empty. -/
theorem hostText_ne_nil (a : AuthorityParts) :
    a.host.text ++ Pieces.component ':' a.port ≠ [] := by
  have hwf := a.host_wellFormed
  cases hkind : a.host with
  | name text =>
    rw [hkind] at hwf
    simp [HostPart.text, hwf.1]
  | ipv6 text => simp [HostPart.text]

/-- The whole authority is read. -/
theorem parseAuthority_text (a : AuthorityParts) : parseAuthority a.text = some a.views := by
  cases huser : a.user with
  | none =>
    have htext : a.text = a.host.text ++ Pieces.component ':' a.port := by
      simp [text, huser, userText]
    have hat : byteOf '@' ∉ a.host.text ++ Pieces.component ':' a.port :=
      a.avoids_hostText.notMem (by decide)
    simp [parseAuthority, htext, parseUserInfo_none hat, a.parseHost_text, views, huser]
  | some pair =>
    obtain ⟨user, password⟩ := pair
    obtain ⟨hunreserved, hpassword⟩ := a.user_unreserved (user, password) huser
    have htext : a.text = user ++ Pieces.component ':' password ++
        byteOf '@' :: (a.host.text ++ Pieces.component ':' a.port) := by
      simp [text, huser, userText]
    have hat : byteOf '@' ∉ password.getD [] := by
      cases password with
      | none => simp
      | some password => exact (hpassword password rfl).avoids.notMem (by decide)
    have hchars := hunreserved.avoids
    rw [parseAuthority, htext, parseUserInfo_some
      ⟨hchars.notMem (by decide), hchars.notMem (by decide)⟩ hat a.hostText_ne_nil]
    simp [a.parseHost_text, views, huser]

/-- What an authority avoids as it is written. -/
theorem avoids_text (a : AuthorityParts) :
    Avoids (ascii "/?#%+" ++ spaces) a.text := by
  refine Avoids.append ?_ (a.avoids_hostText.mono (by decide))
  cases huser : a.user with
  | none => exact avoids_nil
  | some pair =>
    obtain ⟨user, password⟩ := pair
    obtain ⟨hunreserved, hpassword⟩ := a.user_unreserved (user, password) huser
    exact ((hunreserved.avoids.mono (by decide)).append (avoids_component (by decide)
      fun t ht => (hpassword t ht).avoids.mono (by decide))).append (.cons (by decide) avoids_nil)

/-- What `ParseAuthority` reads needs no decoding. -/
theorem avoids_views (a : AuthorityParts) :
    Avoids (ascii "%+") a.views.user ∧ Avoids (ascii "%+") a.views.password ∧
      Avoids (ascii "%+") a.views.host ∧ Avoids (ascii "%+") a.views.hostIpv6 ∧
      Avoids (ascii "%+") a.views.port := by
  have huser : Avoids (ascii "%+") a.views.user ∧ Avoids (ascii "%+") a.views.password := by
    cases huser : a.user with
    | none => simp [views, huser, avoids_nil]
    | some pair =>
      obtain ⟨user, password⟩ := pair
      obtain ⟨hunreserved, hpassword⟩ := a.user_unreserved (user, password) huser
      refine ⟨?_, ?_⟩
      · simpa [views, huser] using hunreserved.avoids.mono (by decide)
      · cases password with
        | none => simp [views, huser, avoids_nil]
        | some password =>
          simpa [views, huser] using (hpassword password rfl).avoids.mono (by decide)
  have hvalue : Avoids (ascii "%+") a.host.value := a.host_wellFormed.avoids.mono (by decide)
  have hport : Avoids (ascii "%+") (Pieces.component ':' a.port) :=
    avoids_component (by decide) (a.avoids_port (by decide))
  refine ⟨huser.1, huser.2, ?_⟩
  cases hkind : a.host with
  | name text =>
    rw [hkind] at hvalue
    have hdigits : Avoids (ascii "%+") (a.port.getD []) := by
      cases hsome : a.port with
      | none => exact avoids_nil
      | some port => exact a.avoids_port (by decide) port hsome
    simp only [views, hkind]
    exact ⟨hvalue, avoids_nil, hdigits⟩
  | ipv6 text =>
    rw [hkind] at hvalue
    simp only [views, hkind]
    exact ⟨avoids_nil, hvalue, hport⟩

/-- The port that is read is a number, unless it belongs to an IPv6 host. -/
theorem views_port_digits (a : AuthorityParts) :
    a.views.port.all isDigit = true ↔ ¬ ((∃ text, a.host = .ipv6 text) ∧ a.port.isSome) := by
  cases hkind : a.host with
  | name text =>
    cases hport : a.port with
    | none => simp [views, hkind, hport]
    | some port => simpa [views, hkind, hport] using (a.port_digits port hport).2
  | ipv6 text =>
    cases hport : a.port with
    | none => simp [views, hkind, hport, Pieces.component]
    | some port =>
      have hcolon : isDigit (byteOf ':') = false := by decide
      simp [views, hkind, hport, Pieces.component, hcolon]

/-- An authority does not end with a colon. -/
theorem getLast?_text (a : AuthorityParts) : a.text.getLast? ≠ some (byteOf ':') := by
  have hwf := a.host_wellFormed
  cases hport : a.port with
  | some port =>
    have htext : a.text = (userText a.user ++ (a.host.text ++ [byteOf ':'])) ++ port := by
      simp [text, hport, Pieces.component]
    rw [htext]
    have hdigits : Avoids (ascii ":") port := a.avoids_port (by decide) port hport
    exact getLast?_append_ne (a.port_digits port hport).1 (hdigits.notMem (by decide))
  | none =>
    have htext : a.text = userText a.user ++ a.host.text := by
      simp [text, hport, Pieces.component]
    rw [htext]
    cases hkind : a.host with
    | name text =>
      rw [hkind] at hwf
      exact getLast?_append_ne hwf.1 (hwf.2.avoids.notMem (by decide))
    | ipv6 text =>
      rw [HostPart.text, ← List.append_assoc]
      exact getLast?_append_ne (List.cons_ne_nil _ _) (by decide)

end AuthorityParts

end Demos.Oak
