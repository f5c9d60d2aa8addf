import Demos.Oak.Url.Accepted

/-!
# The string that `Url::Normalize` writes

`Url::Normalize` writes the members of an object as the pieces of a string. `Url::Parse` trims the
string before it reads it, which can only touch a path at its end, a host name at both ends and the
user of an IPv6 host at its start; the other pieces have no white space or none at the ends.
-/

namespace Demos.Oak

open Demos.Lib

/-- A list, if it is not empty. -/
def nonEmpty {α : Type} (l : List α) : Option (List α) :=
  match l with
  | [] => none
  | c :: rest => some (c :: rest)

/-- The list that is there. -/
theorem eq_of_nonEmpty {α : Type} {l l' : List α} (hsome : nonEmpty l = some l') : l = l' := by
  cases l with
  | nil => exact absurd hsome (by simp [nonEmpty])
  | cons c rest => exact Option.some.inj hsome

@[simp]
theorem getD_nonEmpty {α : Type} (l : List α) : (nonEmpty l).getD [] = l := by
  cases l <;> rfl

/-- No list counts as the empty one. -/
theorem getD_map_nonEmpty {α : Type} {f : List α → Bytes} (hf : f [] = []) (l : List α) :
    ((nonEmpty l).map f).getD [] = f l := by
  cases l with
  | nil => exact hf.symm
  | cons c rest => rfl

/-- Encoding leaves unreserved characters and percent signs. -/
theorem isUnreserved_of_mem_percentEncode {c : UInt8} {str : Bytes} (hc : c ∈ percentEncode str) :
    (isUnreserved c || c = byteOf '%') = true := by
  have hdigit : ∀ c : UInt8, isUnreserved (hexToLetter (c &&& 0x0F)) = true :=
    forall_byte (P := fun c => isUnreserved (hexToLetter (c &&& 0x0F)) = true) (by decide +kernel)
  obtain ⟨d, -, hd⟩ := List.mem_flatMap.mp hc
  rw [percentEncodeChar] at hd
  split at hd
  next hunreserved =>
    rw [List.mem_singleton.mp hd, hunreserved]
    rfl
  next =>
    simp only [List.mem_cons, List.not_mem_nil, or_false] at hd
    obtain rfl | rfl | rfl := hd
    · rfl
    · rw [hdigit]
      rfl
    · rw [hdigit]
      rfl

/-- What an encoded text avoids. -/
theorem avoids_percentEncode {chars : Bytes}
    (hchars : chars.all (fun c => !(isUnreserved c || c = byteOf '%')) = true) (str : Bytes) :
    Avoids chars (percentEncode str) :=
  avoids_of_forall (fun _ hc => isUnreserved_of_mem_percentEncode hc) hchars

namespace Pieces

variable {p : Pieces}

/-- The string after the path. -/
def tail (p : Pieces) : Bytes := component '?' p.query ++ component '#' p.fragment

/-- The pieces once the string is trimmed. -/
def trimmed (p : Pieces) : Pieces :=
  { p with
    auth := trimEnds isSpace p.scheme.isNone (p.path ++ p.tail).isEmpty p.auth
    path := trimEnds isSpace false p.tail.isEmpty p.path }

/-- Trimming shortens the path at its end. -/
theorem trimmed_path_isPrefix (p : Pieces) : p.trimmed.path <+: p.path := by
  change trimEnds isSpace false p.tail.isEmpty p.path <+: p.path
  cases p.tail.isEmpty with
  | false => exact List.prefix_rfl
  | true => exact List.rdropWhile_prefix isSpace p.path

/-- Trimming does not touch a scheme in the path. -/
theorem scheme_infix_trimmed_path (hpath : ascii "://" <:+: p.path) :
    ascii "://" <:+: p.trimmed.path := by
  change ascii "://" <:+: trimEnds isSpace false p.tail.isEmpty p.path
  cases p.tail.isEmpty with
  | false => exact hpath
  | true =>
    obtain ⟨pre, post, hsplit⟩ := hpath
    have hback : (pre ++ ascii ":/" ++ byteOf '/' :: post).rdropWhile isSpace =
        pre ++ ascii ":/" ++ byteOf '/' :: post.rdropWhile isSpace :=
      rdropWhile_append_cons (by decide)
    have hpieces : p.path = pre ++ ascii ":/" ++ byteOf '/' :: post := by
      rw [← hsplit]
      simp [ascii_eq]
    refine ⟨pre, post.rdropWhile isSpace, ?_⟩
    change _ = p.path.rdropWhile isSpace
    rw [hpieces, hback]
    simp [ascii_eq]

/-- Trimming the string trims the authority and the path. -/
theorem trim_text (hscheme : ∀ scheme ∈ p.scheme, Avoids spaces scheme)
    (hslash : ∀ c ∈ p.path.head?, c = byteOf '/') (htail : Avoids spaces p.tail) :
    trim p.text = p.trimmed.text := by
  have hkeep : ∀ c ∈ ascii "/?#", (!isSpace c) = true := List.all_eq_true.mp (by decide)
  have hstops : Stops (!isSpace ·) (p.path ++ p.tail) := fun c hc =>
    hkeep c (by simpa using Url.stops_rest hslash c hc)
  have hstops' : Stops (!isSpace ·) p.tail := fun c hc =>
    hkeep c (by simpa using @Url.stops_rest { p with path := [] } (by simp) c hc)
  have hrest : trimEnds isSpace p.scheme.isNone true p.rest = p.trimmed.rest := by
    have hassoc : p.rest = p.auth ++ (p.path ++ p.tail) := rfl
    rw [hassoc, trimEnds_append_stops hstops, trimEnds_append_stops hstops',
      trimEnds_of_avoids htail]
    simp [rest, trimmed, tail]
  change trimEnds isSpace true true p.text = _
  cases hsome : p.scheme with
  | none =>
    rw [hsome] at hrest
    simpa [text, trimmed, hsome] using hrest
  | some scheme =>
    rw [hsome] at hrest
    have hmark : trimEnds isSpace false true (ascii "://" ++ p.rest) =
        ascii "://" ++ trimEnds isSpace false true p.rest :=
      @rdropWhile_append_cons _ isSpace (ascii ":/") p.rest (byteOf '/') (by decide)
    have hcolon : Stops (!isSpace ·) (ascii "://" ++ p.rest) :=
      stops_component ':' (some (ascii "//" ++ p.rest)) (by decide)
    have htext : p.text = scheme ++ (ascii "://" ++ p.rest) := by rw [text, hsome]
    have htrimmed : p.trimmed.text = scheme ++ (ascii "://" ++ p.trimmed.rest) := by
      rw [text, trimmed, hsome]
    rw [htext, trimEnds_append_stops hcolon, trimEnds_of_avoids (hscheme scheme hsome), hmark,
      htrimmed, ← hrest]
    rfl

end Pieces

namespace Url

variable {u : Url} {front back : Bool}

/-- The pieces that `Url::Normalize` writes. -/
def pieces (u : Url) : Pieces where
  scheme := nonEmpty u.scheme
  auth := u.authorityText
  path := u.path
  query := (nonEmpty u.query.toList).map fun pairs =>
    pairsText (pairs.map (Prod.map percentEncode percentEncode))
  fragment := (nonEmpty u.fragment).map percentEncode

/-- The pairs of the query, the first one after a given character. -/
theorem queryText_cons (lead : UInt8) (pair : Bytes × Bytes) (pairs : List (Bytes × Bytes)) :
    queryText lead (pair :: pairs) =
      lead :: pairsText ((pair :: pairs).map (Prod.map percentEncode percentEncode)) := by
  induction pairs generalizing lead pair with
  | nil => simp [queryText, pairsText, pairText]
  | cons next pairs ih =>
    rw [queryText, ih (byteOf '&') next]
    simp [pairsText_cons_cons, pairText]

/-- The pieces are written one after the other. -/
theorem normalize_eq_text (u : Url) : u.normalize = u.pieces.text := by
  have hquery : queryText (byteOf '?') u.query.toList = Pieces.component '?' u.pieces.query := by
    rw [pieces]
    cases u.query.toList with
    | nil => rfl
    | cons pair pairs => exact queryText_cons (byteOf '?') pair pairs
  have hfragment : (if u.fragment = [] then [] else byteOf '#' :: percentEncode u.fragment) =
      Pieces.component '#' u.pieces.fragment := by
    rw [pieces]
    cases u.fragment <;> rfl
  rw [normalize, hquery, hfragment, Pieces.text]
  cases hscheme : u.scheme with
  | nil | cons => simp [pieces, hscheme, nonEmpty, Pieces.rest]

theorem portText_eq (u : Url) : u.portText = Pieces.component ':' (nonEmpty u.port) := by
  rw [portText]
  cases u.port <;> rfl

/-- The user with the password and the at sign. -/
theorem userInfo_of_ne_nil (encode : Bytes → Bytes) (huser : u.user ≠ []) :
    u.userInfo encode = encode u.user ++
      Pieces.component ':' ((nonEmpty u.password).map encode) ++ [byteOf '@'] := by
  rw [userInfo, if_neg huser]
  cases u.password <;> rfl

variable {chars : Bytes}

/-- What the text of a port avoids. -/
theorem avoids_port (hu : u.Accepted) (hdigits : chars.all (!isDigit ·) = true)
    (hcolon : byteOf ':' ∉ chars) : Avoids chars (Pieces.component ':' (nonEmpty u.port)) := by
  refine avoids_component hcolon fun port hport => ?_
  rw [← eq_of_nonEmpty hport]
  exact avoids_of_forall (List.all_eq_true.mp hu.port) hdigits

/-- What an encoded user with an encoded password avoids. -/
theorem avoids_user (u : Url)
    (hchars : chars.all (fun c => !(isUnreserved c || c = byteOf '%')) = true)
    (hcolon : byteOf ':' ∉ chars) :
    Avoids chars (percentEncode u.user ++
      Pieces.component ':' ((nonEmpty u.password).map percentEncode)) := by
  refine (avoids_percentEncode hchars u.user).append (avoids_component hcolon fun text htext => ?_)
  obtain ⟨password, -, rfl⟩ := Option.map_eq_some_iff.mp htext
  exact avoids_percentEncode hchars password

/-- What the query and the fragment avoid as they are written. -/
theorem avoids_tail (u : Url)
    (hchars : chars.all (fun c => !(isUnreserved c || c = byteOf '%')) = true)
    (hmarks : Avoids chars (ascii "?#=&")) : Avoids chars u.pieces.tail := by
  refine Avoids.append (avoids_component (hmarks _ (by decide)) fun text htext => ?_)
    (avoids_component (hmarks _ (by decide)) fun text htext => ?_)
  · obtain ⟨pairs, -, rfl⟩ := Option.map_eq_some_iff.mp htext
    refine avoids_pairsText (hmarks _ (by decide)) (hmarks _ (by decide)) fun pair hpair => ?_
    obtain ⟨old, -, rfl⟩ := List.mem_map.mp hpair
    exact ⟨avoids_percentEncode hchars old.1, avoids_percentEncode hchars old.2⟩
  · obtain ⟨fragment, -, rfl⟩ := Option.map_eq_some_iff.mp htext
    exact avoids_percentEncode hchars fragment

/-- The pieces that `Url::Parse` finds. -/
theorem trim_normalize (hu : u.Accepted) : trim u.normalize = u.pieces.trimmed.text := by
  rw [normalize_eq_text]
  refine Pieces.trim_text (fun scheme hscheme => ?_) hu.path_slash
    (u.avoids_tail (by decide) (by decide))
  rw [← eq_of_nonEmpty hscheme]
  exact avoids_of_forall hu.scheme (by decide)

/-- Trimming an authority with a host name trims the name. -/
theorem trimEnds_authorityText_name (hu : u.Accepted) (hhost : u.host ≠ []) :
    trimEnds isSpace front back u.authorityText = u.userInfo percentEncode ++
      (trimEnds isSpace (front && u.user.isEmpty) (back && u.port.isEmpty) u.host ++
        Pieces.component ':' (nonEmpty u.port)) := by
  have hport : Avoids spaces (Pieces.component ':' (nonEmpty u.port)) :=
    avoids_port hu (by decide) (by decide)
  have hempty : (Pieces.component ':' (nonEmpty u.port)).isEmpty = u.port.isEmpty := by
    cases u.port <;> rfl
  have huser : ∀ back, trimEnds isSpace front back (u.userInfo percentEncode ++ u.host) =
      u.userInfo percentEncode ++ trimEnds isSpace (front && u.user.isEmpty) back u.host := by
    intro back
    by_cases hnil : u.user = []
    · simp [userInfo, hnil]
    · have hencoded : Avoids spaces (percentEncode u.user ++
          Pieces.component ':' ((nonEmpty u.password).map percentEncode)) :=
        u.avoids_user (by decide) (by decide)
      have hat : Stops (!isSpace ·) (byteOf '@' :: u.host) :=
        Pieces.stops_component '@' (some u.host) (by decide)
      rw [userInfo_of_ne_nil percentEncode hnil, List.append_assoc, List.singleton_append,
        trimEnds_append_stops hat, trimEnds_of_avoids hencoded, trimEnds_cons (by decide),
        List.isEmpty_eq_false_iff.mpr hnil]
      simp
  rw [authorityText, if_pos hhost, portText_eq,
    trimEnds_append_stops (Pieces.stops_component ':' _ (by decide)), trimEnds_of_avoids hport,
    hempty, huser, List.append_assoc]

/-- An address in brackets is not trimmed. -/
theorem trimEnds_bracket (str : Bytes) :
    trimEnds isSpace front back (byteOf '[' :: str ++ [byteOf ']']) =
      byteOf '[' :: str ++ [byteOf ']'] := by
  have hclose : Stops (!isSpace ·) [byteOf ']'] :=
    Pieces.stops_component ']' (some []) (by decide)
  have hnil : trimEnds isSpace false back [] = [] := List.infix_nil.mp trimEnds_isInfix
  rw [trimEnds_append_stops hclose, trimEnds_cons (by decide), trimEnds_cons (by decide), hnil]
  simp [trimEnds]

/-- An authority with an IPv6 host. -/
theorem authorityText_ipv6 (hu : u.Accepted) (hhost : u.hostIpv6 ≠ []) :
    u.authorityText = u.userInfo id ++ (byteOf '[' :: u.hostIpv6 ++ [byteOf ']']) := by
  have hname : u.host = [] := hu.one_host.resolve_right hhost
  have hport : u.portText = [] := by simp [portText, hu.ipv6_port hhost]
  rw [authorityText, if_neg (not_not.mpr hname), if_pos hhost, hport, List.append_assoc]

/-- Trimming an authority with an IPv6 host trims the user at the start. -/
theorem trimEnds_authorityText_ipv6 (hu : u.Accepted) (hhost : u.hostIpv6 ≠ [])
    (huser : u.user ≠ []) :
    trimEnds isSpace front back u.authorityText = trimEnds isSpace front false u.user ++
      Pieces.component ':' (nonEmpty u.password) ++
        byteOf '@' :: (byteOf '[' :: u.hostIpv6 ++ [byteOf ']']) := by
  have hat : Stops (!isSpace ·) (byteOf '@' :: (byteOf '[' :: u.hostIpv6 ++ [byteOf ']'])) :=
    Pieces.stops_component '@' (some _) (by decide)
  have hcolon : Stops (!isSpace ·) (Pieces.component ':' (nonEmpty u.password)) :=
    Pieces.stops_component ':' _ (by decide)
  rw [authorityText_ipv6 hu hhost, userInfo_of_ne_nil id huser, Option.map_id_fun, id_eq, id_eq,
    List.append_assoc, List.singleton_append, trimEnds_append_stops hat, trimEnds_cons (by decide),
    trimEnds_bracket, trimEnds_append_stops hcolon]
  simp [trimEnds]

/-- Trimming an authority with an IPv6 host and no user has no effect. -/
theorem trimEnds_authorityText_bracket (hu : u.Accepted) (hhost : u.hostIpv6 ≠ [])
    (huser : u.user = []) :
    trimEnds isSpace front back u.authorityText =
      byteOf '[' :: u.hostIpv6 ++ [byteOf ']'] := by
  have hnone : u.userInfo id = [] := by simp [userInfo, huser]
  rw [authorityText_ipv6 hu hhost, hnone, List.nil_append, trimEnds_bracket]

/-- What an authority avoids as it is written. -/
theorem avoids_authorityText (hu : u.Accepted) : Avoids (ascii "/?#") u.authorityText := by
  by_cases hipv6 : u.hostIpv6 = []
  · rw [authorityText]
    split
    next =>
      rw [portText_eq]
      refine Avoids.append (Avoids.append ?_ (hu.host.mono (by decide)))
        (avoids_port hu (by decide) (by decide))
      by_cases huser : u.user = []
      · simp [userInfo, huser, avoids_nil]
      · rw [userInfo_of_ne_nil percentEncode huser]
        exact (u.avoids_user (by decide) (by decide)).append (.cons (by decide) avoids_nil)
    next => simp [hipv6, avoids_nil]
  · have haddress : Avoids (ascii "/?#") (byteOf '[' :: u.hostIpv6 ++ [byteOf ']']) :=
      Avoids.append (.cons (by decide) (hu.hostIpv6.mono (by decide)))
        (.cons (by decide) avoids_nil)
    rw [authorityText_ipv6 hu hipv6]
    refine Avoids.append ?_ haddress
    by_cases huser : u.user = []
    · simp [userInfo, huser, avoids_nil]
    · rw [userInfo_of_ne_nil id huser, Option.map_id_fun, id_eq, id_eq]
      refine ((hu.user.mono (by decide)).append
        (avoids_component (by decide) fun text htext => ?_)).append (.cons (by decide) avoids_nil)
      rw [← eq_of_nonEmpty htext]
      exact hu.password.mono (by decide)

/-- A trimmed authority does not end with a colon. -/
theorem getLast?_trimEnds_authorityText (hu : u.Accepted) :
    (trimEnds isSpace front back u.authorityText).getLast? ≠ some (byteOf ':') := by
  by_cases hname : u.host = []
  · by_cases hipv6 : u.hostIpv6 = []
    · have hempty : u.authorityText = [] := by simp [authorityText, hname, hipv6]
      have hnil : trimEnds isSpace front back [] = [] := List.infix_nil.mp trimEnds_isInfix
      rw [hempty, hnil]
      simp
    · by_cases huser : u.user = []
      · rw [trimEnds_authorityText_bracket hu hipv6 huser]
        exact getLast?_append_ne (List.cons_ne_nil _ _) (by decide)
      · rw [trimEnds_authorityText_ipv6 hu hipv6 huser, ← List.cons_append, ← List.append_assoc]
        exact getLast?_append_ne (List.cons_ne_nil _ _) (by decide)
  · rw [trimEnds_authorityText_name hu hname]
    have hhost : ∀ f b, byteOf ':' ∉ trimEnds isSpace f b u.host := fun f b =>
      (hu.host.of_part trimEnds_isInfix).notMem (by decide)
    cases hport : nonEmpty u.port with
    | some port =>
      have hdigits : Avoids (ascii ":") port := by
        rw [← eq_of_nonEmpty hport]
        exact avoids_of_forall (List.all_eq_true.mp hu.port) (by decide)
      have hne : port ≠ [] := by
        rintro rfl
        rw [eq_of_nonEmpty hport] at hport
        exact absurd hport (by simp [nonEmpty])
      rw [Pieces.component, ← List.singleton_append, ← List.append_assoc, ← List.append_assoc]
      exact getLast?_append_ne hne (hdigits.notMem (by decide))
    | none =>
      rw [Pieces.component, List.append_nil]
      by_cases hnil :
          trimEnds isSpace (front && u.user.isEmpty) (back && u.port.isEmpty) u.host = []
      · rw [hnil, List.append_nil]
        by_cases huser : u.user = []
        · simp [userInfo, huser]
        · rw [userInfo_of_ne_nil percentEncode huser]
          exact getLast?_append_ne (List.cons_ne_nil _ _) (by decide)
      · exact getLast?_append_ne hnil (hhost _ _)

/-- A trimmed path starts with a slash. -/
theorem trimmed_path_slash (hu : u.Accepted) :
    ∀ c ∈ u.pieces.trimmed.path.head?, c = byteOf '/' := by
  intro c hc
  obtain ⟨rest, hrest⟩ := u.pieces.trimmed_path_isPrefix
  refine hu.path_slash c ?_
  have hpieces : u.pieces.path = u.path := rfl
  rw [← hpieces, ← hrest, List.head?_append, Option.mem_def.mp hc]
  rfl

/-- The pieces are those that the delimiters mark, if no scheme is found in the path. -/
theorem trimmed_wellFormed (hu : u.Accepted)
    (hpath : u.scheme = [] → ¬ ascii "://" <:+: u.path) : u.pieces.trimmed.WellFormed where
  scheme := by
    refine findStr_text (fun scheme hscheme => ?_) fun hnone hinside => ?_
    · have hchars : Avoids (ascii ":") scheme := by
        rw [← eq_of_nonEmpty hscheme]
        exact avoids_of_forall hu.scheme (by decide)
      exact hchars.notMem (by decide)
    · have hscheme : u.scheme = [] := by
        cases hnil : u.scheme with
        | nil => rfl
        | cons c rest => simp [pieces, Pieces.trimmed, hnil, nonEmpty] at hnone
      have hauth : Avoids (ascii "/?#") u.pieces.trimmed.auth :=
        (avoids_authorityText hu).of_part trimEnds_isInfix
      have htail : Avoids (ascii "/") u.pieces.trimmed.tail :=
        u.avoids_tail (by decide) (by decide)
      have hrest : u.pieces.trimmed.rest =
          u.pieces.trimmed.auth ++ (u.pieces.trimmed.path ++ u.pieces.trimmed.tail) := rfl
      rw [hrest, scheme_infix_append_iff (hauth.notMem (by decide))
        (getLast?_trimEnds_authorityText hu),
        scheme_infix_append_iff_left (htail.notMem (by decide))] at hinside
      exact hpath hscheme (hinside.trans u.pieces.trimmed_path_isPrefix.isInfix)
  auth := (avoids_authorityText hu).of_part trimEnds_isInfix
  path_slash := trimmed_path_slash hu
  path := hu.path.of_part u.pieces.trimmed_path_isPrefix.isInfix
  query := by
    intro q hq
    obtain ⟨pairs, -, rfl⟩ := Option.map_eq_some_iff.mp hq
    have havoids : Avoids (ascii "#")
        (pairsText (pairs.map (Prod.map percentEncode percentEncode))) := by
      refine avoids_pairsText (by decide) (by decide) fun pair hpair => ?_
      obtain ⟨old, -, rfl⟩ := List.mem_map.mp hpair
      exact ⟨avoids_percentEncode (by decide) old.1, avoids_percentEncode (by decide) old.2⟩
    exact havoids.notMem (by decide)

end Url

end Demos.Oak
