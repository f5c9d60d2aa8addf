import Demos.Oak.Url.Parse

/-!
# Texts that are written part by part

What `ParseAuthority` and `ParseQuery` read from an authority or a query that is written as its
parts with the delimiters between them. The port of an authority with an IPv6 host is read with the
colon before it.
-/

namespace Demos.Oak

open Demos.Lib

/-- A text without percent signs and plus signs is decoded as itself. -/
theorem percentDecode_of_avoids {str : Bytes} (hstr : Avoids (ascii "%+") str) :
    percentDecode str = some str := by
  induction str with
  | nil => rfl
  | cons c rest ih =>
    have hc : c ∉ ascii "%+" := hstr c List.mem_cons_self
    have hne : c ≠ byteOf '%' ∧ c ≠ byteOf '+' := by simpa [ascii_eq] using hc
    rw [percentDecode_cons hne.1 hne.2, ih fun x hx => hstr x (List.mem_cons_of_mem c hx)]
    rfl

/-- White space. -/
def spaces : Bytes := [9, 10, 11, 12, 13, 32]

/-- A character is white space exactly if it is one of these. -/
theorem isSpace_iff (c : UInt8) : isSpace c = true ↔ c ∈ spaces :=
  forall_byte (P := fun c => isSpace c = true ↔ c ∈ spaces) (by decide +kernel) c

/-- A text without white space is not trimmed. -/
theorem trimEnds_of_avoids {str : Bytes} {front back : Bool} (hstr : Avoids spaces str) :
    trimEnds isSpace front back str = str :=
  trimEnds_of_forall fun c hc =>
    Bool.eq_false_iff.mpr fun hspace => hstr c hc ((isSpace_iff c).mp hspace)

section Scheme

variable {pre post : Bytes}

/-- No scheme ends where a text without slashes starts, unless a colon is its last character. -/
theorem not_scheme_isPrefix_append (hne : pre ≠ []) (hpre : byteOf '/' ∉ pre)
    (hlast : pre.getLast? ≠ some (byteOf ':')) : ¬ ascii "://" <+: pre ++ post := by
  intro hstart
  have hascii : ascii "://" = byteOf ':' :: ascii "//" := rfl
  cases pre with
  | nil => exact hne rfl
  | cons c pre =>
    rw [hascii, List.cons_append, List.cons_prefix_cons] at hstart
    cases pre with
    | nil => exact hlast (by rw [hstart.1]; rfl)
    | cons d pre =>
      have hslash : byteOf '/' = d := (List.cons_prefix_cons.mp hstart.2).1
      exact hpre (hslash ▸ List.mem_cons_of_mem c List.mem_cons_self)

/-- A scheme does not end in a text without slashes, unless a colon is its last character. -/
theorem scheme_infix_append_iff (hpre : byteOf '/' ∉ pre)
    (hlast : pre.getLast? ≠ some (byteOf ':')) :
    ascii "://" <:+: pre ++ post ↔ ascii "://" <:+: post := by
  induction pre with
  | nil => rfl
  | cons c pre ih =>
    have hnot : ¬ ascii "://" <+: c :: (pre ++ post) :=
      not_scheme_isPrefix_append (List.cons_ne_nil c pre) hpre hlast
    rw [List.cons_append, List.infix_cons_iff, or_iff_right hnot]
    cases pre with
    | nil => rfl
    | cons d pre =>
      exact ih (fun hmem => hpre (List.mem_cons_of_mem c hmem)) (by simpa using hlast)

/-- A scheme is found if it has no colon, and none is found where none occurs. -/
theorem findStr_text {p : Pieces} (hscheme : ∀ scheme ∈ p.scheme, byteOf ':' ∉ scheme)
    (hnone : p.scheme = none → ¬ ascii "://" <:+: p.rest) :
    findStr (ascii "://") p.text = p.scheme.map List.length := by
  cases hsome : p.scheme with
  | none =>
    rw [Pieces.text, hsome]
    exact (findStr_eq_none_iff (by decide)).mpr (hnone hsome)
  | some scheme =>
    rw [Pieces.text, hsome]
    exact findStr_append (hscheme scheme hsome)

/-- A scheme ends before a text without slashes. -/
theorem scheme_infix_append_iff_left (hpost : byteOf '/' ∉ post) :
    ascii "://" <:+: pre ++ post ↔ ascii "://" <:+: pre := by
  refine ⟨fun hinside => ?_, fun hinside => hinside.trans (List.prefix_append pre post).isInfix⟩
  obtain ⟨front, back, heq⟩ := hinside
  obtain ⟨mid, rfl, -⟩ | ⟨mid, hmid, rfl⟩ := List.append_eq_append_iff.mp heq
  · exact ⟨front, mid, rfl⟩
  · cases mid using List.reverseRecOn with
    | nil => exact ⟨front, [], by simpa using hmid⟩
    | append_singleton mid c =>
      have hlast : c = byteOf '/' := by
        have hend := congrArg List.getLast? hmid
        simpa [ascii_eq, eq_comm] using hend
      exact absurd (by simp [hlast]) hpost

end Scheme

variable {user host hostIpv6 auth : Bytes} {password port : Option Bytes} {parts : Authority}

theorem parseUserInfo_none (hauth : byteOf '@' ∉ auth) : parseUserInfo auth = some ({}, auth) := by
  rw [parseUserInfo, findChar_eq_none hauth]

/-- An authority with a user and perhaps a password. -/
theorem parseUserInfo_some (huser : byteOf '@' ∉ user ∧ byteOf ':' ∉ user)
    (hpassword : byteOf '@' ∉ password.getD []) (hauth : auth ≠ []) :
    parseUserInfo (user ++ Pieces.component ':' password ++ byteOf '@' :: auth) =
      some ({ user := user, password := password.getD [] }, auth) := by
  have hat : byteOf '@' ∉ user ++ Pieces.component ':' password := by
    cases password with
    | none => simpa [Pieces.component] using huser.1
    | some password =>
      have hcolon : byteOf '@' ≠ byteOf ':' := by decide
      simpa [Pieces.component, huser.1, hcolon] using hpassword
  rw [parseUserInfo, findChar_append hat]
  simp only [List.take_left, List.drop_length_add_append, List.drop_one, List.tail_cons,
    if_neg hauth]
  cases password with
  | none => simp [Pieces.component, findChar_eq_none huser.2, substrTo]
  | some password => simp [Pieces.component, findChar_append huser.2, substrTo]

theorem parseUserInfo_nil (huser : byteOf '@' ∉ user) :
    parseUserInfo (user ++ [byteOf '@']) = none := by
  simp [parseUserInfo, findChar_append huser]

/-- The host is read after the user. -/
theorem parseAuthority_eq {rest : Bytes} (huser : parseUserInfo auth = some (parts, rest)) :
    parseAuthority auth = parseHost parts rest := by
  rw [parseAuthority, huser]
  rfl

/-- An authority with a host name and perhaps a port. -/
theorem parseHost_name (hparts : parts.port = []) (hhost : byteOf ':' ∉ host)
    (hbracket : (host ++ Pieces.component ':' port).head? ≠ some (byteOf '[')) :
    parseHost parts (host ++ Pieces.component ':' port) =
      some { parts with host := host, port := port.getD [] } := by
  rw [parseHost, if_neg hbracket]
  cases port with
  | none => simp [Pieces.component, findChar_eq_none hhost, hparts]
  | some port => simp [Pieces.component, findChar_append hhost]

/-- An authority with an IPv6 host and perhaps a port, which keeps its colon. -/
theorem parseHost_ipv6 (hparts : parts.port = []) (hhost : byteOf ']' ∉ hostIpv6) :
    parseHost parts (byteOf '[' :: hostIpv6 ++ byteOf ']' :: Pieces.component ':' port) =
      some { parts with hostIpv6 := hostIpv6, port := Pieces.component ':' port } := by
  have hopen : byteOf ']' ∉ byteOf '[' :: hostIpv6 := by
    have hne : byteOf ']' ≠ byteOf '[' := by decide
    simp [hne, hhost]
  have hhead : (byteOf '[' :: hostIpv6 ++ byteOf ']' :: Pieces.component ':' port).head? =
      some (byteOf '[') := rfl
  rw [parseHost, if_pos hhead, findChar_append hopen]
  simp only [List.length_cons, List.cons_append, List.drop_one, List.tail_cons,
    Nat.add_sub_cancel, List.take_left]
  cases port with
  | none => simp [Pieces.component, hparts]
  | some port => simp [Pieces.component]

/-- The text of a pair. -/
def pairText (pair : Bytes × Bytes) : Bytes := pair.1 ++ byteOf '=' :: pair.2

/-- The text of a list of pairs. -/
def pairsText (pairs : List (Bytes × Bytes)) : Bytes :=
  [byteOf '&'].intercalate (pairs.map pairText)

theorem pairsText_cons_cons (pair next : Bytes × Bytes) (pairs : List (Bytes × Bytes)) :
    pairsText (pair :: next :: pairs) =
      pairText pair ++ byteOf '&' :: pairsText (next :: pairs) := by
  simp [pairsText, List.intercalate_cons_cons]

/-- The text has none of the delimiters of a query. -/
def Plain (str : Bytes) : Prop := byteOf '&' ∉ str ∧ byteOf '=' ∉ str

variable {chars : Bytes}

/-- What a component avoids. -/
theorem avoids_component {lead : Char} {text : Option Bytes} (hlead : byteOf lead ∉ chars)
    (htext : ∀ t ∈ text, Avoids chars t) : Avoids chars (Pieces.component lead text) := by
  cases text with
  | none => exact avoids_nil
  | some text => exact .cons hlead (htext text rfl)

/-- What the text of a list of pairs avoids. -/
theorem avoids_pairsText {pairs : List (Bytes × Bytes)} (hequal : byteOf '=' ∉ chars)
    (hamp : byteOf '&' ∉ chars)
    (hpairs : ∀ pair ∈ pairs, Avoids chars pair.1 ∧ Avoids chars pair.2) :
    Avoids chars (pairsText pairs) := by
  have htext : ∀ pair ∈ pairs, Avoids chars (pairText pair) := fun pair hmem =>
    (hpairs pair hmem).1.append (.cons hequal (hpairs pair hmem).2)
  induction pairs with
  | nil => exact avoids_nil
  | cons pair pairs ih =>
    have hfirst := htext pair List.mem_cons_self
    have hrest := ih (fun next hmem => hpairs next (List.mem_cons_of_mem pair hmem))
      fun next hmem => htext next (List.mem_cons_of_mem pair hmem)
    cases pairs with
    | nil => simpa [pairsText] using hfirst
    | cons next pairs =>
      rw [pairsText_cons_cons]
      exact hfirst.append (.cons hamp hrest)

/-- A pair is read from its text. -/
theorem parsePair_pairText {pair : Bytes × Bytes} {key val : Bytes} (hpair : Plain pair.1)
    (hkey : percentDecode pair.1 = some key) (hval : percentDecode pair.2 = some val) :
    parsePair (pairText pair) = .ok (key, val) := by
  simp [parsePair, pairText, findChar_append hpair.2, hkey, hval]

/-- The pairs are read one after the other. -/
theorem parsePairs_cons {pair : Bytes × Bytes} {key val : Bytes} {rest : Option Bytes} {fuel : ℕ}
    {res : Dict} (hpair : Plain pair.1 ∧ Plain pair.2) (hkey : percentDecode pair.1 = some key)
    (hval : percentDecode pair.2 = some val) :
    parsePairs (fuel + 1) (pairText pair ++ Pieces.component '&' rest) res =
      parsePairs fuel (rest.getD []) (res.insert key val) := by
  have hamp : byteOf '&' ∉ pairText pair := by
    have hne : byteOf '&' ≠ byteOf '=' := by decide
    simp [pairText, hne, hpair.1.1, hpair.2.1]
  have hview := (substrTo_findChar hamp (Pieces.stops_component '&' rest (decide_eq_true rfl))).1
  have hrest : removeTo (pairText pair ++ Pieces.component '&' rest)
      ((findChar '&' (pairText pair ++ Pieces.component '&' rest)).map (· + 1)) = rest.getD [] := by
    cases rest with
    | none => simp [Pieces.component, findChar_eq_none hamp, removeTo]
    | some rest => simp [Pieces.component, findChar_append hamp, removeTo]
  cases hquery : pairText pair ++ Pieces.component '&' rest with
  | nil => simp [pairText] at hquery
  | cons c query =>
    rw [hquery] at hview hrest
    rw [parsePairs]
    simp only [hview, hrest, parsePair_pairText hpair.1 hkey hval]
    rfl

variable {encode decode : Bytes → Bytes} {pairs : List (Bytes × Bytes)}

/-- The pairs are read one after the other. -/
theorem parsePairs_pairsText {fuel : ℕ} {res : Dict}
    (hplain : ∀ pair ∈ pairs, Plain (encode pair.1) ∧ Plain (encode pair.2))
    (hdecode : ∀ pair ∈ pairs, percentDecode (encode pair.1) = some (decode pair.1) ∧
      percentDecode (encode pair.2) = some (decode pair.2))
    (hfuel : (pairsText (pairs.map (Prod.map encode encode))).length ≤ fuel) :
    parsePairs fuel (pairsText (pairs.map (Prod.map encode encode))) res =
      .ok (res.insertMany (pairs.map (Prod.map decode decode))) := by
  induction pairs generalizing fuel res with
  | nil => cases fuel <;> rfl
  | cons pair pairs ih =>
    obtain ⟨hkey, hval⟩ := hdecode pair List.mem_cons_self
    have htext : pairsText ((pair :: pairs).map (Prod.map encode encode)) =
        pairText (Prod.map encode encode pair) ++ Pieces.component '&'
          (if pairs = [] then none else some (pairsText (pairs.map (Prod.map encode encode)))) := by
      cases pairs with
      | nil => simp [pairsText, Pieces.component]
      | cons next pairs => simp [pairsText_cons_cons, Pieces.component]
    have hrest : (if pairs = [] then none
        else some (pairsText (pairs.map (Prod.map encode encode)))).getD [] =
        pairsText (pairs.map (Prod.map encode encode)) := by
      cases pairs <;> simp [pairsText]
    rw [htext] at hfuel ⊢
    cases fuel with
    | zero => simp [pairText] at hfuel
    | succ fuel =>
      rw [parsePairs_cons (hplain pair List.mem_cons_self) hkey hval, hrest,
        ih (fun next hnext => hplain next (List.mem_cons_of_mem pair hnext))
          (fun next hnext => hdecode next (List.mem_cons_of_mem pair hnext)) ?_]
      · rw [List.map_cons, Prod.map, Std.ExtTreeMap.insertMany_cons]
      · have hshort : (pairsText (pairs.map (Prod.map encode encode))).length ≤
            (Pieces.component '&' (if pairs = [] then none
              else some (pairsText (pairs.map (Prod.map encode encode))))).length := by
          cases pairs <;> simp [pairsText, Pieces.component]
        simp only [List.length_append, pairText, List.length_cons] at hfuel
        omega

/-- A query is read from the text of its pairs. -/
theorem parseQuery_pairsText
    (hplain : ∀ pair ∈ pairs, Plain (encode pair.1) ∧ Plain (encode pair.2))
    (hdecode : ∀ pair ∈ pairs, percentDecode (encode pair.1) = some (decode pair.1) ∧
      percentDecode (encode pair.2) = some (decode pair.2)) :
    parseQuery (pairsText (pairs.map (Prod.map encode encode))) =
      .ok (Std.ExtTreeMap.ofList (pairs.map (Prod.map decode decode))) := by
  rw [parseQuery, parsePairs_pairsText hplain hdecode le_rfl,
    Std.ExtTreeMap.ofList_eq_insertMany_empty]

end Demos.Oak
