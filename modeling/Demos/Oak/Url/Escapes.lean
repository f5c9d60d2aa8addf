import Demos.Oak.Url.Decode

/-!
# What `PercentDecode` makes of escapes

An escape is a percent sign with the two characters behind it. `PercentDecode` asks for the two
characters and not for digits, and the first of them does not count. So it does what percent
decoding means exactly if an escape is cut off at the end, where it fails, or if every escape is a
zero and a second digit.
-/

namespace Demos.Oak

open Demos.Lib

/-- `PercentDecode` with the string it writes to: whether it returns true, and the string. -/
def percentDecodeTo (str res : Bytes) : Bool × Bytes :=
  match percentDecode str with
  | none => (false, res)
  | some decoded => (true, decoded)

/-- The value of a hexadecimal digit. -/
def hexDigit? (c : UInt8) : Option ℕ :=
  if byteOf '0' ≤ c ∧ c ≤ byteOf '9' then some (c - byteOf '0').toNat
  else if byteOf 'a' ≤ c ∧ c ≤ byteOf 'f' then some (c - byteOf 'a' + 10).toNat
  else if byteOf 'A' ≤ c ∧ c ≤ byteOf 'F' then some (c - byteOf 'A' + 10).toNat
  else none

/-- The byte that two digits denote. -/
def hexByte (first second : UInt8) : UInt8 :=
  .ofNat (16 * (hexDigit? first).getD 0 + (hexDigit? second).getD 0)

/-- What stands behind each percent sign that is not part of an earlier escape. -/
def escapeTails : Bytes → List Bytes
  | [] => []
  | c :: rest =>
    if c = byteOf '%' then
      rest ::
        match rest with
        | _ :: _ :: rest => escapeTails rest
        | _ => []
    else escapeTails rest

/-- Two hexadecimal digits come first. -/
def HexPair : Bytes → Prop
  | first :: second :: _ => (hexDigit? first).isSome ∧ (hexDigit? second).isSome
  | _ => False

/-- A zero and another hexadecimal digit come first. -/
def ZeroPair : Bytes → Prop
  | first :: second :: _ => first = byteOf '0' ∧ (hexDigit? second).isSome
  | _ => False

/-- The bytes that a string of escapes and characters denotes. -/
def denoted : Bytes → Bytes
  | [] => []
  | c :: rest =>
    if c = byteOf '%' then
      match rest with
      | first :: second :: rest => hexByte first second :: denoted rest
      | _ => []
    else if c = byteOf '+' then byteOf ' ' :: denoted rest
    else c :: denoted rest

/-- `PercentDecode` succeeds exactly if every escape has two digits; then it writes the denoted
bytes, and otherwise nothing. -/
structure DecodesExactly (str res : Bytes) : Prop where
  success : (percentDecodeTo str res).1 = true ↔ ∀ tail ∈ escapeTails str, HexPair tail
  contents : (percentDecodeTo str res).1 = true → (percentDecodeTo str res).2 = denoted str
  unchanged : (percentDecodeTo str res).1 = false → (percentDecodeTo str res).2 = res

variable {str res tail : Bytes}

/-- A digit is read as its value. -/
theorem letterToHex_eq {c : UInt8} {d : ℕ} (h : hexDigit? c = some d) :
    letterToHex c = .ofNat d ∧ d < 16 := by
  have hall : ∀ c : UInt8, ∀ d ∈ hexDigit? c, letterToHex c = .ofNat d ∧ d < 16 :=
    forall_byte (by decide +kernel)
  exact hall c d h

theorem hexDigit?_eq_zero_iff (c : UInt8) : hexDigit? c = some 0 ↔ c = byteOf '0' :=
  forall_byte (P := fun c => hexDigit? c = some 0 ↔ c = byteOf '0') (by decide +kernel) c

/-- The byte of an escape with two digits is the one they denote exactly if the first is zero. -/
theorem letterToHex_eq_hexByte_iff {first second : UInt8} (hfirst : (hexDigit? first).isSome)
    (hsecond : (hexDigit? second).isSome) :
    letterToHex second = hexByte first second ↔ first = byteOf '0' := by
  obtain ⟨d, hd⟩ := Option.isSome_iff_exists.mp hfirst
  obtain ⟨e, he⟩ := Option.isSome_iff_exists.mp hsecond
  obtain ⟨-, hdlt⟩ := letterToHex_eq hd
  obtain ⟨hvalue, helt⟩ := letterToHex_eq he
  rw [hvalue, hexByte, hd, he, ← UInt8.toNat_inj, UInt8.toNat_ofNat', UInt8.toNat_ofNat',
    ← hexDigit?_eq_zero_iff, hd, Option.getD_some, Option.getD_some, Option.some.injEq]
  omega

/-- A character that is no percent sign begins no escape. -/
theorem escapeTails_cons {c : UInt8} (hpercent : c ≠ byteOf '%') (rest : Bytes) :
    escapeTails (c :: rest) = escapeTails rest := by
  rw [escapeTails.eq_def]
  simp only [if_neg hpercent]

/-- An escape is followed by the next ones. -/
theorem escapeTails_percent (first second : UInt8) (rest : Bytes) :
    escapeTails (byteOf '%' :: first :: second :: rest) =
      (first :: second :: rest) :: escapeTails rest := by
  rw [escapeTails.eq_def]
  simp

/-- A percent sign without two characters behind it is the last one. -/
theorem escapeTails_cut (h : ∀ first second rest, tail = first :: second :: rest → False) :
    escapeTails (byteOf '%' :: tail) = [tail] ∧ tail.length < 2 := by
  match tail with
  | [] => exact ⟨by rw [escapeTails.eq_def]; simp, by simp⟩
  | [c] => exact ⟨by rw [escapeTails.eq_def]; simp, by simp⟩
  | first :: second :: rest => exact (h first second rest rfl).elim

/-- Decoding fails exactly at an escape that is cut off. -/
theorem percentDecode_eq_none_iff :
    percentDecode str = none ↔ ∃ tail ∈ escapeTails str, tail.length < 2 := by
  fun_induction percentDecode str with
  | case1 => simp [escapeTails]
  | case2 first second rest ih =>
    rw [Option.map_eq_none_iff, ih, escapeTails_percent]
    simp
  | case3 rest hcut =>
    obtain ⟨htails, hlength⟩ := escapeTails_cut hcut
    exact iff_of_true rfl ⟨rest, by rw [htails]; exact List.mem_singleton_self rest, hlength⟩
  | case4 rest hpercent ih => rw [Option.map_eq_none_iff, ih, escapeTails_cons hpercent]
  | case5 c rest hpercent hplus ih =>
    rw [Option.map_eq_none_iff, ih, escapeTails_cons hpercent]

/-- Where every escape has two digits, decoding yields the denoted bytes exactly if the first digits
are zeros. -/
theorem Decodes.eq_denoted_iff (h : Decodes str res)
    (hpairs : ∀ tail ∈ escapeTails str, HexPair tail) :
    res = denoted str ↔ ∀ tail ∈ escapeTails str, ZeroPair tail := by
  induction h with
  | nil => simp [escapeTails, denoted]
  | @digits str res first second _ ih =>
    rw [escapeTails_percent, List.forall_mem_cons] at hpairs ⊢
    obtain ⟨⟨hfirst, hsecond⟩, hpairs⟩ := hpairs
    have hdenoted : denoted (byteOf '%' :: first :: second :: str) =
        hexByte first second :: denoted str := by
      rw [denoted.eq_def]
      simp
    rw [hdenoted, List.cons.injEq, letterToHex_eq_hexByte_iff hfirst hsecond, ih hpairs]
    exact and_congr_left fun _ => (and_iff_left hsecond).symm
  | @plus str res _ ih =>
    have hpercent : byteOf '+' ≠ byteOf '%' := by decide
    rw [escapeTails_cons hpercent] at hpairs ⊢
    have hdenoted : denoted (byteOf '+' :: str) = byteOf ' ' :: denoted str := by
      rw [denoted.eq_def]
      simp [hpercent]
    rw [hdenoted, List.cons.injEq, ih hpairs]
    exact and_iff_right rfl
  | @char str res c hpercent hplus _ ih =>
    rw [escapeTails_cons hpercent] at hpairs ⊢
    have hdenoted : denoted (c :: str) = c :: denoted str := by
      rw [denoted.eq_def]
      simp [hpercent, hplus]
    rw [hdenoted, List.cons.injEq, ih hpairs]
    exact and_iff_right rfl

/-- A zero is a digit. -/
theorem ZeroPair.hexPair (h : ZeroPair tail) : HexPair tail := by
  match tail with
  | first :: second :: rest =>
    obtain ⟨rfl, hsecond⟩ := h
    exact ⟨by decide, hsecond⟩

theorem HexPair.length_ge (h : HexPair tail) : 2 ≤ tail.length := by
  match tail with
  | first :: second :: rest => simp

/-- Decoding is exact if and only if an escape is cut off or every escape has a zero and a second
digit. -/
theorem decodesExactly_iff (str res : Bytes) :
    DecodesExactly str res ↔
      (∃ tail ∈ escapeTails str, tail.length < 2) ∨ ∀ tail ∈ escapeTails str, ZeroPair tail := by
  cases hdecode : percentDecode str with
  | none =>
    have hcut := percentDecode_eq_none_iff.mp hdecode
    have hcall : percentDecodeTo str res = (false, res) := by rw [percentDecodeTo, hdecode]
    refine iff_of_true ⟨?_, ?_, ?_⟩ (.inl hcut)
    · rw [hcall]
      obtain ⟨tail, htail, hlength⟩ := hcut
      refine iff_of_false Bool.false_ne_true fun hpairs => ?_
      exact absurd (hpairs tail htail).length_ge (by omega)
    · rw [hcall]
      exact fun hfalse => absurd hfalse Bool.false_ne_true
    · rw [hcall]
      exact fun _ => rfl
  | some decoded =>
    have hcall : percentDecodeTo str res = (true, decoded) := by rw [percentDecodeTo, hdecode]
    have hwhole : ¬ ∃ tail ∈ escapeTails str, tail.length < 2 := by
      rw [← percentDecode_eq_none_iff, hdecode]
      exact Option.some_ne_none _
    have hdecodes : Decodes str decoded := decodes_of_percentDecode hdecode
    rw [or_iff_right hwhole]
    constructor
    · rintro ⟨hsuccess, hcontents, -⟩
      rw [hcall] at hsuccess hcontents
      exact (hdecodes.eq_denoted_iff (hsuccess.mp rfl)).mp (hcontents rfl)
    · intro hzero
      have hpairs : ∀ tail ∈ escapeTails str, HexPair tail := fun tail htail =>
        (hzero tail htail).hexPair
      refine ⟨?_, ?_, ?_⟩
      · rw [hcall]
        exact iff_of_true rfl hpairs
      · rw [hcall]
        exact fun _ => (hdecodes.eq_denoted_iff hpairs).mpr hzero
      · rw [hcall]
        exact nofun

/-- Two characters that are no digits are accepted, and the escape of a letter is another byte. -/
theorem decodesExactly_fails :
    percentDecodeTo (ascii "%zz") [] = (true, ascii "z") ∧
      percentDecodeTo (ascii "%41") [] = (true, [1]) ∧
      ¬ ∀ str res, DecodesExactly str res := by
  have hletters : percentDecodeTo (ascii "%zz") [] = (true, ascii "z") := by decide
  refine ⟨hletters, by decide, fun hall => ?_⟩
  have hsuccess := (hall (ascii "%zz") []).success
  rw [hletters] at hsuccess
  have hpair : HexPair (ascii "zz") := hsuccess.mp rfl (ascii "zz") (by decide)
  exact absurd hpair.1 (by decide)

end Demos.Oak
