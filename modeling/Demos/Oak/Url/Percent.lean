import Demos.Lib.Byte
import Demos.Oak.Decimal

/-!
# Percent encoding

`PercentEncode` keeps the unreserved characters and writes every other byte as a percent sign and
two hexadecimal digits. `PercentDecode` shifts the first digit by eight bits where four are meant,
so that the digit is lost when the result becomes a byte again; only the second digit counts.
-/

namespace Demos.Oak

open Demos.Lib

/-- `IsUnreserved`. -/
def isUnreserved (c : UInt8) : Bool :=
  (byteOf 'a' ≤ c && c ≤ byteOf 'z') || (byteOf 'A' ≤ c && c ≤ byteOf 'Z') ||
    (byteOf '0' ≤ c && c ≤ byteOf '9') || c = byteOf '-' || c = byteOf '.' || c = byteOf '_' ||
    c = byteOf '~'

/-- `HexToLetter`. -/
def hexToLetter (c : UInt8) : UInt8 :=
  if c < 10 then c + byteOf '0' else if c < 16 then c - 10 + byteOf 'A' else c

/-- `LetterToHex`. -/
def letterToHex (c : UInt8) : UInt8 :=
  if byteOf '0' ≤ c ∧ c ≤ byteOf '9' then c - byteOf '0'
  else if byteOf 'a' ≤ c ∧ c ≤ byteOf 'f' then c + 10 - byteOf 'a'
  else if byteOf 'A' ≤ c ∧ c ≤ byteOf 'F' then c + 10 - byteOf 'A'
  else c

/-- `PercentEncode`, one character. -/
def percentEncodeChar (c : UInt8) : Bytes :=
  if isUnreserved c then [c]
  else [byteOf '%', hexToLetter ((c >>> 4) &&& 0x0F), hexToLetter (c &&& 0x0F)]

/-- `PercentEncode`. -/
def percentEncode (str : Bytes) : Bytes := str.flatMap percentEncodeChar

/-- The character that `PercentDecode` makes of two digits; the shift is one of an `int`, and the
assignment to a `char` keeps its low byte. -/
def decodeDigits (first second : UInt8) : UInt8 :=
  ((letterToHex first).toUInt32 <<< 8).toUInt8 ||| letterToHex second

/-- `PercentDecode`; nothing is written if it fails. -/
def percentDecode : Bytes → Option Bytes
  | [] => some []
  | c :: rest =>
    if c = byteOf '%' then
      match rest with
      | first :: second :: rest => (percentDecode rest).map (decodeDigits first second :: ·)
      | _ => none
    else if c = byteOf '+' then (percentDecode rest).map (byteOf ' ' :: ·)
    else (percentDecode rest).map (c :: ·)

/-- What becomes of a byte that is encoded and decoded again. -/
def recode (c : UInt8) : UInt8 := if isUnreserved c then c else c &&& 0x0F

/-- The first digit is lost. -/
@[simp]
theorem decodeDigits_eq (first second : UInt8) :
    decodeDigits first second = letterToHex second := by
  have hshift : ((letterToHex first).toUInt32 <<< 8).toUInt8 = 0 :=
    forall_byte (P := fun c => (c.toUInt32 <<< 8).toUInt8 = 0) (by decide +kernel) _
  rw [decodeDigits, hshift, UInt8.zero_or]

/-- A digit is read as it was written. -/
theorem letterToHex_hexToLetter (c : UInt8) :
    letterToHex (hexToLetter (c &&& 0x0F)) = c &&& 0x0F :=
  forall_byte (P := fun c => letterToHex (hexToLetter (c &&& 0x0F)) = c &&& 0x0F)
    (by decide +kernel) c

/-- An unreserved character is neither a percent sign nor a plus sign. -/
theorem isUnreserved_ne {c : UInt8} (h : isUnreserved c = true) :
    c ≠ byteOf '%' ∧ c ≠ byteOf '+' :=
  forall_byte (P := fun c => isUnreserved c = true → c ≠ byteOf '%' ∧ c ≠ byteOf '+')
    (by decide +kernel) c h

/-- A byte comes back exactly if it is unreserved or has no first digit. -/
theorem recode_eq_self_iff (c : UInt8) : recode c = c ↔ isUnreserved c = true ∨ c < 0x10 :=
  forall_byte (P := fun c => recode c = c ↔ isUnreserved c = true ∨ c < 0x10)
    (by decide +kernel) c

/-- A character that is neither a percent sign nor a plus sign is decoded as itself. -/
theorem percentDecode_cons {c : UInt8} (hpercent : c ≠ byteOf '%') (hplus : c ≠ byteOf '+')
    (rest : Bytes) : percentDecode (c :: rest) = (percentDecode rest).map (c :: ·) := by
  rw [percentDecode.eq_def]
  simp only [if_neg hpercent, if_neg hplus]

/-- A percent sign takes the next two characters. -/
theorem percentDecode_percent (first second : UInt8) (rest : Bytes) :
    percentDecode (byteOf '%' :: first :: second :: rest) =
      (percentDecode rest).map (letterToHex second :: ·) := by
  rw [percentDecode.eq_def]
  simp

/-- Decoding what was encoded, one character. -/
theorem percentDecode_encodeChar (c : UInt8) (rest : Bytes) :
    percentDecode (percentEncodeChar c ++ rest) = (percentDecode rest).map (recode c :: ·) := by
  by_cases hc : isUnreserved c = true
  · obtain ⟨hpercent, hplus⟩ := isUnreserved_ne hc
    simp [percentEncodeChar, recode, hc, percentDecode_cons hpercent hplus]
  · simp [percentEncodeChar, recode, hc, percentDecode_percent, letterToHex_hexToLetter]

/-- Decoding what was encoded succeeds and recodes every byte. -/
theorem percentDecode_percentEncode (str : Bytes) :
    percentDecode (percentEncode str) = some (str.map recode) := by
  induction str with
  | nil => rfl
  | cons c rest ih =>
    change percentDecode (percentEncodeChar c ++ percentEncode rest) = _
    rw [percentDecode_encodeChar, ih]
    rfl

/-- A list is recoded as itself exactly if every byte is. -/
theorem map_recode_eq_self_iff (str : Bytes) :
    str.map recode = str ↔ ∀ c ∈ str, isUnreserved c = true ∨ c < 0x10 := by
  have hid : str.map recode = str.map id ↔ ∀ c ∈ str, recode c = id c := List.map_inj_left
  simp only [List.map_id, id_eq, recode_eq_self_iff] at hid
  exact hid

/-- Decoding an encoded string yields the string exactly if every byte is unreserved or below
`0x10`. -/
theorem percentDecode_percentEncode_eq_iff (str : Bytes) :
    percentDecode (percentEncode str) = some str ↔
      ∀ c ∈ str, isUnreserved c = true ∨ c < 0x10 := by
  rw [percentDecode_percentEncode, Option.some.injEq, map_recode_eq_self_iff]

/-- A space comes back as a null byte. -/
theorem percentDecode_percentEncode_space :
    percentDecode (percentEncode (ascii " ")) = some [0] ∧
      ¬ ∀ str, percentDecode (percentEncode str) = some str := by
  have hspace : percentDecode (percentEncode (ascii " ")) = some [0] := by decide
  refine ⟨hspace, fun hall => ?_⟩
  rw [hall (ascii " ")] at hspace
  exact absurd hspace (by decide)

end Demos.Oak
