import Demos.Lib.Cells
import Demos.Oak.Text

/-!
# Formatted text in a buffer

`vsnprintf` stores as much of a text as fits, with a terminator, and returns the length of the whole
text. `Format` takes that number for the length of what is in its buffer, and `format` returns it to
its caller. Both are right for a text that fits; `Format` reads behind its buffer for a longer one.
-/

namespace Demos.Oak

open Demos.Lib

/-- What a format and its arguments give: a text whose length is an `int`. -/
structure Formatted where
  text : Bytes
  small : text.length < 2 ^ 31

/-- The conversion of an `int` to `size_t`. -/
def sizeT (n : Int32) : UInt64 := n.toInt64.toUInt64

/-- `vsnprintf` on the buffer from an offset on: the buffer that it leaves, and what it returns.
There is no result if it writes outside of the buffer. The text may be missing, if the format cannot
be followed or the text is too long for an `int`. -/
def vsnprintf (buffer : Cells UInt8) (offset : Int32) (size : UInt64) :
    Option Formatted → Option (Cells UInt8 × Int32)
  | none => some (buffer, -1)
  | some output =>
    let ret := Int32.ofNat output.text.length
    if size = 0 then some (buffer, ret)
    else if offset < 0 then none
    else do
      let buffer ← buffer.store offset.toInt.toNat (output.text.take (size.toNat - 1) ++ [0])
      return (buffer, ret)

/-- `format(char*, size_t, const char*, va_list)`. -/
def formatVa (buffer : Cells UInt8) (size : UInt64) (output : Option Formatted) :
    Option (Cells UInt8 × UInt64) := do
  let (buffer, ret) ← vsnprintf buffer 0 size output
  return (buffer, sizeT ret)

/-- `format(char*, size_t, const char*, ...)`. -/
def format (buffer : Cells UInt8) (size : UInt64) (output : Option Formatted) :
    Option (Cells UInt8 × UInt64) := do
  let (buffer, ret) ← formatVa buffer size output
  let ret := ret.toInt64.toInt32
  if ret < 0 then
    let buffer ← buffer.store 0 [0]
    return (buffer, sizeT 0)
  else return (buffer, sizeT ret)

/-- `Format`. There is no result if it reads outside of its buffer. -/
def formatText (output : Option Formatted) : Option Bytes := do
  let (buffer, n) ← vsnprintf (Cells.fresh 1024) 0 1024 output
  if 0 < n then buffer.load (sizeT n).toNat else return []

variable {buffer : Cells UInt8} {size : UInt64} {l : Bytes} {n : ℕ}

/-- A number that is an `int` is the same `size_t`. -/
theorem toNat_sizeT (hn : n < 2 ^ 31) : (sizeT (Int32.ofNat n)).toNat = n := by
  have hint : (Int32.ofNat n).toInt = n := Int32.toInt_ofNat_of_lt hn
  have hle : 0 ≤ (Int32.ofNat n).toInt64 := by
    rw [Int64.le_iff_toInt_le, Int32.toInt_toInt64, hint]
    exact Int.natCast_nonneg n
  rw [sizeT, Int64.toNat_toUInt64_of_le hle, Int64.toNatClampNeg, Int32.toInt_toInt64, hint,
    Int.toNat_natCast]

/-- A `size_t` that was an `int` is that `int` again. -/
theorem toInt32_sizeT (n : Int32) : (sizeT n).toInt64.toInt32 = n := by
  simp [sizeT]

theorem not_ofNat_lt_zero (hn : n < 2 ^ 31) : ¬ Int32.ofNat n < 0 := by
  change ¬ Int32.ofNat n < Int32.ofNat 0
  rw [Int32.ofNat_lt_iff_lt hn (by decide)]
  exact Nat.not_lt_zero n

/-- `vsnprintf` stores as much of the text as fits, and returns its length. -/
theorem vsnprintf_eq (output : Formatted) (hbegins : buffer.Begins l) (hint : n < 2 ^ 31)
    (hknown : n ≤ l.length) (hsize : size ≠ 0) (hroom : n + size.toNat ≤ buffer.length) :
    ∃ buffer', vsnprintf buffer (Int32.ofNat n) size (some output) =
        some (buffer', Int32.ofNat output.text.length) ∧ buffer'.length = buffer.length ∧
      buffer'.Begins (l.take n ++ (output.text.take (size.toNat - 1) ++ [0])) := by
  have hpos : 0 < size.toNat := by
    rwa [Nat.pos_iff_ne_zero, ← UInt64.toNat_zero, Ne, UInt64.toNat_inj]
  have hfits : n + (output.text.take (size.toNat - 1) ++ [0]).length ≤ buffer.length := by
    simp only [List.length_append, List.length_take, List.length_singleton]
    omega
  have hoffset : (Int32.ofNat n).toInt.toNat = n := by
    rw [Int32.toInt_ofNat_of_lt hint, Int.toNat_natCast]
  obtain ⟨buffer', hstore, hlength, hbegins'⟩ := hbegins.store hknown hfits
  refine ⟨buffer', ?_, hlength, hbegins'⟩
  simp only [vsnprintf, if_neg hsize, if_neg (not_ofNat_lt_zero hint), hoffset, hstore,
    Option.bind_eq_bind, Option.bind_some]
  rfl

/-- `Format` returns a text that fits, a terminator too many for a text that fits without one, and
reads outside of its buffer for a longer text. -/
theorem formatText_eq (output : Formatted) :
    formatText (some output) =
      if output.text.length < 1024 then some output.text
      else if output.text.length = 1024 then some (output.text.take 1023 ++ [0])
      else none := by
  obtain ⟨buffer, hprint, hlength, hbegins⟩ := @vsnprintf_eq (Cells.fresh 1024) 1024 [] 0 output
    (Cells.begins_nil _) (by decide) (by decide) (by decide) (by simp)
  rw [Cells.length_fresh] at hlength
  have hpos : 0 < Int32.ofNat output.text.length ↔ 0 < output.text.length :=
    Int32.ofNat_lt_iff_lt (by decide) output.small
  have hrun : formatText (some output) =
      if 0 < output.text.length then buffer.load output.text.length else some [] := by
    change (vsnprintf (Cells.fresh 1024) (Int32.ofNat 0) 1024 (some output)).bind _ = _
    rw [hprint, Option.bind_some]
    simp only [hpos, toNat_sizeT output.small]
    rfl
  have hbegins : buffer.Begins (output.text.take 1023 ++ [0]) := by simpa using hbegins
  rw [hrun]
  split
  next htext =>
    split
    next hshort =>
      rw [List.take_of_length_le (by omega)] at hbegins
      rw [hbegins.load (by simp), List.take_left]
    next hlong =>
      have hknown : (output.text.take 1023 ++ [0]).length = 1024 := by
        rw [List.length_append, List.length_take_of_le (by omega), List.length_singleton]
      split
      next hfull => rw [hfull, hbegins.load hknown.ge, List.take_of_length_le hknown.le]
      next hmore => exact Cells.load_eq_none (by omega)
  next hempty =>
    have hnil : output.text = [] := List.length_eq_zero_iff.mp (by omega)
    simp [hnil]

/-- What `Format` returns is a part of the text exactly if the text fits, or would fit without its
last byte, which is a terminator. -/
theorem formatText_prefix_iff (output : Formatted) :
    (∃ r, formatText (some output) = some r ∧ r <+: output.text) ↔
      output.text.length < 1024 ∨ output.text.length = 1024 ∧ output.text.getLast? = some 0 := by
  rw [formatText_eq]
  split
  next hshort => simp [hshort]
  next hlong =>
    split
    next hfull =>
      obtain hnil | ⟨front, last, hfront⟩ := List.eq_nil_or_concat' output.text
      · simp [hnil] at hfull
      · have htake : output.text.take 1023 = front := by
          rw [hfront, List.length_append, List.length_singleton] at hfull
          rw [hfront, List.take_append_of_le_length (by omega), List.take_of_length_le (by omega)]
        rw [htake, hfull, hfront, List.getLast?_concat]
        simp [List.prefix_append_right_inj, eq_comm]
    next hmore => simp [hlong, hmore]

/-- `format` returns the length of the text, and leaves as much of it in the buffer as fits. -/
theorem format_eq (output : Formatted) (hsize : 1 ≤ size) (hroom : size.toNat ≤ buffer.length) :
    ∃ buffer' n, format buffer size (some output) = some (buffer', n) ∧
      n.toNat = output.text.length ∧
      buffer'.Begins (output.text.take (size.toNat - 1) ++ [0]) := by
  have hne : size ≠ 0 := by
    rintro rfl
    exact absurd hsize (by decide)
  obtain ⟨buffer', hprint, hlength, hbegins⟩ := @vsnprintf_eq buffer size [] 0 output
    (Cells.begins_nil _) (by decide) (by decide) hne (by simpa using hroom)
  refine ⟨buffer', sizeT (Int32.ofNat output.text.length), ?_, toNat_sizeT output.small,
    by simpa using hbegins⟩
  have hcall : formatVa buffer size (some output) =
      some (buffer', sizeT (Int32.ofNat output.text.length)) := by
    change (vsnprintf buffer (Int32.ofNat 0) size (some output)).bind _ = _
    rw [hprint]
    rfl
  simp [format, hcall, toInt32_sizeT, not_ofNat_lt_zero output.small]

/-- `Format` returns the text or a part of it exactly if the text is shorter than its buffer, or
would be without a terminator at its end, and then it is the text. `format` returns a length that is
smaller than the buffer exactly if the text is, and then the text is in the buffer. -/
theorem format_fits_iff (output : Formatted) :
    (((∃ r, formatText (some output) = some r ∧ r <+: output.text ∧
        (output.text.length < 1024 → r = output.text)) ↔
      output.text.length < 1024 ∨ output.text.length = 1024 ∧ output.text.getLast? = some 0)) ∧
    ∀ (buffer : Cells UInt8) (size : UInt64), 1 ≤ size → size.toNat ≤ buffer.length →
      ∃ buffer' n, format buffer size (some output) = some (buffer', n) ∧
        (n ≤ size - 1 ↔ output.text.length < size.toNat) ∧
        (n ≤ size - 1 → buffer'.load n.toNat = some output.text) := by
  refine ⟨?_, fun buffer size hsize hroom => ?_⟩
  · rw [← formatText_prefix_iff]
    refine exists_congr fun r => and_congr_right fun hr => and_iff_left_of_imp fun _ hshort => ?_
    rw [formatText_eq, if_pos hshort] at hr
    exact (Option.some.inj hr).symm
  · obtain ⟨buffer', n, hformat, hn, hbegins⟩ := @format_eq buffer size output hsize hroom
    have hfits : n ≤ size - 1 ↔ output.text.length < size.toNat := by
      have hpos : 1 ≤ size.toNat := UInt64.le_iff_toNat_le.mp hsize
      rw [UInt64.le_iff_toNat_le, UInt64.toNat_sub_of_le _ _ hsize, hn, UInt64.toNat_one]
      omega
    refine ⟨buffer', n, hformat, hfits, fun hle => ?_⟩
    rw [List.take_of_length_le (by have := hfits.mp hle; omega)] at hbegins
    rw [hn, hbegins.load (by simp), List.take_left]

/-- A text of three bytes in a buffer of four. -/
theorem format_fits_iff_three :
    ∃ buffer' n, format (Cells.fresh 4) 4 (some ⟨ascii "abc", by decide⟩) = some (buffer', n) ∧
      n ≤ 4 - 1 ∧ buffer'.load n.toNat = some (ascii "abc") := by
  obtain ⟨buffer', n, hformat, hfits, hload⟩ :=
    (format_fits_iff ⟨ascii "abc", by decide⟩).2 (Cells.fresh 4) 4 (by decide) (by decide)
  have hle : n ≤ 4 - 1 := hfits.mpr (by decide)
  exact ⟨buffer', n, hformat, hle, hload hle⟩

/-- A text of one letter, repeated. -/
def Formatted.letters (n : ℕ) (h : n < 2 ^ 31) : Formatted :=
  ⟨List.replicate n 97, by rwa [List.length_replicate]⟩

/-- `Format` reads behind its buffer for a text of 1025 bytes, and `format` returns 200 for a text
of 200 bytes in a buffer of 128. -/
theorem format_overrun :
    formatText (some (.letters 1025 (by decide))) = none ∧
      ∃ buffer' n, format (Cells.fresh 128) 128 (some (.letters 200 (by decide))) =
        some (buffer', n) ∧ n.toNat = 200 ∧ ¬ n ≤ 128 - 1 := by
  have hlength (n : ℕ) (h : n < 2 ^ 31) : (Formatted.letters n h).text.length = n :=
    List.length_replicate
  constructor
  · rw [formatText_eq, hlength, if_neg (by decide), if_neg (by decide)]
  · obtain ⟨buffer', n, hformat, hn, -⟩ := @format_eq (Cells.fresh 128) 128
      (.letters 200 (by decide)) (by decide) (Cells.length_fresh 128).ge
    rw [hlength] at hn
    refine ⟨buffer', n, hformat, hn, fun hle => ?_⟩
    rw [UInt64.le_iff_toNat_le, hn] at hle
    exact absurd hle (by decide)

end Demos.Oak
