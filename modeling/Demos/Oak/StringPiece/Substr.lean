import Demos.Oak.StringPiece.Compare

/-!
# Parts of a view

`copy` checks its position and throws, `substr` does not check it. From a position beyond the end
`substr` returns a view that begins outside of the one it is part of, with a length that comes from
a difference that has wrapped around.
-/

namespace Demos.Oak

/-- `std::out_of_range`. -/
structure OutOfRange where
  what : String
deriving DecidableEq

namespace StringPiece

/-- A view by the distance of its pointer from `ptr_` and its length. -/
structure Extent where
  start : UInt64
  count : UInt64
deriving DecidableEq

/-- `copy`: the characters that are written to the buffer. There is no result if it reads outside of
the view. -/
def copy (s : StringPiece) (n pos : UInt64) : Except OutOfRange (Option Bytes) :=
  if pos > s.len then .error ⟨"polly::string_view::copy"⟩
  else
    let n := min (s.len - pos) n
    .ok (if n > 0 then s.range pos n else some [])

/-- `substr`, from any position. It throws nothing. -/
def substrExtent (s : StringPiece) (pos n : UInt64) : Except OutOfRange Extent :=
  .ok ⟨pos, if n < s.len - pos then n else s.len - pos⟩

/-- The call of `substr` agrees with the one of `copy`: either both throw, or the view is a part of
the one it is taken from and has the characters that `copy` writes. It is the part that `compare`,
`starts_with` and `ends_with` look at. -/
structure SubstrAgrees (s : StringPiece) (pos n : UInt64) : Prop where
  error_iff : (∃ e, s.substrExtent pos n = .error e) ↔ ∃ e, s.copy n pos = .error e
  chars : pos ≤ s.len → ∃ part written, s.substrExtent pos n = .ok part ∧
    s.copy n pos = .ok (some written) ∧
    part.start.toNat + part.count.toNat ≤ s.chars.length ∧
    s.range part.start part.count = some written ∧
    (s.substr pos n).map StringPiece.chars = some written ∧
    written.length = min n.toNat (s.chars.length - pos.toNat)

variable {s : StringPiece} {pos n : UInt64}

/-- What `copy` writes. -/
theorem copy_eq (hpos : pos ≤ s.len) :
    s.copy n pos = .ok (some ((s.chars.drop pos.toNat).take n.toNat)) := by
  have hpos' : pos.toNat ≤ s.chars.length := by rwa [UInt64.le_iff_toNat_le, len_toNat] at hpos
  have hmin : (min (s.len - pos) n).toNat = min (s.chars.length - pos.toNat) n.toNat := by
    rw [toNat_min, UInt64.toNat_sub_of_le _ _ hpos, len_toNat]
  have htake : (s.chars.drop pos.toNat).take n.toNat =
      (s.chars.drop pos.toNat).take (min (s.len - pos) n).toNat := by
    rw [hmin, ← List.length_drop, Nat.min_comm, ← List.take_eq_take_min]
  rw [copy, if_neg (UInt64.not_lt.mpr hpos), htake]
  refine congrArg Except.ok ?_
  split
  next => rw [range, if_pos (by omega)]
  next hzero =>
    have hnil : (min (s.len - pos) n).toNat = 0 := by
      rw [gt_iff_lt, UInt64.lt_iff_toNat_lt] at hzero
      exact Nat.eq_zero_of_not_pos hzero
    rw [hnil, List.take_zero]

/-- The characters of the view that `substr` returns. -/
theorem range_substrExtent (hpos : pos ≤ s.len) :
    pos.toNat + (if n < s.len - pos then n else s.len - pos).toNat ≤ s.chars.length ∧
      s.range pos (if n < s.len - pos then n else s.len - pos) =
        some ((s.chars.drop pos.toNat).take n.toNat) := by
  have hpos' : pos.toNat ≤ s.chars.length := by rwa [UInt64.le_iff_toNat_le, len_toNat] at hpos
  have hinside : pos.toNat + (if n < s.len - pos then n else s.len - pos).toNat ≤
      s.chars.length := by
    rw [toNat_count hpos]
    omega
  refine ⟨hinside, ?_⟩
  rw [range, if_pos hinside, toNat_count hpos, ← List.length_drop, ← List.take_eq_take_min]

/-- `substr` and `copy` agree if and only if the position is not beyond the end. -/
theorem substrAgrees_iff (s : StringPiece) (pos n : UInt64) :
    s.SubstrAgrees pos n ↔ pos ≤ s.len := by
  constructor
  · intro h
    by_contra hpos
    have hthrows : ∃ e, s.copy n pos = .error e := ⟨_, if_pos (UInt64.not_le.mp hpos)⟩
    obtain ⟨e, he⟩ := h.error_iff.mpr hthrows
    cases he
  · intro hpos
    have hcopy := copy_eq (n := n) hpos
    obtain ⟨hinside, hrange⟩ := range_substrExtent (n := n) hpos
    obtain ⟨part, hpart, hchars⟩ := substr_chars (n := n) hpos
    have hsubstr : (s.substr pos n).map StringPiece.chars =
        some ((s.chars.drop pos.toNat).take n.toNat) := by
      rw [hpart, Option.map_some, hchars]
    refine ⟨iff_of_false ?_ ?_, fun _ => ⟨_, _, rfl, hcopy, hinside, hrange, hsubstr, ?_⟩⟩
    · rintro ⟨e, he⟩
      cases he
    · rintro ⟨e, he⟩
      rw [hcopy] at he
      cases he
    · rw [List.length_take, List.length_drop]

/-- `copy` throws for a position beyond the end of `abc`, and `substr` returns a character that is
not there. -/
theorem substrAgrees_beyond :
    (⟨some (ascii "abc"), by decide⟩ : StringPiece).copy 1 4 =
        .error ⟨"polly::string_view::copy"⟩ ∧
      (⟨some (ascii "abc"), by decide⟩ : StringPiece).substrExtent 4 1 = .ok ⟨4, 1⟩ ∧
      (⟨some (ascii "abc"), by decide⟩ : StringPiece).range 4 1 = none ∧
      ¬ (⟨some (ascii "abc"), by decide⟩ : StringPiece).SubstrAgrees 4 1 := by
  refine ⟨by decide, by decide, by decide, fun h => ?_⟩
  obtain ⟨e, he⟩ := h.error_iff.mpr ⟨⟨"polly::string_view::copy"⟩, by decide⟩
  cases he

end StringPiece

end Demos.Oak
