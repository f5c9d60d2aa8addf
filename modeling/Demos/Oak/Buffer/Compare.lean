import Demos.Oak.Buffer.Contents
import Demos.Oak.StringPiece.Compare

/-!
# Comparing buffers

`oak_buffer_compare` and `oak_buffer_compare_str` compare the common number of bytes and then the
sizes. The difference of the sizes is computed without a sign, read as a `long` and brought into
the range of `int`; its sign is right for all sizes that a `long` can hold. Both therefore agree
with the comparison of views.
-/

namespace Demos.Oak

open Demos.Lib

/-- `INT_MAX`. -/
def intMax : ℤ := 2 ^ 31 - 1

/-- `INT_MIN`. -/
def intMin : ℤ := -2 ^ 31

/-- The common body of the comparisons, on the bytes behind two pointers. -/
def compareBytes (lhs : ℕ → UInt8) (lhsSize : UInt64) (rhs : ℕ → UInt8) (rhsSize : UInt64) : ℤ :=
  let minSize := if lhsSize < rhsSize then lhsSize else rhsSize
  let r0 := memcmp (strBytes lhs minSize) (strBytes rhs minSize)
  let r1 := (lhsSize - rhsSize).toInt64.toInt
  let r1 := if r1 > intMax then intMax else if r1 < intMin then intMin else r1
  if r0 ≠ 0 then r0 else if r1 ≠ 0 then r1 else 0

/-- `oak_buffer_compare`. -/
def oakBufferCompare (heap : Heap) (lhs rhs : Buffer) : ℤ :=
  compareBytes (heap.memory lhs.ptr) lhs.size (heap.memory rhs.ptr) rhs.size

/-- `oak_buffer_compare_str`. -/
def oakBufferCompareStr (heap : Heap) (lhs : Buffer) (str : ℕ → UInt8) (size : UInt64) : ℤ :=
  compareBytes (heap.memory lhs.ptr) lhs.size str size

/-- Bringing a number into the range of `int` keeps its sign. -/
theorem sign_clamp (r : ℤ) :
    (if r > intMax then intMax else if r < intMin then intMin else r).sign = r.sign := by
  unfold intMax intMin
  split
  next hgt => rw [Int.sign_eq_one_of_pos (by decide), Int.sign_eq_one_of_pos (by omega)]
  next =>
    split
    next hlt => rw [Int.sign_eq_neg_one_of_neg (by decide), Int.sign_eq_neg_one_of_neg (by omega)]
    next => rfl

/-- The difference of two sizes, read as a `long`. -/
theorem toInt64_sub {a b : UInt64} (ha : a.toNat < 2 ^ 63) (hb : b.toNat < 2 ^ 63) :
    (a - b).toInt64.toInt = (a.toNat : ℤ) - b.toNat := by
  have hint : ∀ c : UInt64, c.toNat < 2 ^ 63 → c.toBitVec.toInt = c.toNat := by
    intro c hc
    refine BitVec.toInt_eq_toNat_of_lt ?_
    rw [UInt64.toNat_toBitVec]
    omega
  calc (a - b).toInt64.toInt = (a.toBitVec - b.toBitVec).toInt := rfl
    _ = ((a.toNat : ℤ) - b.toNat).bmod (2 ^ 64) := by rw [BitVec.toInt_sub, hint a ha, hint b hb]
    _ = (a.toNat : ℤ) - b.toNat := Int.bmod_eq_of_le (by omega) (by omega)

/-- The bytes of a smaller number are the first ones. -/
theorem strBytes_take (str : ℕ → UInt8) {size count : UInt64} (hle : count.toNat ≤ size.toNat) :
    strBytes str count = (strBytes str size).take count.toNat := by
  rw [strBytes, strBytes, ← List.map_take, List.take_range, min_eq_left hle]

/-- The common body tells the lexicographic order. -/
theorem sign_compareBytes {lhs rhs : ℕ → UInt8} {lhsSize rhsSize : UInt64}
    (hlhs : lhsSize.toNat < 2 ^ 63) (hrhs : rhsSize.toNat < 2 ^ 63) :
    (compareBytes lhs lhsSize rhs rhsSize).sign =
      orderingSign (compare (strBytes lhs lhsSize) (strBytes rhs rhsSize)) := by
  have hlength : ∀ str size, (strBytes str size).length = size.toNat := by simp [strBytes]
  have hmin : (if lhsSize < rhsSize then lhsSize else rhsSize).toNat =
      min (strBytes lhs lhsSize).length (strBytes rhs rhsSize).length := by
    rw [hlength, hlength]
    split
    next hlt =>
      have hle := UInt64.lt_iff_toNat_lt.mp hlt
      omega
    next hge =>
      have hle := UInt64.le_iff_toNat_le.mp (UInt64.not_lt.mp hge)
      omega
  have hmemcmp := memcmp_take hmin
  rw [hlength, hlength] at hmin
  rw [← strBytes_take lhs (by omega), ← strBytes_take rhs (by omega)] at hmemcmp
  simp only [compareBytes, hmemcmp, toInt64_sub hlhs hrhs]
  rw [orderingSign_compare, hlength, hlength]
  obtain hr | hr | hr := memcmp_sign (strBytes lhs lhsSize) (strBytes rhs rhsSize)
  · simp [hr]
  · have hzero : ∀ r : ℤ, (if r ≠ 0 then r else 0) = r := by
      intro r
      split <;> simp_all
    have hequal : ¬ (0 : ℤ) ≠ 0 := not_not.mpr rfl
    rw [hzero, hr, if_neg hequal, if_neg hequal, sign_clamp]
  · simp [hr]

/-- A buffer whose size a `long` can hold. -/
abbrev SizedBuffer := {b : Buffer // b.size.toNat < 2 ^ 63}

/-- All comparisons tell the lexicographic order of unsigned bytes, and the tests for the start
and the end of a view tell its prefixes and suffixes. -/
theorem comparisons_lexicographic (heap : Heap) :
    IsThreeWay (fun a b : SizedBuffer => oakBufferCompare heap a b) (fun a => a.1.bytes heap) ∧
    IsThreeWay (fun a b : SizedBuffer => oakBufferCompareStr heap a (heap.memory b.1.ptr) b.1.size)
      (fun a => a.1.bytes heap) ∧
    IsThreeWay (fun a b : StringPiece => (a.compare b).getD 0) StringPiece.chars ∧
    ∀ a b : StringPiece,
      a.compare b = some (orderingSign (compare a.chars b.chars)) ∧
      a.startsWith b = some (decide (b.chars <+: a.chars)) ∧
      a.endsWith b = some (decide (b.chars <:+ a.chars)) := by
  refine ⟨.of_sign fun a b => sign_compareBytes a.2 b.2, .of_sign fun a b => ?_,
    .of_sign fun a b => ?_, fun a b => ⟨a.compare_eq b, a.startsWith_eq b, a.endsWith_eq b⟩⟩
  · exact sign_compareBytes a.2 b.2
  · rw [StringPiece.compare_eq, Option.getD_some]
    cases compare a.chars b.chars <;> rfl

end Demos.Oak
