import Demos.Lib.ThreeWay
import Demos.Oak.StringPiece.Search

/-!
# Comparing views

`compare` looks at the common number of characters first and at the lengths then, which is the
lexicographic order on unsigned bytes. `starts_with` and `ends_with` compare a part of the view
with the other one.
-/

namespace Demos.Oak

open Demos.Lib

/-- The first difference decides between texts, and then their lengths. -/
theorem orderingSign_compare (as bs : Bytes) :
    orderingSign (compare as bs) =
      if memcmp as bs ≠ 0 then memcmp as bs else ((as.length : ℤ) - bs.length).sign := by
  induction as generalizing bs with
  | nil =>
    cases bs with
    | nil => rfl
    | cons b bs =>
      have hneg : (([] : Bytes).length : ℤ) - (b :: bs).length < 0 := by
        rw [List.length_nil, List.length_cons]
        omega
      have hzero : memcmp [] (b :: bs) = 0 := by simp [memcmp]
      rw [List.compare_nil_cons, hzero, if_neg (by simp), Int.sign_eq_neg_one_of_neg hneg]
      rfl
  | cons a as ih =>
    cases bs with
    | nil =>
      have hpos : (0 : ℤ) < as.length + 1 := by omega
      simp [List.compare_cons_nil, memcmp, orderingSign, Int.sign_eq_one_of_pos hpos]
    | cons b bs =>
      rw [List.compare_cons_cons, memcmp]
      by_cases hlt : a < b
      · simp [hlt, orderingSign, Std.compare_eq_lt.mpr hlt]
      · by_cases hgt : b < a
        · simp [hlt, hgt, orderingSign, Std.compare_eq_gt.mpr hgt]
        · have heq : a = b := UInt8.le_antisymm (UInt8.not_lt.mp hgt) (UInt8.not_lt.mp hlt)
          have hlength : ((a :: as).length : ℤ) - (b :: bs).length = as.length - bs.length := by
            rw [List.length_cons, List.length_cons]
            omega
          rw [hlength, heq, Std.ReflOrd.compare_self, if_neg (UInt8.lt_irrefl b),
            if_neg (UInt8.lt_irrefl b)]
          exact ih bs

/-- `memcmp` is a sign. -/
theorem memcmp_sign (as bs : Bytes) : memcmp as bs = -1 ∨ memcmp as bs = 0 ∨ memcmp as bs = 1 := by
  induction as generalizing bs with
  | nil => simp [memcmp]
  | cons a as ih =>
    cases bs with
    | nil => simp [memcmp]
    | cons b bs =>
      rw [memcmp]
      split
      next => exact .inl rfl
      next =>
        split
        next => exact .inr (.inr rfl)
        next => exact ih bs

/-- `memcmp` needs the common number of bytes only. -/
theorem memcmp_take {as bs : Bytes} {n : ℕ} (hn : n = min as.length bs.length) :
    memcmp (as.take n) (bs.take n) = memcmp as bs := by
  subst hn
  induction as generalizing bs with
  | nil => simp [memcmp]
  | cons a as ih =>
    cases bs with
    | nil => simp [memcmp]
    | cons b bs => simp [memcmp, ih]

/-- The order relation is told by its sign. -/
theorem orderingSign_eq_zero_iff {as bs : Bytes} :
    orderingSign (compare as bs) = 0 ↔ as = bs := by
  have hkey : compare as bs = .eq ↔ as = bs := Std.LawfulEqCmp.compare_eq_iff_eq
  rw [← hkey]
  cases compare as bs <;> decide

namespace StringPiece

variable {s other : StringPiece} {pos n : UInt64}

/-- `CompareHelper`. -/
def compareHelper (a b : UInt64) (r : ℤ) : ℤ :=
  if r = 0 then (if a > b then 1 else 0) - (if a < b then 1 else 0) else if r < 0 then -1 else 1

/-- `compare(StringPieceImpl)`. -/
def compare (s other : StringPiece) : Option ℤ :=
  (if min s.len other.len = 0 then some 0
    else s.compareAt 0 other 0 (min s.len other.len)).map (compareHelper s.len other.len)

/-- A part of a view is no longer than the view. -/
theorem substr_small (s : StringPiece) (start count : ℕ) :
    ((s.ptr.map fun chars => (chars.drop start).take count).getD []).length < 2 ^ 63 := by
  have hsmall := s.small
  cases hptr : s.ptr with
  | none => simp
  | some chars =>
    rw [hptr] at hsmall
    simp only [Option.getD_some, Option.map_some, List.length_take, List.length_drop] at hsmall ⊢
    omega

/-- `substr`, if it starts within the view. -/
def substr (s : StringPiece) (pos n : UInt64) : Option StringPiece :=
  if pos ≤ s.len then
    some ⟨_, s.substr_small pos.toNat (if n < s.len - pos then n else s.len - pos).toNat⟩
  else none

/-- `starts_with(StringPieceImpl)`. -/
def startsWith (s other : StringPiece) : Option Bool := do
  if s.len ≥ other.len then return (← (← s.substr 0 other.len).compare other) = 0 else return false

/-- `ends_with(StringPieceImpl)`. -/
def endsWith (s other : StringPiece) : Option Bool := do
  if s.len ≥ other.len then
    return (← (← s.substr (s.len - other.len) npos).compare other) = 0
  else return false

/-- The sign of a difference, as `CompareHelper` computes it. -/
theorem sign_sub_eq (a b : ℕ) :
    ((a : ℤ) - b).sign = (if b < a then 1 else 0) - (if a < b then 1 else 0) := by
  obtain hlt | heq | hgt := Nat.lt_trichotomy a b
  · rw [Int.sign_eq_neg_one_of_neg (by omega), if_neg (by omega), if_pos hlt]
    rfl
  · simp [heq]
  · rw [Int.sign_eq_one_of_pos (by omega), if_pos hgt, if_neg (by omega)]
    rfl

/-- The helper prefers a difference of characters to one of lengths. -/
theorem compareHelper_memcmp (s other : StringPiece) :
    compareHelper s.len other.len (memcmp s.chars other.chars) =
      orderingSign (Ord.compare s.chars other.chars) := by
  rw [orderingSign_compare, compareHelper]
  obtain hr | hr | hr := memcmp_sign s.chars other.chars
  · simp [hr]
  · simp [hr, sign_sub_eq, UInt64.lt_iff_toNat_lt, len_toNat]
  · simp [hr]

/-- `compare` tells the lexicographic order. -/
theorem compare_eq (s other : StringPiece) :
    s.compare other = some (orderingSign (Ord.compare s.chars other.chars)) := by
  have hmin : (min s.len other.len).toNat = min s.chars.length other.chars.length := by
    rw [toNat_min, len_toNat, len_toNat]
  have hread : (if min s.len other.len = 0 then some 0
      else s.compareAt 0 other 0 (min s.len other.len)) =
      some (memcmp s.chars other.chars) := by
    rw [← memcmp_take hmin]
    split
    next hzero => simp [hzero, memcmp]
    next => simp [compareAt, range, hmin]
  rw [compare, hread, Option.map_some, compareHelper_memcmp]

/-- The length of a part. -/
theorem toNat_count (hpos : pos ≤ s.len) :
    (if n < s.len - pos then n else s.len - pos).toNat =
      min n.toNat (s.chars.length - pos.toNat) := by
  have hsub : (s.len - pos).toNat = s.chars.length - pos.toNat := by
    rw [UInt64.toNat_sub_of_le _ _ hpos, len_toNat]
  split
  next hlt =>
    rw [UInt64.lt_iff_toNat_lt, hsub] at hlt
    omega
  next hge =>
    rw [UInt64.lt_iff_toNat_lt, hsub] at hge
    omega

/-- The characters of a part of a view. -/
theorem substr_chars (hpos : pos ≤ s.len) : ∃ part, s.substr pos n = some part ∧
    part.chars = (s.chars.drop pos.toNat).take n.toNat := by
  refine ⟨_, if_pos hpos, ?_⟩
  have hptr : ∀ f : Bytes → Bytes, f [] = [] → (s.ptr.map f).getD [] = f s.chars := by
    intro f hf
    unfold chars
    cases s.ptr with
    | none => simpa using hf.symm
    | some chars => rfl
  rw [chars, hptr _ (by simp), toNat_count hpos, ← List.length_drop, ← List.take_eq_take_min]

/-- `starts_with` tells whether the other view is at the start. -/
theorem startsWith_eq (s other : StringPiece) :
    s.startsWith other = some (decide (other.chars <+: s.chars)) := by
  rw [startsWith]
  split
  next hle =>
    obtain ⟨part, hpart, hchars⟩ := @substr_chars s 0 other.len (UInt64.zero_le)
    rw [len_toNat, UInt64.toNat_zero, List.drop_zero] at hchars
    have hzero : orderingSign (Ord.compare part.chars other.chars) = 0 ↔
        other.chars <+: s.chars := by
      rw [orderingSign_eq_zero_iff, hchars, List.prefix_iff_eq_take, eq_comm]
    simp [hpart, compare_eq, hzero]
  next hgt =>
    have hnot : ¬ other.chars <+: s.chars := by
      intro hstart
      exact hgt (len_le_iff.mpr hstart.length_le)
    simp [hnot]

/-- `ends_with` tells whether the other view is at the end. -/
theorem endsWith_eq (s other : StringPiece) :
    s.endsWith other = some (decide (other.chars <:+ s.chars)) := by
  rw [endsWith]
  split
  next hle =>
    have hsub := toNat_len_sub hle
    have hpos : s.len - other.len ≤ s.len := by
      rw [UInt64.le_iff_toNat_le, hsub, len_toNat]
      omega
    have hsmall : s.chars.length < 2 ^ 63 := s.small
    obtain ⟨part, hpart, hchars⟩ := @substr_chars s (s.len - other.len) npos hpos
    rw [hsub, npos_toNat, List.take_of_length_le (by rw [List.length_drop]; omega)] at hchars
    have hzero : orderingSign (Ord.compare part.chars other.chars) = 0 ↔
        other.chars <:+ s.chars := by
      rw [orderingSign_eq_zero_iff, hchars, List.suffix_iff_eq_drop, eq_comm]
    simp [hpart, compare_eq, hzero]
  next hgt =>
    have hnot : ¬ other.chars <:+ s.chars := by
      intro hsuffix
      exact hgt (len_le_iff.mpr hsuffix.length_le)
    simp [hnot]

end StringPiece

end Demos.Oak
