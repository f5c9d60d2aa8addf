import Mathlib.Algebra.Order.Ring.Int
import Mathlib.Order.Bounds.Basic

/-!
# Lower bounds by halving

The pointer of `LowerBound` is an index of the array it was called with. A read outside of the array
has no result, so that a call with a result has read nothing else.
-/

namespace Demos.Algorithm

/-- The loop of `LowerBound` and the read behind it. -/
def lowerBoundLoop (a : List ℤ) (val : ℤ) (ptr n : ℕ) : Option ℤ :=
  if 0 < n then do
    let half := n / 2
    let x ← a[ptr + half]?
    if x < val then lowerBoundLoop a val (ptr + (half + 1)) (n - (half + 1))
    else lowerBoundLoop a val ptr half
  else a[ptr]?
termination_by n
decreasing_by all_goals omega

/-- `LowerBound`. -/
def lowerBound (a : List ℤ) (n : ℕ) (val : ℤ) : Option ℤ := lowerBoundLoop a val 0 n

variable {a : List ℤ} {n ptr count i j : ℕ} {val x y : ℤ}

/-- The indices up to `n` that are `n` or hold a value that is not smaller. -/
def Bounds (a : List ℤ) (n : ℕ) (val : ℤ) : Set ℕ :=
  {i | i ≤ n ∧ (i = n ∨ ∃ x ∈ a[i]?, val ≤ x)}

/-- Each index before the interval holds a smaller value, and the end of the interval is a bound. -/
structure Encloses (a : List ℤ) (n : ℕ) (val : ℤ) (ptr count : ℕ) : Prop where
  before : ∀ i < ptr, ∀ x ∈ a[i]?, x < val
  last : ptr + count ∈ Bounds a n val

/-- The values at two indices of the sorted part are in order. -/
theorem le_of_getElem? (hsorted : (a.take n).Pairwise (· ≤ ·)) (hij : i ≤ j) (hj : j < n)
    (hx : a[i]? = some x) (hy : a[j]? = some y) : x ≤ y := by
  obtain rfl | hlt := Nat.eq_or_lt_of_le hij
  · exact (Option.some.inj (hx.symm.trans hy)).le
  · have hx' : (a.take n)[i]? = some x := by rw [List.getElem?_take_of_lt (by omega), hx]
    have hy' : (a.take n)[j]? = some y := by rw [List.getElem?_take_of_lt hj, hy]
    obtain ⟨hi, rfl⟩ := List.getElem?_eq_some_iff.mp hx'
    obtain ⟨hj, rfl⟩ := List.getElem?_eq_some_iff.mp hy'
    exact List.pairwise_iff_getElem.mp hsorted i j hi hj hlt

/-- A smaller value in the middle moves the start behind it. -/
theorem Encloses.above (h : Encloses a n val ptr count) (hsorted : (a.take n).Pairwise (· ≤ ·))
    (hcount : 0 < count) (hx : a[ptr + count / 2]? = some x) (hlt : x < val) :
    Encloses a n val (ptr + (count / 2 + 1)) (count - (count / 2 + 1)) := by
  have hend : ptr + (count / 2 + 1) + (count - (count / 2 + 1)) = ptr + count := by omega
  have hle : ptr + count ≤ n := h.last.1
  refine ⟨fun i hi y hy => ?_, hend ▸ h.last⟩
  exact (le_of_getElem? hsorted (by omega) (by omega) hy hx).trans_lt hlt

/-- A value in the middle that is not smaller moves the end to it. -/
theorem Encloses.below (h : Encloses a n val ptr count) (hcount : 0 < count)
    (hx : a[ptr + count / 2]? = some x) (hle : val ≤ x) :
    Encloses a n val ptr (count / 2) := by
  have hend : ptr + count ≤ n := h.last.1
  exact ⟨h.before, by omega, .inr ⟨x, hx, hle⟩⟩

/-- The start of an empty interval is the least bound. -/
theorem Encloses.isLeast (h : Encloses a n val ptr 0) : IsLeast (Bounds a n val) ptr := by
  refine ⟨h.last, fun i hi => ?_⟩
  by_contra hlt
  obtain ⟨hle, rfl | ⟨x, hx, hval⟩⟩ := hi
  · have hptr : ptr ≤ i := h.last.1
    omega
  · exact absurd (h.before i (by omega) x hx) (not_lt.mpr hval)

/-- The loop ends at the least bound. -/
theorem lowerBoundLoop_spec (hlength : a.length = n + 1) (hsorted : (a.take n).Pairwise (· ≤ ·))
    (h : Encloses a n val ptr count) :
    ∃ i, IsLeast (Bounds a n val) i ∧ lowerBoundLoop a val ptr count = a[i]? := by
  induction count using Nat.strong_induction_on generalizing ptr with
  | _ count ih =>
    rw [lowerBoundLoop]
    obtain rfl | hcount := Nat.eq_zero_or_pos count
    · exact ⟨ptr, h.isLeast, if_neg (lt_irrefl 0)⟩
    · have hend : ptr + count ≤ n := h.last.1
      have hread : ptr + count / 2 < a.length := by omega
      obtain ⟨x, hx⟩ : ∃ x, a[ptr + count / 2]? = some x := ⟨_, List.getElem?_eq_getElem hread⟩
      rw [if_pos hcount]
      simp only [hx, Option.bind_eq_bind, Option.bind_some]
      by_cases hlt : x < val
      · obtain ⟨i, hi, hloop⟩ := ih _ (by omega) (h.above hsorted hcount hx hlt)
        exact ⟨i, hi, (if_pos hlt).trans hloop⟩
      · obtain ⟨i, hi, hloop⟩ := ih _ (by omega) (h.below hcount hx (not_lt.mp hlt))
        exact ⟨i, hi, (if_neg hlt).trans hloop⟩

/-- For `n + 1` integers of which the first `n` are sorted, `LowerBound` reads no other one and
returns the one at the least index that is `n` or holds a value that is not smaller. -/
theorem lowerBound_spec (a : List ℤ) (n : ℕ) (val : ℤ) (hlength : a.length = n + 1)
    (hsorted : (a.take n).Pairwise (· ≤ ·)) :
    ∃ i x, IsLeast (Bounds a n val) i ∧ a[i]? = some x ∧ lowerBound a n val = some x := by
  have hstart : Encloses a n val 0 n :=
    ⟨fun i hi => absurd hi (Nat.not_lt_zero i), (Nat.zero_add n).le, .inl (Nat.zero_add n)⟩
  obtain ⟨i, hi, hloop⟩ := lowerBoundLoop_spec hlength hsorted hstart
  have hread : i < a.length := by
    have hle : i ≤ n := hi.1.1
    omega
  exact ⟨i, a[i], hi, List.getElem?_eq_getElem hread,
    hloop.trans (List.getElem?_eq_getElem hread)⟩

/-- A value between two elements, in an array with another element behind the sorted ones. -/
theorem lowerBound_spec_between :
    ∃ i x, IsLeast (Bounds [1, 4, 6, 0] 3 5) i ∧ [1, 4, 6, 0][i]? = some x ∧
      lowerBound [1, 4, 6, 0] 3 5 = some x :=
  lowerBound_spec [1, 4, 6, 0] 3 5 rfl (by decide)

end Demos.Algorithm
