import Mathlib.Data.Int.Basic
import Mathlib.Tactic.Common
import Std.Data.ExtTreeMap

/-!
# Comparisons that return a number

A comparison in the manner of C tells by the sign of its result how two values are ordered. One
whose sign is that of a lawful order on keys is antisymmetric and transitive, and zero exactly for
equal keys.
-/

namespace Demos.Lib

/-- The sign that stands for an order relation. -/
def orderingSign : Ordering → ℤ
  | .lt => -1
  | .eq => 0
  | .gt => 1

variable {α κ : Type*} [Ord κ]

/-- The comparison orders values by their keys. -/
structure IsThreeWay (cmp : α → α → ℤ) (key : α → κ) : Prop where
  sign_eq : ∀ a b, (cmp a b).sign = orderingSign (compare (key a) (key b))
  antisymm : ∀ a b, (cmp b a).sign = -(cmp a b).sign
  trans_lt : ∀ a b c, cmp a b < 0 → cmp b c < 0 → cmp a c < 0
  trans_le : ∀ a b c, cmp a b ≤ 0 → cmp b c ≤ 0 → cmp a c ≤ 0
  eq_zero_iff : ∀ a b, cmp a b = 0 ↔ key a = key b

theorem orderingSign_swap (o : Ordering) : orderingSign o.swap = -orderingSign o := by
  cases o <;> rfl

variable {cmp : α → α → ℤ} {key : α → κ}

/-- A comparison whose sign is that of a lawful order has the properties of an order. -/
theorem IsThreeWay.of_sign [Std.TransOrd κ] [Std.LawfulEqOrd κ]
    (hsign : ∀ a b, (cmp a b).sign = orderingSign (compare (key a) (key b))) :
    IsThreeWay cmp key := by
  have hlt : ∀ a b, cmp a b < 0 ↔ compare (key a) (key b) = .lt := by
    intro a b
    rw [← Int.sign_eq_neg_one_iff_neg, hsign]
    cases compare (key a) (key b) <;> decide
  have hle : ∀ a b, cmp a b ≤ 0 ↔ (compare (key a) (key b)).isLE := by
    intro a b
    rw [← Int.not_lt, ← Int.sign_eq_one_iff_pos, hsign]
    cases compare (key a) (key b) <;> decide
  constructor
  · exact hsign
  · intro a b
    rw [hsign, hsign, Std.OrientedOrd.eq_swap, orderingSign_swap]
  · intro a b c hab hbc
    rw [hlt] at hab hbc ⊢
    exact Std.TransCmp.lt_trans hab hbc
  · intro a b c hab hbc
    rw [hle] at hab hbc ⊢
    exact Std.TransCmp.isLE_trans hab hbc
  · intro a b
    have hkey : compare (key a) (key b) = .eq ↔ key a = key b :=
      Std.LawfulEqCmp.compare_eq_iff_eq
    rw [← Int.sign_eq_zero_iff_zero, hsign, ← hkey]
    cases compare (key a) (key b) <;> decide

end Demos.Lib
