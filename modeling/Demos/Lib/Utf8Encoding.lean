import Mathlib.Algebra.Order.Ring.Int
import Mathlib.Data.List.Basic

/-!
# UTF-8 encodings of numbers

The bit pattern of UTF-8 for every number that fits four bytes, also those that are no Unicode
scalar value. The first byte tells the length, so that a concatenation of encodings has one
reading.
-/

namespace Demos.Lib

/-- The UTF-8 bit pattern of a number below `2 ^ 21`. -/
def encodeValue (v : ℕ) : List UInt8 :=
  if v ≤ 0x7f then [.ofNat v]
  else if v ≤ 0x7ff then [.ofNat (v / 64 % 0x20 + 0xc0), .ofNat (v % 0x40 + 0x80)]
  else if v ≤ 0xffff then
    [.ofNat (v / 4096 % 0x10 + 0xe0), .ofNat (v / 64 % 0x40 + 0x80), .ofNat (v % 0x40 + 0x80)]
  else
    [.ofNat (v / 262144 % 0x08 + 0xf0), .ofNat (v / 4096 % 0x40 + 0x80),
      .ofNat (v / 64 % 0x40 + 0x80), .ofNat (v % 0x40 + 0x80)]

/-- The encoding of a character is that of its scalar value. -/
theorem encodeValue_toNat (c : Char) : encodeValue c.toNat = String.utf8EncodeChar c := rfl

theorem encodeValue_ne_nil (v : ℕ) : encodeValue v ≠ [] := by
  unfold encodeValue
  split_ifs <;> simp

section Bytes

/-- A byte with marking bits above the bits of a number. -/
theorem toNat_ofNat_mod_add {v m k : ℕ} (hm : 0 < m) (hbyte : m + k ≤ 256) :
    (UInt8.ofNat (v % m + k)).toNat = v % m + k := by
  have hlt := Nat.mod_lt v hm
  rw [UInt8.toNat_ofNat']
  exact Nat.mod_eq_of_lt (by omega)

variable {v : ℕ} {b₀ b₁ b₂ b₃ : UInt8}

/-- The encoding in one byte. -/
theorem encodeValue_eq_one_iff (h : v ≤ 0x7f) : encodeValue v = [b₀] ↔ b₀.toNat = v := by
  rw [encodeValue, if_pos h, List.cons.injEq, ← UInt8.toNat_inj, UInt8.toNat_ofNat']
  simp only [and_true]
  omega

/-- The encoding in two bytes. -/
theorem encodeValue_eq_two_iff (hlow : 0x7f < v) (hhigh : v ≤ 0x7ff) :
    encodeValue v = [b₀, b₁] ↔ b₀.toNat = v / 64 + 0xc0 ∧ b₁.toNat = v % 64 + 0x80 := by
  rw [encodeValue, if_neg (by omega), if_pos hhigh]
  simp (disch := decide) only [List.cons.injEq, ← UInt8.toNat_inj, toNat_ofNat_mod_add, and_true]
  rw [Nat.mod_eq_of_lt (show v / 64 < 32 by omega)]
  simp only [eq_comm]

/-- The encoding in three bytes. -/
theorem encodeValue_eq_three_iff (hlow : 0x7ff < v) (hhigh : v ≤ 0xffff) :
    encodeValue v = [b₀, b₁, b₂] ↔ b₀.toNat = v / 4096 + 0xe0 ∧
      b₁.toNat = v / 64 % 64 + 0x80 ∧ b₂.toNat = v % 64 + 0x80 := by
  rw [encodeValue, if_neg (by omega), if_neg (by omega), if_pos hhigh]
  simp (disch := decide) only [List.cons.injEq, ← UInt8.toNat_inj, toNat_ofNat_mod_add, and_true]
  rw [Nat.mod_eq_of_lt (show v / 4096 < 16 by omega)]
  simp only [eq_comm]

/-- The encoding in four bytes. -/
theorem encodeValue_eq_four_iff (hlow : 0xffff < v) (hhigh : v < 2 ^ 21) :
    encodeValue v = [b₀, b₁, b₂, b₃] ↔ b₀.toNat = v / 262144 + 0xf0 ∧
      b₁.toNat = v / 4096 % 64 + 0x80 ∧ b₂.toNat = v / 64 % 64 + 0x80 ∧
      b₃.toNat = v % 64 + 0x80 := by
  rw [encodeValue, if_neg (by omega), if_neg (by omega), if_neg (by omega)]
  simp (disch := decide) only [List.cons.injEq, ← UInt8.toNat_inj, toNat_ofNat_mod_add, and_true]
  rw [Nat.mod_eq_of_lt (show v / 262144 < 8 by omega)]
  simp only [eq_comm]

end Bytes

/-- Read a number off the front of a text. The first byte tells the length. -/
def decodeValue : List UInt8 → Option (ℕ × List UInt8)
  | b₀ :: rest =>
    if b₀.toNat < 0xc0 then some (b₀.toNat, rest)
    else
      match rest with
      | b₁ :: rest =>
        if b₀.toNat < 0xe0 then some ((b₀.toNat - 0xc0) * 64 + (b₁.toNat - 0x80), rest)
        else
          match rest with
          | b₂ :: rest =>
            if b₀.toNat < 0xf0 then
              some ((b₀.toNat - 0xe0) * 4096 + (b₁.toNat - 0x80) * 64 + (b₂.toNat - 0x80), rest)
            else
              match rest with
              | b₃ :: rest =>
                some ((b₀.toNat - 0xf0) * 262144 + (b₁.toNat - 0x80) * 4096 +
                  (b₂.toNat - 0x80) * 64 + (b₃.toNat - 0x80), rest)
              | [] => none
          | [] => none
      | [] => none
  | [] => none

/-- An encoded number is read back. -/
theorem decodeValue_encodeValue_append {v : ℕ} (hv : v < 2 ^ 21) (rest : List UInt8) :
    decodeValue (encodeValue v ++ rest) = some (v, rest) := by
  unfold encodeValue
  split_ifs
  · simp only [List.cons_append, List.nil_append, decodeValue, UInt8.toNat_ofNat']
    rw [if_pos (by omega), Nat.mod_eq_of_lt (by omega)]
  all_goals
    simp (disch := decide) only [List.cons_append, List.nil_append, decodeValue,
      toNat_ofNat_mod_add, Nat.add_sub_cancel]
  · rw [if_neg (by omega), if_pos (by omega)]
    exact congrArg (fun v => some (v, rest)) (by omega)
  · rw [if_neg (by omega), if_neg (by omega), if_pos (by omega)]
    exact congrArg (fun v => some (v, rest)) (by omega)
  · rw [if_neg (by omega), if_neg (by omega), if_neg (by omega)]
    exact congrArg (fun v => some (v, rest)) (by omega)

/-- A number is read off the front of a text in one way only. -/
theorem encodeValue_append_inj {v w : ℕ} {rest rest' : List UInt8} (hv : v < 2 ^ 21)
    (hw : w < 2 ^ 21) (h : encodeValue v ++ rest = encodeValue w ++ rest') :
    v = w ∧ rest = rest' := by
  have hread := congrArg decodeValue h
  rw [decodeValue_encodeValue_append hv, decodeValue_encodeValue_append hw] at hread
  exact Prod.mk.inj (Option.some.inj hread)

/-- A text is the concatenation of encodings in one way only. -/
theorem encodeValues_inj {vs ws : List ℕ} (hvs : ∀ v ∈ vs, v < 2 ^ 21) (hws : ∀ w ∈ ws, w < 2 ^ 21)
    (h : vs.flatMap encodeValue = ws.flatMap encodeValue) : vs = ws := by
  induction vs generalizing ws with
  | nil =>
    cases ws with
    | nil => rfl
    | cons w ws => simp [encodeValue_ne_nil] at h
  | cons v vs ih =>
    cases ws with
    | nil => simp [encodeValue_ne_nil] at h
    | cons w ws =>
      rw [List.forall_mem_cons] at hvs hws
      obtain ⟨rfl, hrest⟩ := encodeValue_append_inj hvs.1 hws.1 h
      rw [ih hvs.2 hws.2 hrest]

end Demos.Lib
