import Mathlib.Algebra.Order.Ring.Int
import Mathlib.Data.Nat.Bitwise

/-!
# Bits in a string of bytes

A string of bytes holds a set of numbers: number `q` belongs to it if bit `q % 8` of byte `q / 8` is
set. Storing a number changes no other one, a number that is stored already changes nothing, and two
strings of one length that hold the same numbers are equal.
-/

namespace Demos.Lib

/-- The byte whose only set bit is the one of number `q`. -/
def bitMask (q : ℕ) : UInt8 := 1 <<< (q % 8).toUInt8

/-- Number `q` is stored. -/
def bitAt (bytes : List UInt8) (q : ℕ) : Bool :=
  bytes[q / 8]?.any fun byte => byte.toNat.testBit (q % 8)

/-- Store number `q`. -/
def setBitAt (bytes : List UInt8) (q : ℕ) : List UInt8 :=
  bytes.modify (q / 8) (· ||| bitMask q)

variable {bytes bytes' : List UInt8} {byte : UInt8} {q q' : ℕ}

@[simp]
theorem toNat_bitMask (q : ℕ) : (bitMask q).toNat = 2 ^ (q % 8) := by
  have hbit : q % 8 < 8 := Nat.mod_lt q (by decide)
  have hpow : 2 ^ (q % 8) < 2 ^ 8 := Nat.pow_lt_pow_right (by decide) hbit
  have hsize : (q % 8).toUInt8.toNat = q % 8 := by
    rw [Nat.toUInt8, UInt8.toNat_ofNat_of_lt' (lt_trans hbit (by decide))]
  rw [bitMask, UInt8.toNat_shiftLeft, hsize, Nat.mod_mod, UInt8.toNat_one, Nat.one_shiftLeft,
    Nat.mod_eq_of_lt hpow]

/-- The mask meets a byte exactly in the bit it stands for. -/
theorem and_bitMask_eq_zero_iff : byte &&& bitMask q = 0 ↔ byte.toNat.testBit (q % 8) = false := by
  rw [← UInt8.toNat_inj, UInt8.toNat_and, toNat_bitMask, Nat.and_two_pow, UInt8.toNat_zero]
  cases byte.toNat.testBit (q % 8) <;> simp

/-- A bit that is set already changes nothing. -/
theorem or_bitMask_eq_self (h : byte.toNat.testBit (q % 8) = true) : byte ||| bitMask q = byte := by
  rw [← UInt8.toNat_inj, UInt8.toNat_or, toNat_bitMask]
  apply Nat.eq_of_testBit_eq
  intro i
  rw [Nat.testBit_or, Nat.testBit_two_pow]
  by_cases hi : q % 8 = i
  · rw [← hi, h, Bool.true_or]
  · simp [hi]

/-- The byte that holds a number is there. -/
theorem getElem?_of_bitAt (h : bitAt bytes q = true) :
    ∃ byte, bytes[q / 8]? = some byte ∧ byte.toNat.testBit (q % 8) = true := by
  unfold bitAt at h
  cases hbyte : bytes[q / 8]? with
  | none => simp [hbyte] at h
  | some byte => exact ⟨byte, rfl, by simpa [hbyte] using h⟩

@[simp]
theorem length_setBitAt (bytes : List UInt8) (q : ℕ) :
    (setBitAt bytes q).length = bytes.length := by
  simp [setBitAt]

/-- A number is stored afterwards if it is the new one or was there before. -/
theorem bitAt_setBitAt (h : q < 8 * bytes.length) :
    bitAt (setBitAt bytes q) q' = true ↔ q' = q ∨ bitAt bytes q' = true := by
  unfold bitAt setBitAt
  rw [List.getElem?_modify]
  have hbyte : q / 8 < bytes.length := by omega
  by_cases hindex : q / 8 = q' / 8
  · -- the new number shares its byte with `q'`
    have heq : q' = q ↔ q % 8 = q' % 8 := by omega
    have hget : bytes[q' / 8]? = some (bytes[q / 8]) := by
      rw [← hindex]
      exact List.getElem?_eq_getElem hbyte
    simp [hget, hindex, heq, Nat.testBit_or, Nat.testBit_two_pow, or_comm]
  · have hne : q' ≠ q := fun heq => hindex (by rw [heq])
    simp [hindex, hne]

/-- Storing a number again changes nothing. -/
theorem setBitAt_eq_self (h : bitAt bytes q = true) : setBitAt bytes q = bytes := by
  obtain ⟨byte, hbyte, hbit⟩ := getElem?_of_bitAt h
  apply List.ext_getElem?
  intro i
  rw [setBitAt, List.getElem?_modify]
  by_cases hi : q / 8 = i
  · rw [← hi, hbyte]
    simp [or_bitMask_eq_self hbit]
  · simp [hi]

/-- A byte is determined by its bits. -/
theorem byte_ext {a b : UInt8} (h : ∀ i < 8, a.toNat.testBit i = b.toNat.testBit i) : a = b := by
  rw [← UInt8.toNat_inj]
  apply Nat.eq_of_testBit_eq
  intro i
  by_cases hi : i < 8
  · exact h i hi
  · have hbig : 2 ^ 8 ≤ 2 ^ i := Nat.pow_le_pow_right (by decide) (by omega)
    rw [Nat.testBit_lt_two_pow (lt_of_lt_of_le a.toNat_lt hbig),
      Nat.testBit_lt_two_pow (lt_of_lt_of_le b.toNat_lt hbig)]

/-- A string of bytes is determined by its length and the numbers it holds. -/
theorem bytes_ext (hlength : bytes.length = bytes'.length)
    (h : ∀ q, bitAt bytes q = true ↔ bitAt bytes' q = true) : bytes = bytes' := by
  apply List.ext_getElem hlength
  intro i hi hi'
  apply byte_ext
  intro j hj
  have hdiv : (8 * i + j) / 8 = i := by omega
  have hmod : (8 * i + j) % 8 = j := by omega
  have hbit := h (8 * i + j)
  simp only [bitAt, hdiv, hmod, List.getElem?_eq_getElem hi, List.getElem?_eq_getElem hi',
    Option.any_some] at hbit
  exact Bool.eq_iff_iff.mpr hbit

theorem bitAt_replicate_zero (n q : ℕ) : bitAt (List.replicate n 0) q = false := by
  unfold bitAt
  rw [List.getElem?_replicate]
  by_cases hn : q / 8 < n <;> simp [hn]

@[simp]
theorem length_foldl_setBitAt (qs : List ℕ) (bytes : List UInt8) :
    (qs.foldl setBitAt bytes).length = bytes.length := by
  induction qs generalizing bytes with
  | nil => rfl
  | cons q qs ih => rw [List.foldl_cons, ih, length_setBitAt]

/-- What a string holds once several numbers are stored. -/
theorem bitAt_foldl_setBitAt {qs : List ℕ} (h : ∀ q ∈ qs, q < 8 * bytes.length) :
    bitAt (qs.foldl setBitAt bytes) q' = true ↔ q' ∈ qs ∨ bitAt bytes q' = true := by
  induction qs generalizing bytes with
  | nil => simp
  | cons q qs ih =>
    obtain ⟨hq, hqs⟩ := List.forall_mem_cons.mp h
    rw [List.foldl_cons, ih (by simpa using hqs), bitAt_setBitAt hq, List.mem_cons]
    tauto

end Demos.Lib
