import Mathlib.Algebra.Order.Ring.Int
import Mathlib.Logic.Equiv.Defs

/-!
# Zigzag integers

The macro `OAK_ZIGZAG_FN` is expanded at four widths. An operand of less than 32 bits is promoted to
`int` first: a signed one is extended by its sign and an unsigned one by zeros, and the result is
cut off at the width of the return type. At 32 and 64 bits nothing is promoted.
-/

namespace Demos.Oak

/-- The width at which the operators work on operands of width `w`. -/
def promotedWidth (w : ℕ) : ℕ := max w 32

/-- `value >> 1` of an unsigned operand, which is an `int` if it was promoted. -/
def shiftRightOne (w : ℕ) (value : BitVec (promotedWidth w)) : BitVec (promotedWidth w) :=
  if w < 32 then value.sshiftRight 1 else value >>> 1

/-- `ZigZagEnode`: `(value << 1) ^ (value >> (bit - 1))`. -/
def zigZagEnode {w : ℕ} (value : BitVec w) : BitVec w :=
  let value := value.signExtend (promotedWidth w)
  ((value <<< 1) ^^^ value.sshiftRight (w - 1)).setWidth w

/-- `ZigZagDecode`: `(value >> 1) ^ -static_cast<OAK_INT(bit)>(value & 1)`. -/
def zigZagDecode {w : ℕ} (value : BitVec w) : BitVec w :=
  let value := value.setWidth (promotedWidth w)
  let low : BitVec w := (value &&& 1).setWidth w
  (shiftRightOne w value ^^^ -(low.signExtend (promotedWidth w))).setWidth w

/-- `ZigZagEnode8`. -/
def zigZagEnode8 (value : Int8) : UInt8 := .ofBitVec (zigZagEnode value.toBitVec)

/-- `ZigZagDecode8`. -/
def zigZagDecode8 (value : UInt8) : Int8 := .ofBitVec (zigZagDecode value.toBitVec)

/-- `ZigZagEnode16`. -/
def zigZagEnode16 (value : Int16) : UInt16 := .ofBitVec (zigZagEnode value.toBitVec)

/-- `ZigZagDecode16`. -/
def zigZagDecode16 (value : UInt16) : Int16 := .ofBitVec (zigZagDecode value.toBitVec)

/-- `ZigZagEnode32`. -/
def zigZagEnode32 (value : Int32) : UInt32 := .ofBitVec (zigZagEnode value.toBitVec)

/-- `ZigZagDecode32`. -/
def zigZagDecode32 (value : UInt32) : Int32 := .ofBitVec (zigZagDecode value.toBitVec)

/-- `ZigZagEnode64`. -/
def zigZagEnode64 (value : Int64) : UInt64 := .ofBitVec (zigZagEnode value.toBitVec)

/-- `ZigZagDecode64`. -/
def zigZagDecode64 (value : UInt64) : Int64 := .ofBitVec (zigZagDecode value.toBitVec)

/-- The functions code integers in the order `0, -1, 1, -2, 2, …` and decode them again. -/
structure IsZigZag {S U : Type} (toInt : S → ℤ) (toNat : U → ℕ) (encode : S → U)
    (decode : U → S) : Prop where
  value (v : S) : (toNat (encode v) : ℤ) =
    if 0 ≤ toInt v then 2 * toInt v else -2 * toInt v - 1
  bijective : Function.Bijective encode
  decode_encode (v : S) : decode (encode v) = v
  encode_decode (u : U) : encode (decode u) = u

variable {w : ℕ}

section Bits

/-- The promoted value shifted by all bits but one is its sign at every bit. -/
theorem getLsbD_signExtend_sshiftRight {p i : ℕ} (value : BitVec w) (hp : w ≤ p) (hi : i < w) :
    ((value.signExtend p).sshiftRight (w - 1)).getLsbD i = value.msb := by
  have hmsb : value.getLsbD (w - 1) = value.msb := (BitVec.msb_eq_getLsbD_last value).symm
  have hbit : ∀ j, w - 1 ≤ j → j < p → (value.signExtend p).getLsbD j = value.msb := by
    intro j hle hlt
    rw [BitVec.getLsbD_signExtend, decide_eq_true hlt, Bool.true_and]
    split
    · rw [show j = w - 1 by omega, hmsb]
    · rfl
  have hsign : (value.signExtend p).msb = value.msb := by
    rw [BitVec.msb_eq_getLsbD_last]
    exact hbit (p - 1) (by omega) (by omega)
  rw [BitVec.getLsbD_sshiftRight, decide_eq_false (by omega), Bool.not_false, Bool.true_and, hsign]
  split
  · exact hbit _ (by omega) (by assumption)
  · rfl

/-- Encoding shifts the value to the left and inverts all bits of a negative one. -/
theorem zigZagEnode_eq (value : BitVec w) :
    zigZagEnode value = if value.msb then ~~~(value <<< 1) else value <<< 1 := by
  have hp : w ≤ promotedWidth w := le_max_left w 32
  apply BitVec.eq_of_getLsbD_eq
  intro i hi
  have hwide : i < promotedWidth w := by omega
  have hbelow : i - 1 < w := by omega
  have hbelow' : i - 1 < promotedWidth w := by omega
  simp only [zigZagEnode, BitVec.getLsbD_setWidth, BitVec.getLsbD_xor,
    getLsbD_signExtend_sshiftRight value hp hi, BitVec.getLsbD_shiftLeft,
    BitVec.getLsbD_signExtend]
  cases value.msb <;> simp [hi, hwide, hbelow, hbelow']

/-- The lowest bit of the promoted value as an integer of width `w`. -/
theorem setWidth_and_one {p : ℕ} (value : BitVec w) (hw : 1 < w) (hp : w ≤ p) :
    ((value.setWidth p &&& 1).setWidth w : BitVec w) = if value.getLsbD 0 then 1#w else 0#w := by
  rw [show (1 : BitVec p) = 1#p from rfl, BitVec.and_one_eq_setWidth_ofBool_getLsbD,
    BitVec.setWidth_setWidth_of_le _ hp, BitVec.getLsbD_setWidth, decide_eq_true (by omega),
    Bool.true_and]
  cases value.getLsbD 0 with
  | false => simp
  | true =>
    apply BitVec.eq_of_toNat_eq
    simp

/-- The negated bit is a mask of ones or of zeros. -/
theorem neg_signExtend_bit {p : ℕ} (bit : Bool) (hw : 1 < w) (hp : 0 < p) :
    -((if bit then 1#w else 0#w).signExtend p) = if bit then BitVec.allOnes p else 0#p := by
  cases bit with
  | false =>
    have hmsb : (0#w).msb = false := BitVec.msb_zero
    simp [BitVec.signExtend_eq_setWidth_of_msb_false hmsb]
  | true =>
    have hmsb : (1#w).msb = false := by
      rw [BitVec.msb_eq_getLsbD_last, BitVec.getLsbD_one]
      simp [show w - 1 ≠ 0 by omega]
    have hone : (1#w).setWidth p = 1#p := by
      apply BitVec.eq_of_getLsbD_eq
      intro i hi
      rw [BitVec.getLsbD_setWidth, BitVec.getLsbD_one, BitVec.getLsbD_one]
      simp [hi, hp, show 0 < w by omega]
    rw [if_pos rfl, if_pos rfl, BitVec.signExtend_eq_setWidth_of_msb_false hmsb, hone,
      BitVec.neg_one_eq_allOnes]

/-- The promoted value is not negative, so that both shifts to the right agree. -/
theorem shiftRightOne_setWidth (value : BitVec w) :
    shiftRightOne w (value.setWidth (promotedWidth w)) =
      value.setWidth (promotedWidth w) >>> 1 := by
  unfold shiftRightOne
  split
  next hsmall =>
    apply BitVec.sshiftRight_eq_of_msb_false
    rw [BitVec.msb_setWidth, BitVec.getLsbD_of_ge value _ (by unfold promotedWidth; omega),
      Bool.and_false]
  next => rfl

/-- Decoding shifts the value to the right and inverts all bits of an odd one. -/
theorem zigZagDecode_eq (value : BitVec w) (hw : 1 < w) :
    zigZagDecode value = if value.getLsbD 0 then ~~~(value >>> 1) else value >>> 1 := by
  have hp : w ≤ promotedWidth w := le_max_left w 32
  apply BitVec.eq_of_getLsbD_eq
  intro i hi
  have hwide : i < promotedWidth w := by omega
  have hpos : 0 < promotedWidth w := by omega
  have hnext : (decide (1 + i < promotedWidth w) && value.getLsbD (1 + i)) =
      value.getLsbD (1 + i) := by
    rw [Bool.and_eq_right_iff_imp, decide_eq_true_eq]
    exact fun hbit => (BitVec.lt_of_getLsbD hbit).trans_le hp
  simp only [zigZagDecode, setWidth_and_one value hw hp, neg_signExtend_bit _ hw hpos,
    shiftRightOne_setWidth, BitVec.getLsbD_setWidth, BitVec.getLsbD_xor,
    BitVec.getLsbD_ushiftRight, hnext]
  cases value.getLsbD 0 <;> simp [hi, hwide]

end Bits

section Integers

/-- A nonnegative value is doubled, and a negative one counts the odd numbers. -/
theorem toNat_zigZagEnode (value : BitVec w) (hw : 0 < w) : ((zigZagEnode value).toNat : ℤ) =
    if 0 ≤ value.toInt then 2 * value.toInt else -2 * value.toInt - 1 := by
  have hlt := value.isLt
  have hpow : 2 ^ w = 2 * 2 ^ (w - 1) := by
    rw [← Nat.pow_succ', Nat.succ_eq_add_one, Nat.sub_add_cancel hw]
  have hmsb := BitVec.msb_eq_decide value
  rw [zigZagEnode_eq, BitVec.toInt_eq_msb_cond]
  cases hsign : value.msb with
  | false =>
    have hsmall := BitVec.toNat_lt_of_msb_false hsign
    have hshift : (value <<< 1).toNat = 2 * value.toNat := by
      rw [BitVec.toNat_shiftLeft, Nat.shiftLeft_eq, Nat.mod_eq_of_lt] <;> omega
    simp only [Bool.false_eq_true, if_false]
    rw [hshift]
    omega
  | true =>
    have hlarge := BitVec.toNat_ge_of_msb_true hsign
    have hshift : (value <<< 1).toNat = 2 * value.toNat - 2 ^ w := by
      rw [BitVec.toNat_shiftLeft, Nat.shiftLeft_eq, Nat.mod_eq_sub_mod (by omega),
        Nat.mod_eq_of_lt] <;> omega
    simp only [if_true]
    rw [BitVec.toNat_not, hshift]
    omega

/-- An even value is halved, and an odd one counts down from minus one. -/
theorem toInt_zigZagDecode (value : BitVec w) (hw : 1 < w) : (zigZagDecode value).toInt =
    if value.toNat % 2 = 0 then (value.toNat / 2 : ℤ) else -(value.toNat / 2 : ℤ) - 1 := by
  have hlt := value.isLt
  have hshift : (value >>> 1).toNat = value.toNat / 2 := by
    rw [BitVec.toNat_ushiftRight, Nat.shiftRight_eq_div_pow]
  have hbit : value.getLsbD 0 = decide (value.toNat % 2 = 1) := by
    rw [← BitVec.testBit_toNat, Nat.testBit_zero]
  rw [zigZagDecode_eq value hw, hbit, BitVec.toInt_eq_toNat_cond]
  by_cases hodd : value.toNat % 2 = 1
  · rw [decide_eq_true hodd]
    simp only [if_true, BitVec.toNat_not, hshift]
    rw [if_neg (by omega), if_neg (by omega)]
    omega
  · rw [decide_eq_false hodd]
    simp only [Bool.false_eq_true, if_false, hshift]
    rw [if_pos (by omega), if_pos (by omega)]
    omega

/-- Decoding what was encoded. -/
theorem zigZagDecode_zigZagEnode (value : BitVec w) (hw : 1 < w) :
    zigZagDecode (zigZagEnode value) = value := by
  apply BitVec.eq_of_toInt_eq
  have hencode := toNat_zigZagEnode value (by omega)
  rw [toInt_zigZagDecode _ hw]
  split at hencode <;> split <;> omega

/-- Encoding what was decoded. -/
theorem zigZagEnode_zigZagDecode (value : BitVec w) (hw : 1 < w) :
    zigZagEnode (zigZagDecode value) = value := by
  apply BitVec.eq_of_toNat_eq
  have hdecode := toInt_zigZagDecode value hw
  have hencode := toNat_zigZagEnode (zigZagDecode value) (by omega)
  rw [hdecode] at hencode
  split at hencode <;> split at hencode <;> omega

/-- The functions at one width, where the types are bit vectors that are read in two ways. -/
theorem isZigZag (w : ℕ) (hw : 1 < w) :
    IsZigZag (@BitVec.toInt w) BitVec.toNat zigZagEnode zigZagDecode where
  value v := toNat_zigZagEnode v (by omega)
  bijective := Function.bijective_iff_has_inverse.mpr
    ⟨zigZagDecode, fun v => zigZagDecode_zigZagEnode v hw, fun u => zigZagEnode_zigZagDecode u hw⟩
  decode_encode v := zigZagDecode_zigZagEnode v hw
  encode_decode u := zigZagEnode_zigZagDecode u hw

end Integers

/-- Types that are bit vectors under another name. -/
theorem IsZigZag.comp {S U S' U' : Type} {toInt : S → ℤ} {toNat : U → ℕ} {encode : S → U}
    {decode : U → S} (h : IsZigZag toInt toNat encode decode) (s : S' ≃ S) (u : U' ≃ U) :
    IsZigZag (toInt ∘ s) (toNat ∘ u) (u.symm ∘ encode ∘ s) (s.symm ∘ decode ∘ u) where
  value v := by simpa using h.value (s v)
  bijective := u.symm.bijective.comp (h.bijective.comp s.bijective)
  decode_encode v := by simp [h.decode_encode]
  encode_decode v := by simp [h.encode_decode]

/-- At all four widths `ZigZagEnode` sends a signed integer to twice its value, or to an odd number
if it is negative, and `ZigZagDecode` is its inverse. -/
theorem zigZag_all_widths :
    IsZigZag Int8.toInt UInt8.toNat zigZagEnode8 zigZagDecode8 ∧
      IsZigZag Int16.toInt UInt16.toNat zigZagEnode16 zigZagDecode16 ∧
      IsZigZag Int32.toInt UInt32.toNat zigZagEnode32 zigZagDecode32 ∧
      IsZigZag Int64.toInt UInt64.toNat zigZagEnode64 zigZagDecode64 := by
  refine ⟨?_, ?_, ?_, ?_⟩
  · exact (isZigZag 8 (by decide)).comp ⟨Int8.toBitVec, .ofBitVec, fun _ => rfl, fun _ => rfl⟩
      ⟨UInt8.toBitVec, .ofBitVec, fun _ => rfl, fun _ => rfl⟩
  · exact (isZigZag 16 (by decide)).comp ⟨Int16.toBitVec, .ofBitVec, fun _ => rfl, fun _ => rfl⟩
      ⟨UInt16.toBitVec, .ofBitVec, fun _ => rfl, fun _ => rfl⟩
  · exact (isZigZag 32 (by decide)).comp ⟨Int32.toBitVec, .ofBitVec, fun _ => rfl, fun _ => rfl⟩
      ⟨UInt32.toBitVec, .ofBitVec, fun _ => rfl, fun _ => rfl⟩
  · exact (isZigZag 64 (by decide)).comp ⟨Int64.toBitVec, .ofBitVec, fun _ => rfl, fun _ => rfl⟩
      ⟨UInt64.toBitVec, .ofBitVec, fun _ => rfl, fun _ => rfl⟩

end Demos.Oak
