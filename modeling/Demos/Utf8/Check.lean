import Demos.Lib.Byte
import Demos.Lib.Utf8Encoding

/-!
# The UTF-8 check

`UTF8_Check` of `utf8.cc` on the bytes it is given. A read behind the last of them has no result,
so that a call with a result has read none. The check accepts exactly the concatenations of
encodings of scalar values and of the numbers from `0x110000` to `0x11FFFF`: the range of the
second byte after `0xF4` ends at `0x9F` where the last scalar value ends it at `0x8F`.
-/

namespace Demos.Utf8

open Demos.Lib

/-- `s[i] >= low && s[i] <= high`. -/
def inRange (s : List UInt8) (i : ℕ) (low high : UInt8) : Option Bool :=
  s[i]?.map fun b => low ≤ b && b ≤ high

/-- `first && second`, where the second operand is evaluated after a true first one only. -/
def both (first second : Option Bool) : Option Bool :=
  first.bind fun b => if b then second else some false

/-- `UTF8_1bytes`. -/
def utf8Bytes1 (s : List UInt8) : Option Bool := s[0]?.map fun b => b ≤ 0x7F

/-- `UTF8_2bytes`. -/
def utf8Bytes2 (s : List UInt8) : Option Bool :=
  both (inRange s 0 0xC2 0xDF) (inRange s 1 0x80 0xBF)

/-- `UTF8_3bytes`. -/
def utf8Bytes3 (s : List UInt8) : Option Bool :=
  s[0]?.bind fun first =>
    if first = 0xE0 then both (inRange s 1 0xA0 0xBF) (inRange s 2 0x80 0xBF)
    else if 0xE1 ≤ first ∧ first ≤ 0xEC then both (inRange s 1 0x80 0xBF) (inRange s 2 0x80 0xBF)
    else if first = 0xED then both (inRange s 1 0x80 0x9F) (inRange s 2 0x80 0xBF)
    else if first = 0xEE ∨ first = 0xEF then both (inRange s 1 0x80 0xBF) (inRange s 2 0x80 0xBF)
    else some false

/-- `UTF8_4bytes`. -/
def utf8Bytes4 (s : List UInt8) : Option Bool :=
  s[0]?.bind fun first =>
    if first = 0xF0 then
      both (both (inRange s 1 0x90 0xBF) (inRange s 2 0x80 0xBF)) (inRange s 3 0x80 0xBF)
    else if 0xF1 ≤ first ∧ first ≤ 0xF3 then
      both (both (inRange s 1 0x80 0xBF) (inRange s 2 0x80 0xBF)) (inRange s 3 0x80 0xBF)
    else if first = 0xF4 then
      both (both (inRange s 1 0x80 0x9F) (inRange s 2 0x80 0xBF)) (inRange s 3 0x80 0xBF)
    else some false

/-- `UTF8_CheckImpl`, with the bytes that are left for `s` and `n`. -/
def utf8CheckImpl (s : List UInt8) : Option Bool :=
  match s with
  | [] => some true
  | first :: rest =>
    if first &&& 0xF0 = 0xF0 then
      if rest.length + 1 < 4 then some false
      else both (utf8Bytes4 (first :: rest)) (utf8CheckImpl (rest.drop 3))
    else if first &&& 0xE0 = 0xE0 then
      if rest.length + 1 < 3 then some false
      else both (utf8Bytes3 (first :: rest)) (utf8CheckImpl (rest.drop 2))
    else if first &&& 0xC0 = 0xC0 then
      if rest.length + 1 < 2 then some false
      else both (utf8Bytes2 (first :: rest)) (utf8CheckImpl (rest.drop 1))
    else both (utf8Bytes1 (first :: rest)) (utf8CheckImpl rest)
termination_by s.length
decreasing_by all_goals simp only [List.length_drop, List.length_cons]; omega

/-- `UTF8_Check`. -/
def utf8Check (s : List UInt8) : Option Bool := utf8CheckImpl s

/-- The bytes are the UTF-8 encoding of a sequence of Unicode scalar values. -/
def IsUtf8 (s : List UInt8) : Prop := ∃ cs : List Char, s = cs.flatMap String.utf8EncodeChar

/-- A number that the check takes for a scalar value. -/
def Accepted (v : ℕ) : Prop := v < 0xD800 ∨ 0xE000 ≤ v ∧ v ≤ 0x11FFFF

/-- The bytes do not encode a sequence in which a number behind the last scalar value is taken for
one. -/
def NoneBeyond (s : List UInt8) : Prop :=
  ∀ vs : List ℕ, (∀ v ∈ vs, Accepted v) → s = vs.flatMap encodeValue → ∀ v ∈ vs, v ≤ 0x10FFFF

variable {s rest : List UInt8} {b₀ b₁ b₂ b₃ : UInt8}

/-- A conjunction is true if both parts are. -/
theorem both_eq_some_true_iff {first second : Option Bool} :
    both first second = some true ↔ first = some true ∧ second = some true := by
  cases first with
  | none => simp [both]
  | some b => cases b <;> simp [both]

/-- A conjunction after a true part. -/
theorem both_of_true {first second : Option Bool} (h : first = some true) :
    both first second = second := by
  rw [h]
  rfl

/-- A conjunction has a value if both parts have. -/
theorem both_isSome {first second : Option Bool} (hfirst : first.isSome) (hsecond : second.isSome) :
    (both first second).isSome := by
  cases first with
  | none => cases hfirst
  | some b => cases b <;> simp [both, hsecond]

theorem inRange_eq_some_true_iff {i : ℕ} {low high b : UInt8} (hb : s[i]? = some b) :
    inRange s i low high = some true ↔ low.toNat ≤ b.toNat ∧ b.toNat ≤ high.toNat := by
  simp [inRange, hb, UInt8.le_iff_toNat_le]

/-- The masks of the check compare the first byte. -/
theorem mask_iff (b : UInt8) :
    (b &&& 0xF0 = 0xF0 ↔ 0xF0 ≤ b.toNat) ∧ (b &&& 0xE0 = 0xE0 ↔ 0xE0 ≤ b.toNat) ∧
      (b &&& 0xC0 = 0xC0 ↔ 0xC0 ≤ b.toNat) :=
  forall_byte (P := fun b => (b &&& 0xF0 = 0xF0 ↔ 0xF0 ≤ b.toNat) ∧
    (b &&& 0xE0 = 0xE0 ↔ 0xE0 ≤ b.toNat) ∧ (b &&& 0xC0 = 0xC0 ↔ 0xC0 ≤ b.toNat))
    (by decide +kernel) b

/-- A single byte is the encoding of a number below `0x80`. -/
theorem utf8Bytes1_iff : utf8Bytes1 (b₀ :: rest) = some true ↔
    ∃ v ≤ 0x7f, encodeValue v = [b₀] := by
  have hrange : utf8Bytes1 (b₀ :: rest) = some true ↔ b₀.toNat ≤ 0x7F := by
    simp [utf8Bytes1, UInt8.le_iff_toNat_le]
  rw [hrange]
  constructor
  · intro h
    exact ⟨b₀.toNat, h, (encodeValue_eq_one_iff h).mpr rfl⟩
  · rintro ⟨v, hv, hbytes⟩
    exact (encodeValue_eq_one_iff hv).mp hbytes ▸ hv

/-- Two bytes are the encoding of a number below `0x800`. -/
theorem utf8Bytes2_iff : utf8Bytes2 (b₀ :: b₁ :: rest) = some true ↔
    ∃ v, 0x7f < v ∧ v ≤ 0x7ff ∧ encodeValue v = [b₀, b₁] := by
  have hrange : utf8Bytes2 (b₀ :: b₁ :: rest) = some true ↔
      (0xC2 ≤ b₀.toNat ∧ b₀.toNat ≤ 0xDF) ∧ 0x80 ≤ b₁.toNat ∧ b₁.toNat ≤ 0xBF := by
    rw [utf8Bytes2, both_eq_some_true_iff, inRange_eq_some_true_iff rfl,
      inRange_eq_some_true_iff rfl]
    rfl
  rw [hrange]
  constructor
  · intro h
    have hlow : 0x7f < (b₀.toNat - 0xC0) * 64 + (b₁.toNat - 0x80) := by omega
    have hhigh : (b₀.toNat - 0xC0) * 64 + (b₁.toNat - 0x80) ≤ 0x7ff := by omega
    exact ⟨_, hlow, hhigh, (encodeValue_eq_two_iff hlow hhigh).mpr (by omega)⟩
  · rintro ⟨v, hlow, hhigh, hbytes⟩
    have := (encodeValue_eq_two_iff hlow hhigh).mp hbytes
    omega

/-- Three bytes are the encoding of a number below `0x10000` that is no surrogate. -/
theorem utf8Bytes3_iff : utf8Bytes3 (b₀ :: b₁ :: b₂ :: rest) = some true ↔
    ∃ v, Accepted v ∧ 0x7ff < v ∧ v ≤ 0xffff ∧ encodeValue v = [b₀, b₁, b₂] := by
  have hrange : utf8Bytes3 (b₀ :: b₁ :: b₂ :: rest) = some true ↔
      (b₀.toNat = 0xE0 ∧ 0xA0 ≤ b₁.toNat ∧ b₁.toNat ≤ 0xBF ∨
        (0xE1 ≤ b₀.toNat ∧ b₀.toNat ≤ 0xEC ∨ 0xEE ≤ b₀.toNat ∧ b₀.toNat ≤ 0xEF) ∧
          0x80 ≤ b₁.toNat ∧ b₁.toNat ≤ 0xBF ∨
        b₀.toNat = 0xED ∧ 0x80 ≤ b₁.toNat ∧ b₁.toNat ≤ 0x9F) ∧
        0x80 ≤ b₂.toNat ∧ b₂.toNat ≤ 0xBF := by
    have h₁ (low high : UInt8) : inRange (b₀ :: b₁ :: b₂ :: rest) 1 low high = some true ↔
      low.toNat ≤ b₁.toNat ∧ b₁.toNat ≤ high.toNat := inRange_eq_some_true_iff rfl
    have h₂ (low high : UInt8) : inRange (b₀ :: b₁ :: b₂ :: rest) 2 low high = some true ↔
      low.toNat ≤ b₂.toNat ∧ b₂.toNat ≤ high.toNat := inRange_eq_some_true_iff rfl
    simp only [utf8Bytes3, List.getElem?_cons_zero, Option.bind_some, ← UInt8.toNat_inj,
      UInt8.le_iff_toNat_le, UInt8.reduceToNat]
    split_ifs <;>
      simp only [both_eq_some_true_iff, h₁, h₂, UInt8.reduceToNat, Option.some.injEq,
        Bool.false_eq_true, false_iff] <;>
      omega
  rw [hrange]
  constructor
  · intro h
    have hlow : 0x7ff < (b₀.toNat - 0xE0) * 4096 + (b₁.toNat - 0x80) * 64 + (b₂.toNat - 0x80) := by
      omega
    have hhigh :
        (b₀.toNat - 0xE0) * 4096 + (b₁.toNat - 0x80) * 64 + (b₂.toNat - 0x80) ≤ 0xffff := by
      omega
    refine ⟨_, ?_, hlow, hhigh, (encodeValue_eq_three_iff hlow hhigh).mpr (by omega)⟩
    unfold Accepted
    omega
  · rintro ⟨v, hv, hlow, hhigh, hbytes⟩
    have := (encodeValue_eq_three_iff hlow hhigh).mp hbytes
    unfold Accepted at hv
    omega

/-- Four bytes are the encoding of a number from `0x10000` to `0x11FFFF`. -/
theorem utf8Bytes4_iff : utf8Bytes4 (b₀ :: b₁ :: b₂ :: b₃ :: rest) = some true ↔
    ∃ v, 0xffff < v ∧ v ≤ 0x11FFFF ∧ encodeValue v = [b₀, b₁, b₂, b₃] := by
  have hrange : utf8Bytes4 (b₀ :: b₁ :: b₂ :: b₃ :: rest) = some true ↔
      (b₀.toNat = 0xF0 ∧ 0x90 ≤ b₁.toNat ∧ b₁.toNat ≤ 0xBF ∨
        (0xF1 ≤ b₀.toNat ∧ b₀.toNat ≤ 0xF3) ∧ 0x80 ≤ b₁.toNat ∧ b₁.toNat ≤ 0xBF ∨
        b₀.toNat = 0xF4 ∧ 0x80 ≤ b₁.toNat ∧ b₁.toNat ≤ 0x9F) ∧
        (0x80 ≤ b₂.toNat ∧ b₂.toNat ≤ 0xBF) ∧ 0x80 ≤ b₃.toNat ∧ b₃.toNat ≤ 0xBF := by
    have h₁ (low high : UInt8) : inRange (b₀ :: b₁ :: b₂ :: b₃ :: rest) 1 low high = some true ↔
      low.toNat ≤ b₁.toNat ∧ b₁.toNat ≤ high.toNat := inRange_eq_some_true_iff rfl
    have h₂ (low high : UInt8) : inRange (b₀ :: b₁ :: b₂ :: b₃ :: rest) 2 low high = some true ↔
      low.toNat ≤ b₂.toNat ∧ b₂.toNat ≤ high.toNat := inRange_eq_some_true_iff rfl
    have h₃ (low high : UInt8) : inRange (b₀ :: b₁ :: b₂ :: b₃ :: rest) 3 low high = some true ↔
      low.toNat ≤ b₃.toNat ∧ b₃.toNat ≤ high.toNat := inRange_eq_some_true_iff rfl
    simp only [utf8Bytes4, List.getElem?_cons_zero, Option.bind_some, ← UInt8.toNat_inj,
      UInt8.le_iff_toNat_le, UInt8.reduceToNat]
    split_ifs <;>
      simp only [both_eq_some_true_iff, h₁, h₂, h₃, UInt8.reduceToNat, Option.some.injEq,
        Bool.false_eq_true, false_iff] <;>
      omega
  rw [hrange]
  constructor
  · intro h
    have hv : 0xffff < (b₀.toNat - 0xF0) * 262144 + (b₁.toNat - 0x80) * 4096 +
          (b₂.toNat - 0x80) * 64 + (b₃.toNat - 0x80) ∧
        (b₀.toNat - 0xF0) * 262144 + (b₁.toNat - 0x80) * 4096 + (b₂.toNat - 0x80) * 64 +
          (b₃.toNat - 0x80) ≤ 0x11FFFF := by
      omega
    exact ⟨_, hv.1, hv.2, (encodeValue_eq_four_iff hv.1 (by omega)).mpr (by omega)⟩
  · rintro ⟨v, hlow, hhigh, hbytes⟩
    have := (encodeValue_eq_four_iff hlow (by omega)).mp hbytes
    omega

/-- The check of a text that starts with a byte from `0xF0` on. -/
theorem utf8CheckImpl_four (h : 0xF0 ≤ b₀.toNat) :
    utf8CheckImpl (b₀ :: b₁ :: b₂ :: b₃ :: rest) =
      both (utf8Bytes4 (b₀ :: b₁ :: b₂ :: b₃ :: rest)) (utf8CheckImpl rest) := by
  rw [utf8CheckImpl, if_pos ((mask_iff b₀).1.mpr h),
    if_neg (by simp only [List.length_cons]; omega)]
  rfl

/-- The check of a text that starts with a byte from `0xE0` to `0xEF`. -/
theorem utf8CheckImpl_three (hlow : 0xE0 ≤ b₀.toNat) (hhigh : b₀.toNat < 0xF0) :
    utf8CheckImpl (b₀ :: b₁ :: b₂ :: rest) =
      both (utf8Bytes3 (b₀ :: b₁ :: b₂ :: rest)) (utf8CheckImpl rest) := by
  obtain ⟨hfour, hthree, -⟩ := mask_iff b₀
  rw [utf8CheckImpl, if_neg (hfour.not.mpr (by omega)), if_pos (hthree.mpr hlow),
    if_neg (by simp only [List.length_cons]; omega)]
  rfl

/-- The check of a text that starts with a byte from `0xC0` to `0xDF`. -/
theorem utf8CheckImpl_two (hlow : 0xC0 ≤ b₀.toNat) (hhigh : b₀.toNat < 0xE0) :
    utf8CheckImpl (b₀ :: b₁ :: rest) =
      both (utf8Bytes2 (b₀ :: b₁ :: rest)) (utf8CheckImpl rest) := by
  obtain ⟨hfour, hthree, htwo⟩ := mask_iff b₀
  rw [utf8CheckImpl, if_neg (hfour.not.mpr (by omega)), if_neg (hthree.not.mpr (by omega)),
    if_pos (htwo.mpr hlow), if_neg (by simp only [List.length_cons]; omega)]
  rfl

/-- The check of a text that starts with a byte below `0xC0`. -/
theorem utf8CheckImpl_one (h : b₀.toNat < 0xC0) :
    utf8CheckImpl (b₀ :: rest) = both (utf8Bytes1 (b₀ :: rest)) (utf8CheckImpl rest) := by
  obtain ⟨hfour, hthree, htwo⟩ := mask_iff b₀
  rw [utf8CheckImpl, if_neg (hfour.not.mpr (by omega)), if_neg (hthree.not.mpr (by omega)),
    if_neg (htwo.not.mpr (by omega))]

/-- A text that is too short for its first byte is refused. -/
theorem utf8CheckImpl_short (h : rest.length < 3 ∧ 0xF0 ≤ b₀.toNat ∨
      rest.length < 2 ∧ 0xE0 ≤ b₀.toNat ∨ rest.length < 1 ∧ 0xC0 ≤ b₀.toNat) :
    utf8CheckImpl (b₀ :: rest) = some false := by
  obtain ⟨hfour, hthree, htwo⟩ := mask_iff b₀
  rw [utf8CheckImpl]
  simp only [hfour, hthree, htwo]
  split_ifs <;> first | rfl | omega

/-- The ways in which the check takes a nonempty text. -/
inductive Reading : List UInt8 → Prop
  | short {b₀ : UInt8} {rest : List UInt8} (h : utf8CheckImpl (b₀ :: rest) = some false) :
      Reading (b₀ :: rest)
  | one {b₀ : UInt8} {rest : List UInt8} (h : b₀.toNat < 0xC0) : Reading (b₀ :: rest)
  | two {b₀ b₁ : UInt8} {rest : List UInt8} (hlow : 0xC0 ≤ b₀.toNat) (hhigh : b₀.toNat < 0xE0) :
      Reading (b₀ :: b₁ :: rest)
  | three {b₀ b₁ b₂ : UInt8} {rest : List UInt8} (hlow : 0xE0 ≤ b₀.toNat)
      (hhigh : b₀.toNat < 0xF0) : Reading (b₀ :: b₁ :: b₂ :: rest)
  | four {b₀ b₁ b₂ b₃ : UInt8} {rest : List UInt8} (h : 0xF0 ≤ b₀.toNat) :
      Reading (b₀ :: b₁ :: b₂ :: b₃ :: rest)

/-- Every nonempty text is taken in one of these ways. -/
theorem reading (b₀ : UInt8) (rest : List UInt8) : Reading (b₀ :: rest) := by
  by_cases hone : b₀.toNat < 0xC0
  · exact .one hone
  match rest with
  | [] => exact .short (utf8CheckImpl_short (.inr (.inr ⟨by simp, by omega⟩)))
  | b₁ :: rest =>
    by_cases htwo : b₀.toNat < 0xE0
    · exact .two (by omega) htwo
    match rest with
    | [] => exact .short (utf8CheckImpl_short (.inr (.inl ⟨by simp, by omega⟩)))
    | b₂ :: rest =>
      by_cases hthree : b₀.toNat < 0xF0
      · exact .three (by omega) hthree
      match rest with
      | [] => exact .short (utf8CheckImpl_short (.inl ⟨by simp, by omega⟩))
      | b₃ :: rest => exact .four (by omega)

/-- Three bytes that are there can be tested. -/
theorem utf8Bytes3_isSome : (utf8Bytes3 (b₀ :: b₁ :: b₂ :: rest)).isSome := by
  simp only [utf8Bytes3, List.getElem?_cons_zero, Option.bind_some]
  split_ifs <;> first | exact both_isSome rfl rfl | rfl

/-- Four bytes that are there can be tested. -/
theorem utf8Bytes4_isSome : (utf8Bytes4 (b₀ :: b₁ :: b₂ :: b₃ :: rest)).isSome := by
  simp only [utf8Bytes4, List.getElem?_cons_zero, Option.bind_some]
  split_ifs <;> first | exact both_isSome (both_isSome rfl rfl) rfl | rfl

/-- The check reads no byte behind the last one. -/
theorem utf8CheckImpl_isSome (s : List UInt8) : (utf8CheckImpl s).isSome := by
  induction hn : s.length using Nat.strong_induction_on generalizing s with
  | _ n ih =>
    cases s with
    | nil => rw [utf8CheckImpl]; rfl
    | cons b₀ rest =>
      have hrest : ∀ t, t.length < (b₀ :: rest).length → (utf8CheckImpl t).isSome :=
        fun t ht => ih _ (hn ▸ ht) t rfl
      cases reading b₀ rest with
      | short h => rw [h]; rfl
      | one h =>
        rw [utf8CheckImpl_one h]
        exact both_isSome rfl (hrest _ (by simp))
      | two hlow hhigh =>
        rw [utf8CheckImpl_two hlow hhigh]
        exact both_isSome (both_isSome rfl rfl) (hrest _ (by grind))
      | three hlow hhigh =>
        rw [utf8CheckImpl_three hlow hhigh]
        exact both_isSome utf8Bytes3_isSome (hrest _ (by grind))
      | four h =>
        rw [utf8CheckImpl_four h]
        exact both_isSome utf8Bytes4_isSome (hrest _ (by grind))

/-- A text that is accepted starts with the encoding of an accepted number. -/
theorem exists_encodeValue_of_check (h : utf8CheckImpl (b₀ :: rest) = some true) :
    ∃ v t, Accepted v ∧ b₀ :: rest = encodeValue v ++ t ∧ utf8CheckImpl t = some true := by
  cases reading b₀ rest with
  | short hshort => rw [hshort] at h; cases h
  | one hone =>
    rw [utf8CheckImpl_one hone, both_eq_some_true_iff, utf8Bytes1_iff] at h
    obtain ⟨⟨v, hv, hbytes⟩, hrest⟩ := h
    exact ⟨v, _, .inl (by omega), by rw [hbytes]; rfl, hrest⟩
  | two hlow hhigh =>
    rw [utf8CheckImpl_two hlow hhigh, both_eq_some_true_iff, utf8Bytes2_iff] at h
    obtain ⟨⟨v, -, hv, hbytes⟩, hrest⟩ := h
    exact ⟨v, _, .inl (by omega), by rw [hbytes]; rfl, hrest⟩
  | three hlow hhigh =>
    rw [utf8CheckImpl_three hlow hhigh, both_eq_some_true_iff, utf8Bytes3_iff] at h
    obtain ⟨⟨v, hv, -, -, hbytes⟩, hrest⟩ := h
    exact ⟨v, _, hv, by rw [hbytes]; rfl, hrest⟩
  | four hfour =>
    rw [utf8CheckImpl_four hfour, both_eq_some_true_iff, utf8Bytes4_iff] at h
    obtain ⟨⟨v, hlow, hhigh, hbytes⟩, hrest⟩ := h
    exact ⟨v, _, .inr ⟨by omega, hhigh⟩, by rw [hbytes]; rfl, hrest⟩

/-- The encoding of an accepted number is skipped. -/
theorem utf8CheckImpl_encodeValue {v : ℕ} (hv : Accepted v) (rest : List UInt8) :
    utf8CheckImpl (encodeValue v ++ rest) = utf8CheckImpl rest := by
  have hmax : v ≤ 0x11FFFF := by unfold Accepted at hv; omega
  by_cases hone : v ≤ 0x7f
  · obtain ⟨b₀, hbytes⟩ : ∃ b₀, encodeValue v = [b₀] := by simp [encodeValue, hone]
    have hfirst := (encodeValue_eq_one_iff hone).mp hbytes
    rw [hbytes, List.singleton_append, utf8CheckImpl_one (by omega)]
    exact both_of_true (utf8Bytes1_iff.mpr ⟨v, hone, hbytes⟩)
  by_cases htwo : v ≤ 0x7ff
  · obtain ⟨b₀, b₁, hbytes⟩ : ∃ b₀ b₁, encodeValue v = [b₀, b₁] := by simp [encodeValue, hone, htwo]
    have hfirst := (encodeValue_eq_two_iff (by omega) htwo).mp hbytes
    rw [hbytes, List.cons_append, List.singleton_append, utf8CheckImpl_two (by omega) (by omega)]
    exact both_of_true (utf8Bytes2_iff.mpr ⟨v, by omega, htwo, hbytes⟩)
  by_cases hthree : v ≤ 0xffff
  · obtain ⟨b₀, b₁, b₂, hbytes⟩ : ∃ b₀ b₁ b₂, encodeValue v = [b₀, b₁, b₂] := by
      simp [encodeValue, hone, htwo, hthree]
    have hfirst := (encodeValue_eq_three_iff (by omega) hthree).mp hbytes
    rw [hbytes, List.cons_append, List.cons_append, List.singleton_append,
      utf8CheckImpl_three (by omega) (by omega)]
    exact both_of_true (utf8Bytes3_iff.mpr ⟨v, hv, by omega, hthree, hbytes⟩)
  · obtain ⟨b₀, b₁, b₂, b₃, hbytes⟩ : ∃ b₀ b₁ b₂ b₃, encodeValue v = [b₀, b₁, b₂, b₃] := by
      simp [encodeValue, hone, htwo, hthree]
    have hfirst := (encodeValue_eq_four_iff (by omega) (by omega)).mp hbytes
    rw [hbytes, List.cons_append, List.cons_append, List.cons_append, List.singleton_append,
      utf8CheckImpl_four (by omega)]
    exact both_of_true (utf8Bytes4_iff.mpr ⟨v, by omega, hmax, hbytes⟩)

/-- The encodings of accepted numbers are skipped. -/
theorem utf8CheckImpl_encodeValues {vs : List ℕ} (hvs : ∀ v ∈ vs, Accepted v)
    (rest : List UInt8) :
    utf8CheckImpl (vs.flatMap encodeValue ++ rest) = utf8CheckImpl rest := by
  induction vs with
  | nil => rfl
  | cons v vs ih =>
    rw [List.forall_mem_cons] at hvs
    rw [List.flatMap_cons, List.append_assoc, utf8CheckImpl_encodeValue hvs.1, ih hvs.2]

/-- The check accepts exactly the concatenations of encodings of accepted numbers. -/
theorem utf8Check_eq_some_true_iff (s : List UInt8) :
    utf8Check s = some true ↔
      ∃ vs : List ℕ, (∀ v ∈ vs, Accepted v) ∧ s = vs.flatMap encodeValue := by
  constructor
  · rw [utf8Check]
    induction hn : s.length using Nat.strong_induction_on generalizing s with
    | _ n ih =>
      intro h
      cases s with
      | nil => exact ⟨[], by simp, rfl⟩
      | cons b₀ rest =>
        obtain ⟨v, t, hv, htext, ht⟩ := exists_encodeValue_of_check h
        have hlength : t.length < n := by
          have := congrArg List.length htext
          have := List.length_pos_iff.mpr (encodeValue_ne_nil v)
          rw [List.length_append] at *
          omega
        obtain ⟨vs, hvs, rfl⟩ := ih t.length hlength t rfl ht
        exact ⟨v :: vs, List.forall_mem_cons.mpr ⟨hv, hvs⟩, htext⟩
  · rintro ⟨vs, hvs, rfl⟩
    rw [utf8Check, ← List.append_nil (vs.flatMap encodeValue), utf8CheckImpl_encodeValues hvs,
      utf8CheckImpl]

/-- An accepted text has no effect on the verdict on what follows, which there always is; so a
concatenation of accepted texts is accepted. -/
theorem utf8Check_append (a : List UInt8) (ha : utf8Check a = some true) :
    (∀ b, (utf8Check b).isSome ∧ utf8Check (a ++ b) = utf8Check b) ∧
      ∀ b, utf8Check b = some true → utf8Check (a ++ b) = some true := by
  have hsame : ∀ b, utf8Check (a ++ b) = utf8Check b := by
    intro b
    obtain ⟨vs, hvs, rfl⟩ := (utf8Check_eq_some_true_iff a).mp ha
    exact utf8CheckImpl_encodeValues hvs b
  exact ⟨fun b => ⟨utf8CheckImpl_isSome b, hsame b⟩, fun b hb => (hsame b).trans hb⟩

/-- The verdict on a cut encoding behind an accepted one. -/
theorem utf8Check_append_euro :
    utf8Check ([0xE2, 0x82, 0xAC] ++ [0xE2, 0x82]) = utf8Check [0xE2, 0x82] := by
  have heuro : utf8Check [0xE2, 0x82, 0xAC] = some true := by
    refine (utf8Check_eq_some_true_iff _).mpr ⟨[0x20AC], ?_, by decide⟩
    simp [Accepted]
  exact ((utf8Check_append _ heuro).1 [0xE2, 0x82]).2

/-- A scalar value is accepted. -/
theorem accepted_toNat (c : Char) : Accepted c.toNat := by
  have hvalid : c.toNat < 0xd800 ∨ 0xdfff < c.toNat ∧ c.toNat < 0x110000 := c.valid
  unfold Accepted
  omega

/-- An accepted number up to the last scalar value is one. -/
theorem Accepted.exists_char {v : ℕ} (h : Accepted v) (hle : v ≤ 0x10FFFF) :
    ∃ c : Char, c.toNat = v := by
  have hvalid : v.isValidChar := by
    unfold Accepted at h
    unfold Nat.isValidChar
    omega
  exact ⟨.ofNatAux v hvalid, rfl⟩

/-- The encoding of characters is that of their scalar values. -/
theorem flatMap_utf8EncodeChar (cs : List Char) :
    cs.flatMap String.utf8EncodeChar = (cs.map Char.toNat).flatMap encodeValue := by
  simp only [List.flatMap_map, encodeValue_toNat]

/-- UTF-8 is accepted. -/
theorem IsUtf8.utf8Check_eq (h : IsUtf8 s) : utf8Check s = some true := by
  obtain ⟨cs, rfl⟩ := h
  refine (utf8Check_eq_some_true_iff _).mpr ⟨cs.map Char.toNat, ?_, flatMap_utf8EncodeChar cs⟩
  exact List.forall_mem_map.mpr fun c _ => accepted_toNat c

/-- UTF-8 encodes no number behind the last scalar value. -/
theorem IsUtf8.noneBeyond (h : IsUtf8 s) : NoneBeyond s := by
  obtain ⟨cs, hcs⟩ := h
  intro vs hvs hs v hv
  have hlt : ∀ v, Accepted v → v < 2 ^ 21 := by
    unfold Accepted
    omega
  have hsame : vs = cs.map Char.toNat := by
    refine encodeValues_inj (fun v hv => hlt v (hvs v hv)) ?_ ?_
    · exact List.forall_mem_map.mpr fun c _ => hlt _ (accepted_toNat c)
    · rw [← hs, hcs, flatMap_utf8EncodeChar]
  obtain ⟨c, -, rfl⟩ := List.mem_map.mp (hsame ▸ hv)
  have hvalid : c.toNat < 0xd800 ∨ 0xdfff < c.toNat ∧ c.toNat < 0x110000 := c.valid
  omega

/-- The check reads no byte behind the given ones and accepts exactly UTF-8, except for the texts
that encode a number behind the last scalar value. -/
theorem utf8Check_iff (s : List UInt8) :
    ((utf8Check s).isSome ∧ (utf8Check s = some true ↔ IsUtf8 s)) ↔ NoneBeyond s := by
  constructor
  · rintro ⟨-, hiff⟩ vs hvs hs
    have hutf8 := hiff.mp ((utf8Check_eq_some_true_iff s).mpr ⟨vs, hvs, hs⟩)
    exact hutf8.noneBeyond vs hvs hs
  · intro hnone
    refine ⟨utf8CheckImpl_isSome s, ?_, IsUtf8.utf8Check_eq⟩
    intro hcheck
    obtain ⟨vs, hvs, hs⟩ := (utf8Check_eq_some_true_iff s).mp hcheck
    have hall : ∀ v ∈ vs, ∃ c : Char, c.toNat = v :=
      fun v hv => (hvs v hv).exists_char (hnone vs hvs hs v hv)
    obtain ⟨cs, rfl⟩ : ∃ cs : List Char, cs.map Char.toNat = vs := by
      rw [← Set.mem_range, Set.range_list_map]
      exact hall
    exact ⟨cs, by rw [hs, flatMap_utf8EncodeChar]⟩

/-- The bytes of `0x110000` are accepted, and are no UTF-8. -/
theorem utf8Check_beyond :
    utf8Check [0xF4, 0x90, 0x80, 0x80] = some true ∧ ¬ IsUtf8 [0xF4, 0x90, 0x80, 0x80] := by
  have hbytes : [0xF4, 0x90, 0x80, 0x80] = [0x110000].flatMap encodeValue := by decide
  have haccepted : ∀ v ∈ [0x110000], Accepted v := by simp [Accepted]
  refine ⟨(utf8Check_eq_some_true_iff _).mpr ⟨_, haccepted, hbytes⟩, fun hutf8 => ?_⟩
  exact absurd (hutf8.noneBeyond _ haccepted hbytes _ (List.mem_singleton_self _)) (by decide)

end Demos.Utf8
