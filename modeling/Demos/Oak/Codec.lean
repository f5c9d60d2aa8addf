import Demos.Lib.Byte
import Mathlib.Data.Nat.Bitwise
import Mathlib.Logic.Function.Basic

/-!
# Variable-length integers

`SetVarint32` writes seven bits a byte, lowest first, and sets the top bit of every byte but the
last one. The fifth byte is combined with `0x7F` by an or where an and is meant, so that it is
always `0x7F`, and `GetVarint32` reads the four highest bits of such a value as ones. The pointers
are positions in one memory, as both functions run over a buffer that the caller provides.
-/

namespace Demos.Oak

open Demos.Lib

/-- The bytes behind `void* buffer`. -/
abbrev CodecMemory := ℕ → UInt8

/-- `SetVarint32`: the memory after the call and the pointer that it returns. -/
def setVarint32 (memory : CodecMemory) (ptr : ℕ) (value : UInt32) : CodecMemory × ℕ :=
  let memory := Function.update memory ptr (value ||| 0x80).toUInt8
  let value := value >>> 7
  if 0 < value then
    let memory := Function.update memory (ptr + 1) (value ||| 0x80).toUInt8
    let value := value >>> 7
    if 0 < value then
      let memory := Function.update memory (ptr + 2) (value ||| 0x80).toUInt8
      let value := value >>> 7
      if 0 < value then
        let memory := Function.update memory (ptr + 3) (value ||| 0x80).toUInt8
        let value := value >>> 7
        if 0 < value then
          (Function.update memory (ptr + 4) (value ||| 0x7F).toUInt8, ptr + 5)
        else (Function.update memory (ptr + 3) (memory (ptr + 3) &&& 0x7F), ptr + 4)
      else (Function.update memory (ptr + 2) (memory (ptr + 2) &&& 0x7F), ptr + 3)
    else (Function.update memory (ptr + 1) (memory (ptr + 1) &&& 0x7F), ptr + 2)
  else (Function.update memory ptr (memory ptr &&& 0x7F), ptr + 1)

/-- `GetVarint32`: the value that is read and the pointer behind it. -/
def getVarint32 (memory : CodecMemory) (ptr : ℕ) : UInt32 × ℕ :=
  let value := (memory ptr &&& 0x7F).toUInt32
  if memory ptr &&& 0x80 ≠ 0 then
    let value := value ||| (memory (ptr + 1) &&& 0x7F).toUInt32 <<< 7
    if memory (ptr + 1) &&& 0x80 ≠ 0 then
      let value := value ||| (memory (ptr + 2) &&& 0x7F).toUInt32 <<< 14
      if memory (ptr + 2) &&& 0x80 ≠ 0 then
        let value := value ||| (memory (ptr + 3) &&& 0x7F).toUInt32 <<< 21
        if memory (ptr + 3) &&& 0x80 ≠ 0 then
          (value ||| (memory (ptr + 4) &&& 0x7F).toUInt32 <<< 28, ptr + 5)
        else (value, ptr + 4)
      else (value, ptr + 3)
    else (value, ptr + 2)
  else (value, ptr + 1)

/-- Values written back to back. -/
def setVarints (memory : CodecMemory) (ptr : ℕ) : List UInt32 → CodecMemory × ℕ
  | [] => (memory, ptr)
  | value :: values =>
    let (memory, ptr) := setVarint32 memory ptr value
    setVarints memory ptr values

/-- Values read by successive calls. -/
def getVarints (memory : CodecMemory) (ptr : ℕ) : ℕ → List UInt32
  | 0 => []
  | count + 1 =>
    let (value, ptr) := getVarint32 memory ptr
    value :: getVarints memory ptr count

/-- A byte with seven bits of a value and the mark that more follow. -/
def moreByte (value : UInt32) : UInt8 := (value ||| 0x80).toUInt8

/-- A byte with the last seven bits of a value. -/
def lastByte (value : UInt32) : UInt8 := moreByte value &&& 0x7F

/-- The fifth byte of a value. -/
def fifthByte (value : UInt32) : UInt8 := (value ||| 0x7F).toUInt8

/-- The bytes of a value. -/
def varintBytes (value : UInt32) : List UInt8 :=
  let value₁ := value >>> 7
  let value₂ := value₁ >>> 7
  let value₃ := value₂ >>> 7
  let value₄ := value₃ >>> 7
  if 0 < value₁ then
    if 0 < value₂ then
      if 0 < value₃ then
        if 0 < value₄ then
          [moreByte value, moreByte value₁, moreByte value₂, moreByte value₃, fifthByte value₄]
        else [moreByte value, moreByte value₁, moreByte value₂, lastByte value₃]
      else [moreByte value, moreByte value₁, lastByte value₂]
    else [moreByte value, lastByte value₁]
  else [lastByte value]

/-- The memory has these bytes from a position on. -/
def StoredAt (memory : CodecMemory) : ℕ → List UInt8 → Prop
  | _, [] => True
  | ptr, b :: rest => memory ptr = b ∧ StoredAt memory (ptr + 1) rest

/-- What a value is read as: four ones stand for the bits of the fifth byte. -/
def rereadVarint32 (value : UInt32) : UInt32 :=
  if value.toNat < 2 ^ 28 then value else .ofNat (value.toNat % 2 ^ 28 + 15 * 2 ^ 28)

variable {memory memory' : CodecMemory} {ptr : ℕ}

/-- Stored bytes depend on their positions only. -/
theorem StoredAt.congr {bytes : List UInt8} (h : StoredAt memory ptr bytes)
    (hsame : ∀ i, ptr ≤ i → i < ptr + bytes.length → memory' i = memory i) :
    StoredAt memory' ptr bytes := by
  induction bytes generalizing ptr with
  | nil => trivial
  | cons b rest ih =>
    obtain ⟨hb, hrest⟩ := h
    refine ⟨?_, ih hrest fun i hle hlt => hsame i (by omega) ?_⟩
    · rw [hsame ptr (le_refl ptr) (by simp), hb]
    · rw [List.length_cons]
      omega

/-- What `SetVarint32` writes, and that it writes nothing before its pointer. -/
theorem setVarint32_stored (memory : CodecMemory) (ptr : ℕ) (value : UInt32) :
    StoredAt (setVarint32 memory ptr value).1 ptr (varintBytes value) ∧
      (setVarint32 memory ptr value).2 = ptr + (varintBytes value).length ∧
      ∀ i < ptr, (setVarint32 memory ptr value).1 i = memory i := by
  simp only [setVarint32, varintBytes]
  split_ifs
  all_goals
    refine ⟨by simp [StoredAt, moreByte, lastByte, fifthByte], rfl, fun i hi => ?_⟩
    simp [show i ≠ ptr by omega, show i ≠ ptr + 1 by omega,
      show i ≠ ptr + 2 by omega, show i ≠ ptr + 3 by omega, show i ≠ ptr + 4 by omega]

theorem and_mask_toNat (c : UInt8) : (c &&& 0x7F).toNat = c.toNat % 128 :=
  forall_byte (P := fun c => (c &&& 0x7F).toNat = c.toNat % 128) (by decide +kernel) c

theorem and_mark_ne_zero_iff (c : UInt8) : c &&& 0x80 ≠ 0 ↔ 128 ≤ c.toNat :=
  forall_byte (P := fun c => c &&& 0x80 ≠ 0 ↔ 128 ≤ c.toNat) (by decide +kernel) c

/-- A byte that is not the last one. -/
theorem moreByte_toNat (value : UInt32) : (moreByte value).toNat = value.toNat % 128 + 128 := by
  have hbyte : (value.toUInt8 ||| 0x80).toNat = value.toUInt8.toNat % 128 + 128 :=
    forall_byte (P := fun c => (c ||| 0x80).toNat = c.toNat % 128 + 128) (by decide +kernel) _
  rw [moreByte, UInt32.toUInt8_or]
  refine hbyte.trans ?_
  rw [UInt32.toNat_toUInt8]
  omega

theorem lastByte_toNat (value : UInt32) : (lastByte value).toNat = value.toNat % 128 := by
  rw [lastByte, and_mask_toNat, moreByte_toNat]
  omega

/-- The fifth byte has no bit of the value. -/
theorem fifthByte_toNat_mod (value : UInt32) : (fifthByte value).toNat % 128 = 127 := by
  rw [fifthByte, UInt32.toUInt8_or]
  exact forall_byte (P := fun c => (c ||| 0x7F).toNat % 128 = 127) (by decide +kernel) _

/-- Seven bits shifted behind those that are already there; what does not fit is lost. -/
theorem or_shift_toNat {value : UInt32} {c : UInt8} {k : ℕ} {shift : UInt32}
    (hshift : shift.toNat = k) (hk : k < 32) (hvalue : value.toNat < 2 ^ k) :
    (value ||| (c &&& 0x7F).toUInt32 <<< shift).toNat =
      value.toNat + (c.toNat % 128 % 2 ^ (32 - k)) * 2 ^ k := by
  have hpow : 2 ^ 32 = 2 ^ (32 - k) * 2 ^ k := by rw [← Nat.pow_add, Nat.sub_add_cancel hk.le]
  rw [UInt32.toNat_or, UInt32.toNat_shiftLeft, UInt8.toNat_toUInt32, and_mask_toNat, hshift,
    Nat.mod_eq_of_lt hk, Nat.shiftLeft_eq, hpow, Nat.mul_mod_mul_right, Nat.or_comm, Nat.mul_comm,
    ← Nat.two_pow_add_eq_or_of_lt hvalue]
  omega

theorem shiftRight_seven_toNat (value : UInt32) : (value >>> 7).toNat = value.toNat / 128 := by
  rw [UInt32.toNat_shiftRight]
  simp [Nat.shiftRight_eq_div_pow]

/-- Whether more bits follow. -/
theorem shiftRight_seven_pos_iff (value : UInt32) :
    (0 : UInt32) < value >>> 7 ↔ 128 ≤ value.toNat := by
  rw [UInt32.lt_iff_toNat_lt, shiftRight_seven_toNat, UInt32.toNat_zero]
  omega

/-- The seven bits of `n` from bit `k` on are read behind those below. -/
theorem or_shift_toNat_mod {value shift : UInt32} {c : UInt8} {k n : ℕ} (hshift : shift.toNat = k)
    (hk : k + 7 ≤ 32) (hvalue : value.toNat = n % 2 ^ k) (hc : c.toNat % 128 = n / 2 ^ k % 128) :
    (value ||| (c &&& 0x7F).toUInt32 <<< shift).toNat = n % 2 ^ (k + 7) := by
  have hbits : 2 ^ 7 ≤ 2 ^ (32 - k) := Nat.pow_le_pow_right (by decide) (by omega)
  have hlt : n / 2 ^ k % 128 < 2 ^ (32 - k) := lt_of_lt_of_le (Nat.mod_lt _ (by decide)) hbits
  rw [or_shift_toNat hshift (by omega) (hvalue ▸ Nat.mod_lt _ (Nat.two_pow_pos k)), hvalue, hc,
    Nat.mod_eq_of_lt hlt, Nat.pow_add, Nat.mod_mul, Nat.mul_comm]

section Read

variable {value : UInt32} {c₀ c₁ c₂ c₃ : UInt8}

/-- The byte has the lowest seven bits of the value. -/
def Septet (c : UInt8) (value : UInt32) : Prop := c.toNat % 128 = value.toNat % 128

/-- A byte that is not the last one has seven bits. -/
theorem septet_moreByte (value : UInt32) : Septet (moreByte value) value := by
  rw [Septet, moreByte_toNat]
  omega

theorem septet_lastByte (value : UInt32) : Septet (lastByte value) value := by
  rw [Septet, lastByte_toNat]
  omega

/-- The value of one byte. -/
theorem read_one (h₀ : Septet c₀ value) :
    (c₀ &&& 0x7F).toUInt32.toNat = value.toNat % 2 ^ 7 := by
  rw [UInt8.toNat_toUInt32, and_mask_toNat]
  exact h₀

/-- The value of two bytes. -/
theorem read_two (h₀ : Septet c₀ value) (h₁ : Septet c₁ (value >>> 7)) :
    ((c₀ &&& 0x7F).toUInt32 ||| (c₁ &&& 0x7F).toUInt32 <<< 7).toNat = value.toNat % 2 ^ 14 := by
  refine or_shift_toNat_mod (k := 7) rfl (by decide) (read_one h₀) ?_
  rw [h₁, shiftRight_seven_toNat]
  rfl

/-- The value of three bytes. -/
theorem read_three (h₀ : Septet c₀ value) (h₁ : Septet c₁ (value >>> 7))
    (h₂ : Septet c₂ (value >>> 7 >>> 7)) :
    ((c₀ &&& 0x7F).toUInt32 ||| (c₁ &&& 0x7F).toUInt32 <<< 7 |||
      (c₂ &&& 0x7F).toUInt32 <<< 14).toNat = value.toNat % 2 ^ 21 := by
  refine or_shift_toNat_mod (k := 14) rfl (by decide) (read_two h₀ h₁) ?_
  rw [h₂, shiftRight_seven_toNat, shiftRight_seven_toNat, Nat.div_div_eq_div_mul]
  rfl

/-- The value of four bytes. -/
theorem read_four (h₀ : Septet c₀ value) (h₁ : Septet c₁ (value >>> 7))
    (h₂ : Septet c₂ (value >>> 7 >>> 7)) (h₃ : Septet c₃ (value >>> 7 >>> 7 >>> 7)) :
    ((c₀ &&& 0x7F).toUInt32 ||| (c₁ &&& 0x7F).toUInt32 <<< 7 |||
      (c₂ &&& 0x7F).toUInt32 <<< 14 ||| (c₃ &&& 0x7F).toUInt32 <<< 21).toNat =
        value.toNat % 2 ^ 28 := by
  refine or_shift_toNat_mod (k := 21) rfl (by decide) (read_three h₀ h₁ h₂) ?_
  rw [h₃, shiftRight_seven_toNat, shiftRight_seven_toNat, shiftRight_seven_toNat,
    Nat.div_div_eq_div_mul, Nat.div_div_eq_div_mul]
  rfl

end Read

/-- The mark of a byte that is not the last one. -/
theorem moreByte_mark (value : UInt32) : moreByte value &&& 0x80 ≠ 0 := by
  rw [and_mark_ne_zero_iff, moreByte_toNat]
  omega

/-- The last byte has no mark. -/
theorem lastByte_mark (value : UInt32) : lastByte value &&& 0x80 = 0 := by
  have h := (and_mark_ne_zero_iff (lastByte value)).not
  rw [not_not, lastByte_toNat] at h
  exact h.mpr (by omega)

/-- `GetVarint32` reads what the bytes of a value stand for. -/
theorem getVarint32_of_stored {value : UInt32} (h : StoredAt memory ptr (varintBytes value)) :
    getVarint32 memory ptr = (rereadVarint32 value, ptr + (varintBytes value).length) := by
  have hlast (x : UInt32) : ¬ lastByte x &&& 0x80 ≠ 0 := not_not.mpr (lastByte_mark x)
  have hreread : value.toNat < 2 ^ 28 → (rereadVarint32 value).toNat = value.toNat :=
    fun hlt => congrArg _ (if_pos hlt)
  have hone := septet_moreByte value
  have htwo := septet_moreByte (value >>> 7)
  have hthree := septet_moreByte (value >>> 7 >>> 7)
  simp only [varintBytes, shiftRight_seven_pos_iff, shiftRight_seven_toNat] at h ⊢
  split_ifs at h ⊢ with h1 h2 h3 h4
  · obtain ⟨hb₀, hb₁, hb₂, hb₃, hb₄, -⟩ := h
    have hfour := read_four hone htwo hthree (septet_moreByte (value >>> 7 >>> 7 >>> 7))
    simp only [getVarint32, hb₀, hb₁, hb₂, hb₃, hb₄, if_pos (moreByte_mark _)]
    refine Prod.ext (UInt32.toNat_inj.mp ?_) rfl
    rw [or_shift_toNat (k := 28) rfl (by decide) (by rw [hfour]; omega), hfour,
      fifthByte_toNat_mod, rereadVarint32, if_neg (by omega),
      UInt32.toNat_ofNat_of_lt' (show _ < 2 ^ 32 by omega)]
    rfl
  · obtain ⟨hb₀, hb₁, hb₂, hb₃, -⟩ := h
    simp only [getVarint32, hb₀, hb₁, hb₂, hb₃, if_pos (moreByte_mark _), if_neg (hlast _)]
    refine Prod.ext (UInt32.toNat_inj.mp ?_) rfl
    rw [read_four hone htwo hthree (septet_lastByte _), hreread (by omega)]
    omega
  · obtain ⟨hb₀, hb₁, hb₂, -⟩ := h
    simp only [getVarint32, hb₀, hb₁, hb₂, if_pos (moreByte_mark _), if_neg (hlast _)]
    refine Prod.ext (UInt32.toNat_inj.mp ?_) rfl
    rw [read_three hone htwo (septet_lastByte _), hreread (by omega)]
    omega
  · obtain ⟨hb₀, hb₁, -⟩ := h
    simp only [getVarint32, hb₀, hb₁, if_pos (moreByte_mark _), if_neg (hlast _)]
    refine Prod.ext (UInt32.toNat_inj.mp ?_) rfl
    rw [read_two hone (septet_lastByte _), hreread (by omega)]
    omega
  · obtain ⟨hb₀, -⟩ := h
    simp only [getVarint32, hb₀, if_neg (hlast _)]
    refine Prod.ext (UInt32.toNat_inj.mp ?_) rfl
    rw [read_one (septet_lastByte value), hreread (by omega)]
    omega

/-- What `setVarints` writes for the first value stays, as later values are written behind it. -/
theorem setVarints_of_lt (memory : CodecMemory) (ptr : ℕ) (values : List UInt32) :
    ∀ i < ptr, (setVarints memory ptr values).1 i = memory i := by
  induction values generalizing memory ptr with
  | nil => exact fun _ _ => rfl
  | cons value values ih =>
    obtain ⟨-, hptr, hbefore⟩ := setVarint32_stored memory ptr value
    intro i hi
    rw [setVarints, ih _ _ i (by omega), hbefore i hi]

/-- Reading back what was written rereads every value. -/
theorem getVarints_setVarints (memory : CodecMemory) (ptr : ℕ) (values : List UInt32) :
    getVarints (setVarints memory ptr values).1 ptr values.length =
      values.map rereadVarint32 := by
  induction values generalizing memory ptr with
  | nil => rfl
  | cons value values ih =>
    obtain ⟨hstored, hptr, -⟩ := setVarint32_stored memory ptr value
    have hkept : StoredAt (setVarints memory ptr (value :: values)).1 ptr (varintBytes value) := by
      refine hstored.congr fun i _ hlt => ?_
      rw [← hptr] at hlt
      exact setVarints_of_lt _ _ values i hlt
    rw [List.length_cons, getVarints, getVarint32_of_stored hkept, List.map_cons, ← ih, ← hptr]
    rfl

/-- A value is read as itself exactly if it has at most four bytes or its four highest bits are
ones. -/
theorem rereadVarint32_eq_self_iff (value : UInt32) :
    rereadVarint32 value = value ↔ value < 0x10000000 ∨ 0xF0000000 ≤ value := by
  have hlt := value.toNat_lt
  rw [rereadVarint32, UInt32.lt_iff_toNat_lt, UInt32.le_iff_toNat_le,
    show (0x10000000 : UInt32).toNat = 2 ^ 28 from rfl,
    show (0xF0000000 : UInt32).toNat = 15 * 2 ^ 28 from rfl]
  split_ifs with hshort
  · exact iff_of_true rfl (.inl hshort)
  · rw [← UInt32.toNat_inj, UInt32.toNat_ofNat_of_lt' (show _ < 2 ^ 32 by omega)]
    omega

/-- The values that are read back are the values that were written exactly if each of them has at
most four bytes or ones for its four highest bits. -/
theorem getVarints_setVarints_eq_iff (memory : CodecMemory) (ptr : ℕ) (values : List UInt32) :
    getVarints (setVarints memory ptr values).1 ptr values.length = values ↔
      ∀ value ∈ values, value < 0x10000000 ∨ 0xF0000000 ≤ value := by
  have hid : values.map rereadVarint32 = values.map id ↔
      ∀ value ∈ values, rereadVarint32 value = id value := List.map_inj_left
  simp only [List.map_id, id_eq, rereadVarint32_eq_self_iff] at hid
  rw [getVarints_setVarints, hid]

/-- `2 ^ 28` is read back as `15 * 2 ^ 28`. -/
theorem getVarints_setVarints_fifth :
    getVarints (setVarints (fun _ => 0) 0 [0x10000000]).1 0 1 = [0xF0000000] ∧
      ¬ ∀ memory ptr values,
        getVarints (setVarints memory ptr values).1 ptr values.length = values := by
  have hread : getVarints (setVarints (fun _ => 0) 0 [0x10000000]).1 0 1 = [0xF0000000] := by
    decide +kernel
  refine ⟨hread, fun hall => ?_⟩
  have hsame := hall (fun _ => 0) 0 [0x10000000]
  rw [List.length_singleton, hread] at hsame
  exact absurd hsame (by decide)

end Demos.Oak
