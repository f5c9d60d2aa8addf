import Demos.Oak.Codec
import Mathlib.Algebra.Order.Ring.Int
import Mathlib.Order.Bounds.Defs

/-!
# Where the encodings end

`SetVarint32` writes as many bytes as the value has groups of seven bits, and marks all of them but
the last one. The fifth byte has no mark either, whatever becomes of its bits. `GetVarint32` looks
at the marks only to find the end, so that a reader of many encodings stays in step with the writer.
-/

namespace Demos.Oak

open Demos.Lib

/-- The pointers that successive calls of `SetVarint32` return. -/
def setBoundaries (memory : CodecMemory) (ptr : ℕ) : List UInt32 → List ℕ
  | [] => []
  | value :: values =>
    let (memory, ptr) := setVarint32 memory ptr value
    ptr :: setBoundaries memory ptr values

/-- The pointers that successive calls of `GetVarint32` return. -/
def getBoundaries (memory : CodecMemory) (ptr : ℕ) : ℕ → List ℕ
  | 0 => []
  | count + 1 =>
    let ptr := (getVarint32 memory ptr).2
    ptr :: getBoundaries memory ptr count

/-- The numbers of bytes that have room for a value. -/
def Fits (value : UInt32) : Set ℕ := {k | 1 ≤ k ∧ value.toNat < 2 ^ (7 * k)}

/-- A sequence of bytes of which all but the last one have the mark. -/
def Marked (bytes : List UInt8) : Prop :=
  ∃ front last, bytes = front ++ [last] ∧ (∀ b ∈ front, b &&& 0x80 ≠ 0) ∧ last &&& 0x80 = 0

variable {memory memory' : CodecMemory} {ptr : ℕ} {value : UInt32} {values : List UInt32}

section Bytes

/-- Seven bits fewer do not have room. -/
theorem isLeast_fits {k : ℕ} (hlt : value.toNat < 2 ^ (7 * (k + 1)))
    (hge : k = 0 ∨ 2 ^ (7 * k) ≤ value.toNat) : IsLeast (Fits value) (k + 1) := by
  refine ⟨⟨Nat.le_add_left 1 k, hlt⟩, ?_⟩
  intro j hj
  obtain ⟨hpos, hfits⟩ := hj
  by_contra hshort
  have hle : 2 ^ (7 * j) ≤ 2 ^ (7 * k) := Nat.pow_le_pow_right (by decide) (by omega)
  omega

/-- The fifth byte has no mark, since only four bits are left for it. -/
theorem fifthByte_mark (h : value.toNat < 128) : fifthByte value &&& 0x80 = 0 := by
  have hbyte : value.toUInt8.toNat < 128 := by
    rw [UInt32.toNat_toUInt8]
    omega
  rw [fifthByte, UInt32.toUInt8_or]
  exact forall_byte (P := fun c => c.toNat < 128 → (c ||| 0x7F) &&& 0x80 = 0)
    (by decide +kernel) _ hbyte

/-- All bytes of a value but the last one have the mark. -/
theorem marked_varintBytes (value : UInt32) : Marked (varintBytes value) := by
  have hlt := value.toNat_lt
  simp only [varintBytes]
  split_ifs
  · refine ⟨_, _, (List.dropLast_concat_getLast (List.cons_ne_nil _ _)).symm, ?_, ?_⟩
    · simp [moreByte_mark]
    · refine fifthByte_mark ?_
      simp only [shiftRight_seven_toNat]
      omega
  all_goals
    refine ⟨_, _, (List.dropLast_concat_getLast (List.cons_ne_nil _ _)).symm, ?_, ?_⟩
    · simp [moreByte_mark]
    · exact lastByte_mark _

/-- A value has as many bytes as it has groups of seven bits. -/
theorem isLeast_length_varintBytes (value : UInt32) :
    IsLeast (Fits value) (varintBytes value).length := by
  have hlt := value.toNat_lt
  simp only [varintBytes, shiftRight_seven_pos_iff, shiftRight_seven_toNat]
  split_ifs
  · exact isLeast_fits (k := 4) (by omega) (.inr (by omega))
  · exact isLeast_fits (k := 3) (by omega) (.inr (by omega))
  · exact isLeast_fits (k := 2) (by omega) (.inr (by omega))
  · exact isLeast_fits (k := 1) (by omega) (.inr (by omega))
  · exact isLeast_fits (k := 0) (by omega) (.inl rfl)

theorem length_varintBytes_le (value : UInt32) : (varintBytes value).length ≤ 5 := by
  have hlt := value.toNat_lt
  exact (isLeast_length_varintBytes value).2 ⟨by decide, by omega⟩

/-- `SetVarint32` writes nothing behind the bytes of the value. -/
theorem setVarint32_of_le {i : ℕ} (h : ptr + (varintBytes value).length ≤ i) :
    (setVarint32 memory ptr value).1 i = memory i := by
  simp only [varintBytes] at h
  simp only [setVarint32]
  split_ifs at h ⊢
  all_goals
    simp only [List.length_cons, List.length_nil] at h
    simp (disch := omega) only [Function.update_of_ne]

end Bytes

section Sequences

theorem setVarints_cons : setVarints memory ptr (value :: values) =
    setVarints (setVarint32 memory ptr value).1 (setVarint32 memory ptr value).2 values := rfl

/-- The first pointer is the one behind the first value. -/
theorem setBoundaries_cons : setBoundaries memory ptr (value :: values) =
    (setVarint32 memory ptr value).2 ::
      setBoundaries (setVarint32 memory ptr value).1 (setVarint32 memory ptr value).2 values := rfl

/-- The pointer behind all values. -/
theorem setVarints_snd_le (memory : CodecMemory) (ptr : ℕ) (values : List UInt32) :
    ptr ≤ (setVarints memory ptr values).2 := by
  induction values generalizing memory ptr with
  | nil => exact le_refl ptr
  | cons value values ih =>
    have hptr := (setVarint32_stored memory ptr value).2.1
    have hrest := ih (setVarint32 memory ptr value).1 (setVarint32 memory ptr value).2
    rw [setVarints_cons]
    omega

/-- A reader of the bytes that were written returns the pointers of the writer, whatever the memory
holds elsewhere. -/
theorem getBoundaries_eq (memory : CodecMemory) (ptr : ℕ) (values : List UInt32)
    (hsame : ∀ i, ptr ≤ i → i < (setVarints memory ptr values).2 →
      memory' i = (setVarints memory ptr values).1 i) :
    getBoundaries memory' ptr values.length = setBoundaries memory ptr values := by
  induction values generalizing memory ptr with
  | nil => rfl
  | cons value values ih =>
    obtain ⟨hstored, hptr, -⟩ := setVarint32_stored memory ptr value
    have hend := setVarints_snd_le (setVarint32 memory ptr value).1
      (setVarint32 memory ptr value).2 values
    rw [setVarints_cons] at hsame
    have hread : StoredAt memory' ptr (varintBytes value) := by
      refine hstored.congr fun i hle hlt => ?_
      have hbehind : i < (setVarint32 memory ptr value).2 := by omega
      rw [hsame i hle (by omega)]
      exact setVarints_of_lt _ _ values i hbehind
    have hnext := getVarint32_of_stored hread
    rw [List.length_cons, getBoundaries, setBoundaries_cons, hnext, ← hptr]
    refine congrArg _ (ih _ _ fun i hle hlt => ?_)
    exact hsame i (by omega) hlt

end Sequences

/-- `SetVarint32` writes as many bytes as the value has groups of seven bits and nothing else, all
of them but the last one with the mark, and `GetVarint32` returns the pointer behind them, whatever
follows. So the pointers of a reader of many values are those of the writer. -/
theorem varint_boundaries :
    (∀ (memory : CodecMemory) (ptr : ℕ) (value : UInt32),
      IsLeast (Fits value) (varintBytes value).length ∧ (varintBytes value).length ≤ 5 ∧
      Marked (varintBytes value) ∧
      StoredAt (setVarint32 memory ptr value).1 ptr (varintBytes value) ∧
      (setVarint32 memory ptr value).2 = ptr + (varintBytes value).length ∧
      (∀ i, i < ptr ∨ ptr + (varintBytes value).length ≤ i →
        (setVarint32 memory ptr value).1 i = memory i) ∧
      ∀ memory', StoredAt memory' ptr (varintBytes value) →
        (getVarint32 memory' ptr).2 = ptr + (varintBytes value).length) ∧
    ∀ (memory memory' : CodecMemory) (ptr : ℕ) (values : List UInt32),
      (∀ i, ptr ≤ i → i < (setVarints memory ptr values).2 →
        memory' i = (setVarints memory ptr values).1 i) →
      getBoundaries memory' ptr values.length = setBoundaries memory ptr values := by
  constructor
  · intro memory ptr value
    obtain ⟨hstored, hptr, hbefore⟩ := setVarint32_stored memory ptr value
    refine ⟨isLeast_length_varintBytes value, length_varintBytes_le value,
      marked_varintBytes value, hstored, hptr, ?_, ?_⟩
    · rintro i (hlt | hle)
      · exact hbefore i hlt
      · exact setVarint32_of_le hle
    · intro memory' hread
      rw [getVarint32_of_stored hread]
  · intro memory memory' ptr values hsame
    exact getBoundaries_eq memory ptr values hsame

/-- Two values of one and of five bytes, with other bytes behind them. -/
theorem varint_boundaries_two :
    getBoundaries (fun i => if i < 6 then (setVarints (fun _ => 0) 0 [5, 0xFFFFFFFF]).1 i else 0xFF)
      0 2 = [1, 6] := by
  refine varint_boundaries.2 (fun _ => 0) _ 0 [5, 0xFFFFFFFF] ?_
  intro i _ hlt
  exact if_pos hlt

end Demos.Oak
