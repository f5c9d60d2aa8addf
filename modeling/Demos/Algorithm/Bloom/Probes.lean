import Demos.Algorithm.Bloom.Model
import Demos.Lib.Bits
import Demos.Lib.Run

/-!
# What a bloom filter holds

The three loops visit the same probe positions. In a filter whose number of bits is that of its
array no position is outside, a lookup tests every position, and an insertion sets all of them. The
array is therefore determined by the set of the inserted hash values. The loop that looks up and
inserts at once meets a bit that it has set itself only after it has met a bit that was not set, and
by then its result is decided.
-/

namespace Demos.Algorithm

open Demos.Lib

namespace BloomFilter

variable {object object' start : BloomFilter} {step hashval pos : UInt64} {byte : UInt8}

/-- The array has the `m` bits that the positions are taken from. -/
structure Sized (object : BloomFilter) : Prop where
  m_eq : object.m.toNat = 8 * object.bytes.toNat
  m_pos : 0 < object.m.toNat
  length_array : object.array.length = object.bytes.toNat

/-- No bit is set. -/
def Zeroed (object : BloomFilter) : Prop :=
  object.array = List.replicate object.bytes.toNat 0

/-- The position is one of the `k` probe positions of the hash value. -/
def IsProbe (object : BloomFilter) (hashval : UInt64) (q : ℕ) : Prop :=
  ∃ i < object.k.toNat, q = ((hashval + i.toUInt64 * delta hashval) % object.m).toNat

/-- The positions of the next probes, in order. -/
def positions (object : BloomFilter) (step : UInt64) : ℕ → UInt64 → List ℕ
  | 0, _ => []
  | left + 1, hashval =>
    (hashval % object.m).toNat :: positions object step left (hashval + step)

/-- A new filter is sized and zeroed, whatever the estimates are. -/
theorem alloc_sized (m k : UInt64) : (alloc m k).Sized ∧ (alloc m k).Zeroed := by
  have hbytes : 8 ≤ (alloc m k).bytes.toNat ∧ (alloc m k).bytes.toNat < 2 ^ 61 := by
    have hdiv : ((m + 7) / 8).toNat = (m + 7).toNat / 8 := by rw [UInt64.toNat_div]; rfl
    have hlt := (m + 7).toNat_lt
    change 8 ≤ (if (m + 7) / 8 < 8 then 8 else (m + 7) / 8 : UInt64).toNat ∧
      (if (m + 7) / 8 < 8 then 8 else (m + 7) / 8 : UInt64).toNat < 2 ^ 61
    split
    next => decide
    next hsmall =>
      rw [UInt64.lt_iff_toNat_lt] at hsmall
      have height : (8 : UInt64).toNat = 8 := rfl
      omega
  have hm : (alloc m k).m.toNat = 8 * (alloc m k).bytes.toNat := by
    change ((alloc m k).bytes * 8).toNat = _
    have height : (8 : UInt64).toNat = 8 := rfl
    rw [UInt64.toNat_mul, height]
    omega
  exact ⟨⟨hm, by omega, List.length_replicate⟩, rfl⟩

/-- The positions are the probe positions. -/
theorem mem_positions {left q : ℕ} : q ∈ object.positions step left hashval ↔
    ∃ i < left, q = ((hashval + i.toUInt64 * step) % object.m).toNat := by
  induction left generalizing hashval with
  | zero => simp [positions]
  | succ left ih =>
    have hnext (i : ℕ) : hashval + step + i.toUInt64 * step =
        hashval + (i + 1).toUInt64 * step := by
      have hsucc : (i + 1).toUInt64 = i.toUInt64 + 1 := by simp [Nat.toUInt64]
      rw [hsucc, UInt64.add_mul, UInt64.one_mul, UInt64.add_assoc, UInt64.add_comm step]
    rw [positions, List.mem_cons, ih]
    constructor
    · rintro (rfl | ⟨i, hi, rfl⟩)
      · exact ⟨0, by omega, by simp⟩
      · exact ⟨i + 1, by omega, by rw [hnext]⟩
    · rintro ⟨i, hi, rfl⟩
      cases i with
      | zero => exact .inl (by simp)
      | succ i => exact .inr ⟨i, by omega, by rw [hnext]⟩

theorem mem_positions_iff_isProbe {q : ℕ} :
    q ∈ object.positions (delta hashval) object.k.toNat hashval ↔ object.IsProbe hashval q :=
  mem_positions

/-- The mask of a position stands for its bit. -/
theorem mask_eq (pos : UInt64) : mask pos = bitMask pos.toNat := by
  have hpos : (pos % 8).toUInt8 = (pos.toNat % 8).toUInt8 := by
    rw [← UInt8.toNat_inj, UInt64.toNat_toUInt8, UInt64.toNat_mod, Nat.toUInt8, UInt8.toNat_ofNat']
    rfl
  rw [mask, bitMask, hpos]

/-- The byte that is loaded holds the bit of the position. -/
theorem bitAt_of_load (hload : object.load pos = some byte) :
    bitAt object.array pos.toNat = byte.toNat.testBit (pos.toNat % 8) := by
  have hindex : (pos / 8).toNat = pos.toNat / 8 := by rw [UInt64.toNat_div]; rfl
  rw [load, hindex] at hload
  rw [bitAt, hload, Option.any_some]

/-- A test of the mask reads the bit of the position. -/
theorem and_mask_eq_zero_iff (hload : object.load pos = some byte) :
    byte &&& mask pos = 0 ↔ bitAt object.array pos.toNat = false := by
  rw [mask_eq, and_bitMask_eq_zero_iff, bitAt_of_load hload]

/-- Storing a byte with its mask sets the bit of the position. -/
theorem store_eq (hload : object.load pos = some byte) :
    object.store pos (byte ||| mask pos) =
      { object with array := setBitAt object.array pos.toNat } := by
  have hindex : (pos / 8).toNat = pos.toNat / 8 := by rw [UInt64.toNat_div]; rfl
  rw [load, hindex] at hload
  have harray : object.array.set (pos.toNat / 8) (byte ||| bitMask pos.toNat) =
      setBitAt object.array pos.toNat := by
    apply List.ext_getElem?
    intro i
    rw [setBitAt, List.getElem?_modify, List.getElem?_set]
    by_cases hi : pos.toNat / 8 = i
    · obtain ⟨hlt, hget⟩ := List.getElem?_eq_some_iff.mp hload
      subst hi
      simp [hlt, hget]
    · simp [hi]
  rw [store, mask_eq, hindex, harray]

/-- Storing a byte whose bit is set already changes nothing. -/
theorem store_eq_self (hload : object.load pos = some byte) (hbit : byte &&& mask pos ≠ 0) :
    object.store pos (byte ||| mask pos) = object := by
  rw [ne_eq, and_mask_eq_zero_iff hload, Bool.not_eq_false] at hbit
  rw [store_eq hload, setBitAt_eq_self hbit]

section Fused

/-- Once a bit was not set, the loop that looks up and inserts only inserts. -/
theorem lookupAndInsertLoop_false (left : ℕ) :
    lookupAndInsertLoop step left hashval false object =
      (insertLoop step left hashval object).map fun object => (false, object) := by
  induction left generalizing hashval object with
  | zero => rfl
  | succ left ih =>
    rw [lookupAndInsertLoop, insertLoop]
    cases hpos : object.probe hashval with
    | none => rfl
    | some pos =>
      cases hload : object.load pos with
      | none => simp [hload]
      | some byte =>
        by_cases hbit : byte &&& mask pos = 0
        · simp [hload, hbit, ih]
        · simp [hload, hbit, ih, store_eq_self hload hbit]

/-- As long as every bit was set, the loop has changed nothing. -/
theorem lookupAndInsertLoop_true (left : ℕ) :
    lookupAndInsertLoop step left hashval true object =
      (object.lookupLoop step left hashval).bind fun present =>
        (insertLoop step left hashval object).map fun object => (present, object) := by
  induction left generalizing hashval with
  | zero => rfl
  | succ left ih =>
    rw [lookupAndInsertLoop, insertLoop, lookupLoop]
    cases hpos : object.probe hashval with
    | none => rfl
    | some pos =>
      cases hload : object.load pos with
      | none => simp [hload]
      | some byte =>
        by_cases hbit : byte &&& mask pos = 0
        · -- the result is decided, and the rest of the loop only inserts
          simp [hload, hbit, lookupAndInsertLoop_false]
        · simp [hload, hbit, ih, store_eq_self hload hbit]

/-- Looking up and inserting at once returns and leaves what a lookup followed by an insertion
does. -/
theorem lookupAndInsertHash_eq (object : BloomFilter) (hashval : UInt64) :
    object.lookupAndInsertHash hashval =
      (object.lookupHash hashval).bind fun present =>
        (object.insertHash hashval).map fun object => (present, object) :=
  lookupAndInsertLoop_true object.k.toNat

end Fused

section Sized

theorem Sized.lt_of_mem_positions (hsized : object.Sized) {left q : ℕ}
    (hq : q ∈ object.positions step left hashval) : q < 8 * object.array.length := by
  obtain ⟨i, -, rfl⟩ := mem_positions.mp hq
  rw [UInt64.toNat_mod, hsized.length_array, ← hsized.m_eq]
  exact Nat.mod_lt _ hsized.m_pos

/-- The next position and its byte are there. -/
theorem Sized.exists_load (hsized : object.Sized) (hashval : UInt64) :
    object.probe hashval = some (hashval % object.m) ∧
      ∃ byte, object.load (hashval % object.m) = some byte := by
  have hm : object.m ≠ 0 := by
    intro hzero
    have hpos := hsized.m_pos
    simp [hzero] at hpos
  have hlt : (hashval % object.m / 8).toNat < object.array.length := by
    have hmod : (hashval % object.m).toNat < object.m.toNat := by
      rw [UInt64.toNat_mod]
      exact Nat.mod_lt _ hsized.m_pos
    have height : (8 : UInt64).toNat = 8 := rfl
    rw [UInt64.toNat_div, hsized.length_array, height]
    have hm8 := hsized.m_eq
    omega
  exact ⟨if_neg hm, _, List.getElem?_eq_getElem hlt⟩

/-- A sized filter stays sized when bits are set. -/
theorem Sized.setBits (hsized : object.Sized) (qs : List ℕ) :
    ({ object with array := qs.foldl setBitAt object.array } : BloomFilter).Sized :=
  ⟨hsized.m_eq, hsized.m_pos, by rw [length_foldl_setBitAt, hsized.length_array]⟩

/-- A lookup tests every position. -/
theorem Sized.lookupLoop_eq (hsized : object.Sized) (left : ℕ) :
    object.lookupLoop step left hashval =
      some ((object.positions step left hashval).all (bitAt object.array)) := by
  induction left generalizing hashval with
  | zero => rfl
  | succ left ih =>
    obtain ⟨hprobe, byte, hload⟩ := hsized.exists_load hashval
    have hbit := and_mask_eq_zero_iff hload
    rw [lookupLoop, positions, List.all_cons, hprobe]
    simp only [Option.bind_eq_bind, Option.bind_some, hload, ih]
    by_cases hzero : byte &&& mask (hashval % object.m) = 0
    · rw [if_pos hzero, hbit.mp hzero, Bool.false_and]
    · have hset : bitAt object.array (hashval % object.m).toNat = true :=
        Bool.eq_true_of_not_eq_false (mt hbit.mpr hzero)
      rw [if_neg hzero, hset, Bool.true_and]

/-- An insertion sets every position. -/
theorem Sized.insertLoop_eq (hsized : object.Sized) (left : ℕ) :
    insertLoop step left hashval object =
      some { object with
        array := (object.positions step left hashval).foldl setBitAt object.array } := by
  induction left generalizing hashval object with
  | zero => rfl
  | succ left ih =>
    obtain ⟨hprobe, byte, hload⟩ := hsized.exists_load hashval
    have hpositions (array : List UInt8) (left : ℕ) (hashval : UInt64) :
        ({ object with array := array } : BloomFilter).positions step left hashval =
          object.positions step left hashval := by
      induction left generalizing hashval with
      | zero => rfl
      | succ left ih => rw [positions, positions, ih]
    have hnext : ({ object with
        array := setBitAt object.array (hashval % object.m).toNat } : BloomFilter).Sized :=
      hsized.setBits [(hashval % object.m).toNat]
    rw [insertLoop, positions, List.foldl_cons, hprobe]
    simp only [Option.bind_eq_bind, Option.bind_some, hload, store_eq hload, ih hnext, hpositions]

/-- Every call returns, and it leaves the filter with the positions of its hash value set. -/
theorem Sized.perform_eq (hsized : object.Sized) (op : BloomOp) :
    ∃ res, object.perform op = some (res, { object with
      array := (object.positions (delta op.hash) object.k.toNat op.hash).foldl setBitAt
        object.array }) := by
  have hinsert (hashval : UInt64) :
      insertLoop (delta hashval) object.k.toNat hashval object = some { object with
        array := (object.positions (delta hashval) object.k.toNat hashval).foldl setBitAt
          object.array } := hsized.insertLoop_eq object.k.toNat
  have hfused (hashval : UInt64) : object.lookupAndInsertHash hashval =
      some ((object.positions (delta hashval) object.k.toNat hashval).all (bitAt object.array),
        { object with
          array := (object.positions (delta hashval) object.k.toNat hashval).foldl setBitAt
            object.array }) := by
    rw [lookupAndInsertHash, lookupAndInsertLoop_true, hsized.lookupLoop_eq, hinsert]
    rfl
  cases op with
  | insert buffer => exact ⟨none, by rw [perform, insert, insertHash, hinsert]; rfl⟩
  | insertHash hashval => exact ⟨none, by rw [perform, insertHash, hinsert]; rfl⟩
  | lookupAndInsert buffer =>
    exact ⟨some _, by rw [perform, lookupAndInsert, hfused]; rfl⟩
  | lookupAndInsertHash hashval => exact ⟨some _, by rw [perform, hfused]; rfl⟩

end Sized

section Runs

variable {ops : List BloomOp}

/-- What holds of the filter after the calls: it is the first one with the probe positions of the
inserted hash values set, and no others. -/
structure Holds (start : BloomFilter) (ops : List BloomOp) (object : BloomFilter) : Prop where
  sized : object.Sized
  frame : object = { start with array := object.array }
  bits : ∀ q, bitAt object.array q = true ↔ ∃ op ∈ ops, start.IsProbe op.hash q

/-- A zeroed filter holds nothing. -/
theorem Holds.nil (hsized : start.Sized) (hzero : start.Zeroed) : Holds start [] start where
  sized := hsized
  frame := rfl
  bits := by
    intro q
    rw [hzero, bitAt_replicate_zero]
    simp

/-- A call adds the positions of its hash value. -/
theorem Holds.perform (hholds : Holds start ops object) {op : BloomOp}
    (hstep : BloomStep object op object') : Holds start (ops ++ [op]) object' := by
  obtain ⟨res, hres⟩ := hstep
  obtain ⟨res', hperform⟩ := hholds.sized.perform_eq op
  obtain ⟨-, rfl⟩ := Prod.mk.inj (Option.some.inj (hres.symm.trans hperform))
  refine ⟨hholds.sized.setBits _, by rw [hholds.frame], ?_⟩
  intro q
  have hprobe : object.IsProbe op.hash q ↔ start.IsProbe op.hash q := by
    rw [hholds.frame]
    rfl
  rw [bitAt_foldl_setBitAt fun q hq => hholds.sized.lt_of_mem_positions hq,
    mem_positions_iff_isProbe, hprobe, hholds.bits]
  constructor
  · rintro (hnew | ⟨op', hop', hold⟩)
    · exact ⟨op, by simp, hnew⟩
    · exact ⟨op', by simp [hop'], hold⟩
  · rintro ⟨op', hop', hmem⟩
    rcases List.mem_append.mp hop' with hold | hnew
    · exact .inr ⟨op', hold, hmem⟩
    · obtain rfl := List.mem_singleton.mp hnew
      exact .inl hmem

/-- What a zeroed filter holds after any calls. -/
theorem Holds.of_run (hsized : start.Sized) (hzero : start.Zeroed)
    (hrun : Run BloomStep start ops object) : Holds start ops object :=
  hrun.invariant (I := Holds start) (.nil hsized hzero)
    fun _ _ _ _ hholds hstep => hholds.perform hstep

/-- A lookup returns whether all probe positions are set. -/
theorem Holds.lookupHash_eq_true (hholds : Holds start ops object) {hashval : UInt64}
    (hall : ∀ q, start.IsProbe hashval q → bitAt object.array q = true) :
    object.lookupHash hashval = some true := by
  rw [lookupHash, hholds.sized.lookupLoop_eq, Option.some.injEq, List.all_eq_true]
  intro q hq
  rw [mem_positions_iff_isProbe, hholds.frame] at hq
  exact hall q hq

/-- Two sequences of calls insert the same hash values. -/
def SameHashes (ops ops' : List BloomOp) : Prop :=
  ∀ hashval, (∃ op ∈ ops, op.hash = hashval) ↔ ∃ op ∈ ops', op.hash = hashval

/-- In every run from a zeroed filter a bit is set exactly if it is a probe position of an inserted
hash value. Every inserted element is found afterwards, the filter depends on the set of the hash
values only, and every call returns, with all its positions inside the array. -/
theorem bits_iff_isProbe (hsized : start.Sized) (hzero : start.Zeroed)
    (hrun : Run BloomStep start ops object) :
    (∀ q, bitAt object.array q = true ↔ ∃ op ∈ ops, start.IsProbe op.hash q) ∧
      (∀ op ∈ ops, object.lookupOp op = some true) ∧
      (∀ ops' object', Run BloomStep start ops' object' → SameHashes ops ops' →
        object' = object) ∧
      (∀ hashval q, object.IsProbe hashval q → q / 8 < object.bytes.toNat) ∧
      (∀ op, ∃ object', BloomStep object op object') ∧
      ∀ op, ∃ present, object.lookupOp op = some present := by
  have hholds := Holds.of_run hsized hzero hrun
  refine ⟨hholds.bits, ?_, ?_, ?_, ?_, ?_⟩
  · intro op hop
    have hfound : object.lookupHash op.hash = some true :=
      hholds.lookupHash_eq_true fun q hq => (hholds.bits q).mpr ⟨op, hop, hq⟩
    cases op <;> exact hfound
  · intro ops' object' hrun' hsame
    have hholds' := Holds.of_run hsized hzero hrun'
    have harray : object'.array = object.array := by
      apply bytes_ext
      · rw [hholds'.sized.length_array, hholds.sized.length_array, hholds'.frame, hholds.frame]
      · intro q
        rw [hholds.bits, hholds'.bits]
        constructor
        · rintro ⟨op', hop', hq⟩
          obtain ⟨op, hop, hhash⟩ := (hsame op'.hash).mpr ⟨op', hop', rfl⟩
          exact ⟨op, hop, by rwa [hhash]⟩
        · rintro ⟨op, hop, hq⟩
          obtain ⟨op', hop', hhash⟩ := (hsame op.hash).mp ⟨op, hop, rfl⟩
          exact ⟨op', hop', by rwa [hhash]⟩
    rw [hholds'.frame, harray, ← hholds.frame]
  · intro hashval q hq
    have hlt := hholds.sized.lt_of_mem_positions (mem_positions_iff_isProbe.mpr hq)
    rw [hholds.sized.length_array] at hlt
    omega
  · intro op
    obtain ⟨res, hperform⟩ := hholds.sized.perform_eq op
    exact ⟨_, res, hperform⟩
  · intro op
    have hlookup (hashval : UInt64) : ∃ present, object.lookupHash hashval = some present :=
      ⟨_, hholds.sized.lookupLoop_eq object.k.toNat⟩
    cases op <;> exact hlookup _

end Runs

/-- A filter of 64 bits with two probes. -/
def smallFilter : BloomFilter := alloc 64 2

/-- A hash value and a text. -/
def helloOps : List BloomOp := [.insertHash 5, .lookupAndInsert [104, 101, 108, 108, 111]]

/-- The two are inserted one after the other. -/
theorem bits_iff_isProbe_hello :
    ∃ object, Run BloomStep smallFilter helloOps object ∧
      (∀ q, bitAt object.array q = true ↔ ∃ op ∈ helloOps, smallFilter.IsProbe op.hash q) ∧
      object.lookup [104, 101, 108, 108, 111] = some true := by
  obtain ⟨hsized, hzero⟩ := alloc_sized 64 2
  obtain ⟨first, hfirst⟩ := (bits_iff_isProbe hsized hzero .nil).2.2.2.2.1 (.insertHash 5)
  have hone : Run BloomStep smallFilter [.insertHash 5] first := Run.single hfirst
  obtain ⟨object, hobject⟩ := (bits_iff_isProbe hsized hzero hone).2.2.2.2.1
    (.lookupAndInsert [104, 101, 108, 108, 111])
  have hrun : Run BloomStep smallFilter helloOps object := hone.snoc hobject
  obtain ⟨hbits, hfound, -⟩ := bits_iff_isProbe hsized hzero hrun
  exact ⟨object, hrun, hbits,
    hfound (.lookupAndInsert [104, 101, 108, 108, 111]) (by simp [helloOps])⟩

end BloomFilter

end Demos.Algorithm
