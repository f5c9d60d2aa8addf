import Mathlib.Algebra.Order.Ring.Int

/-!
# The bloom filter

The filter of `bloom_filter.c` with its hash function. The array is the block that `calloc`
returned, and a position outside of it has no byte. A loop over the `k` probes counts how many are
left; the next probe adds the rotated hash value, modulo `2 ^ 64`.
-/

namespace Demos.Algorithm

/-- `m` of `MurmurHash64A`, which is also the seed. -/
def murmurM : UInt64 := 0xc6a4a7935bd1e995

/-- `r` of `MurmurHash64A`. -/
def murmurR : UInt64 := 47

/-- `*(const uint64_t*)ptr`, the lowest byte first. -/
def loadWord (block : List UInt8) : UInt64 :=
  block.foldr (fun byte word => word <<< 8 ||| byte.toUInt64) 0

/-- One turn of the loop of `MurmurHash64A`. -/
def murmurBlock (h k : UInt64) : UInt64 :=
  let k := k * murmurM
  let k := k ^^^ (k >>> murmurR)
  let k := k * murmurM
  (h ^^^ k) * murmurM

/-- The loop of `MurmurHash64A`: the hash of the whole words, and the bytes behind them. -/
def murmurLoop (h : UInt64) : List UInt8 → UInt64 × List UInt8
  | b₀ :: b₁ :: b₂ :: b₃ :: b₄ :: b₅ :: b₆ :: b₇ :: rest =>
    murmurLoop (murmurBlock h (loadWord [b₀, b₁, b₂, b₃, b₄, b₅, b₆, b₇])) rest
  | tail => (h, tail)

/-- The `switch` of `MurmurHash64A`, which falls through from the last byte to the first. -/
def murmurTail (h : UInt64) (tail : List UInt8) : UInt64 :=
  if tail = [] then h
  else
    tail.zipIdx.foldr (fun entry h => h ^^^ (entry.1.toUInt64 <<< (8 * entry.2).toUInt64)) h *
      murmurM

/-- `MurmurHash64A`. -/
def murmurHash64A (buffer : List UInt8) (seed : UInt64) : UInt64 :=
  let h := seed ^^^ (buffer.length.toUInt64 * murmurM)
  let (h, tail) := murmurLoop h buffer
  let h := murmurTail h tail
  let h := h ^^^ (h >>> murmurR)
  let h := h * murmurM
  h ^^^ (h >>> murmurR)

/-- `bloom_filter_hash`. -/
def bloomFilterHash (buffer : List UInt8) : UInt64 := murmurHash64A buffer murmurM

/-- `bloom_filter`, as far as the operations read it. -/
structure BloomFilter where
  m : UInt64
  k : UInt64
  bytes : UInt64
  array : List UInt8
deriving DecidableEq, Repr

namespace BloomFilter

/-- `bloom_filter_alloc`, once the numbers of bits and of probes are estimated and if both
allocations succeed. -/
def alloc (m k : UInt64) : BloomFilter :=
  let k := if 32 < k then 32 else k
  let bytes := (m + 7) / 8
  let bytes := if bytes < 8 then 8 else bytes
  { m := bytes * 8, k := k, bytes := bytes, array := List.replicate bytes.toNat 0 }

/-- The step between two probes. -/
def delta (hashval : UInt64) : UInt64 := (hashval <<< 15) ||| (hashval >>> 49)

/-- `hashval % object->m`, which has no result for zero. -/
def probe (object : BloomFilter) (hashval : UInt64) : Option UInt64 :=
  if object.m = 0 then none else some (hashval % object.m)

/-- `1 << (pos % 8)`. -/
def mask (pos : UInt64) : UInt8 := 1 <<< (pos % 8).toUInt8

/-- `object->array[pos / 8]`. -/
def load (object : BloomFilter) (pos : UInt64) : Option UInt8 := object.array[(pos / 8).toNat]?

/-- The assignment to `object->array[pos / 8]`. -/
def store (object : BloomFilter) (pos : UInt64) (byte : UInt8) : BloomFilter :=
  { object with array := object.array.set (pos / 8).toNat byte }

/-- The loop of `bloom_filter_lookup_hash`. -/
def lookupLoop (object : BloomFilter) (delta : UInt64) : ℕ → UInt64 → Option Bool
  | 0, _ => some true
  | left + 1, hashval => do
    let pos ← object.probe hashval
    let byte ← object.load pos
    if byte &&& mask pos = 0 then some false
    else lookupLoop object delta left (hashval + delta)

/-- `bloom_filter_lookup_hash`. -/
def lookupHash (object : BloomFilter) (hashval : UInt64) : Option Bool :=
  object.lookupLoop (delta hashval) object.k.toNat hashval

/-- `bloom_filter_lookup`. -/
def lookup (object : BloomFilter) (buffer : List UInt8) : Option Bool :=
  object.lookupHash (bloomFilterHash buffer)

/-- The loop of `bloom_filter_insert_hash`. -/
def insertLoop (delta : UInt64) : ℕ → UInt64 → BloomFilter → Option BloomFilter
  | 0, _, object => some object
  | left + 1, hashval, object => do
    let pos ← object.probe hashval
    let byte ← object.load pos
    insertLoop delta left (hashval + delta) (object.store pos (byte ||| mask pos))

/-- `bloom_filter_insert_hash`. -/
def insertHash (object : BloomFilter) (hashval : UInt64) : Option BloomFilter :=
  insertLoop (delta hashval) object.k.toNat hashval object

/-- `bloom_filter_insert`. -/
def insert (object : BloomFilter) (buffer : List UInt8) : Option BloomFilter :=
  object.insertHash (bloomFilterHash buffer)

/-- The loop of `bloom_filter_lookup_and_insert_hash`. -/
def lookupAndInsertLoop (delta : UInt64) :
    ℕ → UInt64 → Bool → BloomFilter → Option (Bool × BloomFilter)
  | 0, _, flag, object => some (flag, object)
  | left + 1, hashval, flag, object => do
    let pos ← object.probe hashval
    let byte ← object.load pos
    if byte &&& mask pos = 0 then
      lookupAndInsertLoop delta left (hashval + delta) false (object.store pos (byte ||| mask pos))
    else lookupAndInsertLoop delta left (hashval + delta) flag object

/-- `bloom_filter_lookup_and_insert_hash`. -/
def lookupAndInsertHash (object : BloomFilter) (hashval : UInt64) : Option (Bool × BloomFilter) :=
  lookupAndInsertLoop (delta hashval) object.k.toNat hashval true object

/-- `bloom_filter_lookup_and_insert`. -/
def lookupAndInsert (object : BloomFilter) (buffer : List UInt8) : Option (Bool × BloomFilter) :=
  object.lookupAndInsertHash (bloomFilterHash buffer)

end BloomFilter

/-- A call that inserts an element. -/
inductive BloomOp where
  | insert (buffer : List UInt8)
  | insertHash (hashval : UInt64)
  | lookupAndInsert (buffer : List UInt8)
  | lookupAndInsertHash (hashval : UInt64)
deriving DecidableEq, Repr

/-- The hash value that a call inserts. -/
def BloomOp.hash : BloomOp → UInt64
  | .insert buffer => bloomFilterHash buffer
  | .insertHash hashval => hashval
  | .lookupAndInsert buffer => bloomFilterHash buffer
  | .lookupAndInsertHash hashval => hashval

/-- What a call returns, if anything, and the filter that it leaves. -/
def BloomFilter.perform (object : BloomFilter) : BloomOp → Option (Option Bool × BloomFilter)
  | .insert buffer => (object.insert buffer).map fun object => (none, object)
  | .insertHash hashval => (object.insertHash hashval).map fun object => (none, object)
  | .lookupAndInsert buffer =>
    (object.lookupAndInsert buffer).map fun result => (some result.1, result.2)
  | .lookupAndInsertHash hashval =>
    (object.lookupAndInsertHash hashval).map fun result => (some result.1, result.2)

/-- The lookup of the element that a call inserts. -/
def BloomFilter.lookupOp (object : BloomFilter) : BloomOp → Option Bool
  | .insert buffer => object.lookup buffer
  | .insertHash hashval => object.lookupHash hashval
  | .lookupAndInsert buffer => object.lookup buffer
  | .lookupAndInsertHash hashval => object.lookupHash hashval

/-- The call leads from one filter to the other. -/
def BloomStep (object : BloomFilter) (op : BloomOp) (object' : BloomFilter) : Prop :=
  ∃ res, object.perform op = some (res, object')

end Demos.Algorithm
