import Demos.Lib.Search
import Demos.Oak.Text

/-!
# Views of strings

A `StringPiece` is a pointer to characters and their number, at most `kMaxSize`; the pointer may
be null. The searches read characters by 64-bit positions. A read beyond the view has no result, so
that a search with a result has read nothing outside the view and the text it looks for.
-/

namespace Demos.Oak

open Demos.Lib

/-- `StringPiece`: the characters at `ptr_`, of which there are `len_`, or a null pointer. -/
structure StringPiece where
  ptr : Option Bytes
  small : (ptr.getD []).length < 2 ^ 63

namespace StringPiece

/-- `npos`. -/
def npos : UInt64 := -1

/-- The characters of a view. -/
def chars (s : StringPiece) : Bytes := s.ptr.getD []

/-- `len_`. -/
def len (s : StringPiece) : UInt64 := UInt64.ofNat s.chars.length

/-- The number of tests that a search over the view may need. -/
def fuel (s : StringPiece) : ℕ := s.chars.length + 1

/-- `ptr_[pos]`. -/
def read (s : StringPiece) (pos : UInt64) : Option UInt8 := s.chars[pos.toNat]?

/-- The characters from a position on, if the view has as many. -/
def range (s : StringPiece) (pos n : UInt64) : Option Bytes :=
  if pos.toNat + n.toNat ≤ s.chars.length then some ((s.chars.drop pos.toNat).take n.toNat)
  else none

end StringPiece

/-- `memcmp`: the sign of the first difference between the bytes. -/
def memcmp : Bytes → Bytes → ℤ
  | a :: as, b :: bs => if a < b then -1 else if b < a then 1 else memcmp as bs
  | _, _ => 0

namespace StringPiece

/-- `traits_type::compare(ptr_ + pos, v.ptr_ + start, n)`. -/
def compareAt (s : StringPiece) (pos : UInt64) (v : StringPiece) (start n : UInt64) : Option ℤ := do
  return memcmp (← s.range pos n) (← v.range start n)

/-- `traits_type::find(ptr_ + pos, n, c)`, as a position. -/
def findAt (s : StringPiece) (pos n : UInt64) (c : UInt8) : Option (Option UInt64) := do
  return ((← s.range pos n).findIdx? (· = c)).map fun k => pos + UInt64.ofNat k

/-- The view has the character: `traits_type::find(v.ptr_, v.len_, c)` is not null. -/
def has (v : StringPiece) (c : UInt8) : Option Bool := do
  return (← v.findAt 0 v.len c).isSome

/-- The test of the loop of `find`: the first characters are equal, then the others. -/
def matchesAt (s v : StringPiece) (pos : UInt64) : Option Bool := do
  if (← s.read pos) = (← v.read 0) then return (← s.compareAt (pos + 1) v 1 (v.len - 1)) = 0
  else return false

/-- `find(StringPieceImpl, size_type)`. -/
def find (s v : StringPiece) (pos : UInt64) : Option UInt64 :=
  if v.len = 0 then some (if pos ≤ s.len then pos else npos)
  else if v.len ≤ s.len then do
    let found ← searchUp (fun pos => pos ≤ s.len - v.len) (s.matchesAt v) s.fuel pos
    return found.getD npos
  else some npos

/-- `find(Char, size_type)`. -/
def findChar (s : StringPiece) (c : UInt8) (pos : UInt64) : Option UInt64 :=
  if pos < s.len then do
    let found ← s.findAt pos (s.len - pos) c
    return found.getD npos
  else some npos

/-- `rfind(StringPieceImpl, size_type)`. -/
def rfind (s v : StringPiece) (pos : UInt64) : Option UInt64 :=
  if v.len ≤ s.len then do
    let found ← searchBack (fun pos => do return (← s.compareAt pos v 0 v.len) = 0) s.fuel
      (min (s.len - v.len) pos)
    return found.getD npos
  else some npos

/-- The loop of the searches for the last character that passes a test:
`for (pos = std::min(pos, len_ - 1) + 1; pos > 0; --pos)`. -/
def lastChar (s : StringPiece) (test : UInt8 → Option Bool) (pos : UInt64) : Option UInt64 := do
  let found ← searchDown (fun pos => do test (← s.read pos)) s.fuel (min pos (s.len - 1) + 1)
  return found.getD npos

/-- The loop of the searches for the first character that passes a test:
`for (; pos < len_; ++pos)`. -/
def firstChar (s : StringPiece) (test : UInt8 → Option Bool) (pos : UInt64) : Option UInt64 := do
  let found ← searchUp (fun pos => pos < s.len) (fun pos => do test (← s.read pos)) s.fuel pos
  return found.getD npos

/-- `rfind(Char, size_type)`. -/
def rfindChar (s : StringPiece) (c : UInt8) (pos : UInt64) : Option UInt64 :=
  if 0 < s.len then s.lastChar (fun ch => some (ch = c)) pos else some npos

/-- `find_first_of(StringPieceImpl, size_type)`. -/
def findFirstOf (s v : StringPiece) (pos : UInt64) : Option UInt64 :=
  if 0 < v.len then s.firstChar v.has pos else some npos

/-- `find_first_of(Char, size_type)`. -/
def findFirstOfChar (s : StringPiece) (c : UInt8) (pos : UInt64) : Option UInt64 := s.findChar c pos

/-- `find_last_of(StringPieceImpl, size_type)`. -/
def findLastOf (s v : StringPiece) (pos : UInt64) : Option UInt64 :=
  if 0 < s.len ∧ 0 < v.len then s.lastChar v.has pos else some npos

/-- `find_last_of(Char, size_type)`. -/
def findLastOfChar (s : StringPiece) (c : UInt8) (pos : UInt64) : Option UInt64 := s.rfindChar c pos

/-- `find_first_not_of(StringPieceImpl, size_type)`. -/
def findFirstNotOf (s v : StringPiece) (pos : UInt64) : Option UInt64 :=
  s.firstChar (fun ch => (v.has ch).map not) pos

/-- `find_first_not_of(Char, size_type)`. -/
def findFirstNotOfChar (s : StringPiece) (c : UInt8) (pos : UInt64) : Option UInt64 :=
  s.firstChar (fun ch => some (c ≠ ch)) pos

/-- `find_last_not_of(StringPieceImpl, size_type)`. -/
def findLastNotOf (s v : StringPiece) (pos : UInt64) : Option UInt64 :=
  if v.len = 0 then some (if s.len ≠ 0 then min pos (s.len - 1) else npos)
  else if 0 < s.len then s.lastChar (fun ch => (v.has ch).map not) pos
  else some npos

/-- `find_last_not_of(Char, size_type)`. -/
def findLastNotOfChar (s : StringPiece) (c : UInt8) (pos : UInt64) : Option UInt64 :=
  if 0 < s.len then s.lastChar (fun ch => some (c ≠ ch)) pos else some npos

end StringPiece

end Demos.Oak
