import Mathlib.Algebra.Order.Ring.Int
import Mathlib.Data.List.Infix

/-!
# Byte strings

The program keeps its texts in `std::string`, a sequence of bytes. This module has the string
functions of the standard library that the configuration and the event code call, and the two
ways a call can end the process: an exception nobody catches and a failed assertion.
-/

namespace Demos.Oak

/-- A `std::string`. -/
abbrev Bytes := List UInt8

/-- The bytes of an ASCII literal of the source. -/
def ascii (s : String) : Bytes := s.toList.map fun c => c.toNat.toUInt8

/-- An uncaught exception or a failed assertion: the process ends. -/
inductive Fault where
  | invalidArgument
  | outOfRange
  | logicError (message : String)
  | assertion (message : String)
deriving DecidableEq, Repr

/-- `assert(condition && message)`. -/
def assert (condition : Prop) [Decidable condition] (message : String) : Except Fault Unit :=
  if condition then .ok () else .error (.assertion message)

@[simp]
theorem assert_eq_ok_iff {condition : Prop} [Decidable condition] {message : String} {u : Unit} :
    assert condition message = .ok u ↔ condition := by
  unfold assert
  split <;> simp [*]

/-- `s.rfind(c)`: the position of the last occurrence, or `npos`. -/
def rfind : Bytes → UInt8 → Option ℕ
  | [], _ => none
  | b :: rest, c =>
    match rfind rest c with
    | some pos => some (pos + 1)
    | none => if b = c then some 0 else none

/-- A byte that does not occur is not found. -/
theorem rfind_eq_none {s : Bytes} {c : UInt8} (h : c ∉ s) : rfind s c = none := by
  induction s with
  | nil => rfl
  | cons b rest ih =>
    obtain ⟨hb, hrest⟩ := List.ne_and_not_mem_of_not_mem_cons h
    rw [rfind, ih hrest]
    exact if_neg hb.symm

/-- The last occurrence of a byte is found. -/
theorem rfind_append_cons {pre post : Bytes} {c : UInt8} (h : c ∉ post) :
    rfind (pre ++ c :: post) c = some pre.length := by
  induction pre with
  | nil =>
    rw [List.nil_append, rfind, rfind_eq_none h]
    exact if_pos rfl
  | cons b pre ih =>
    rw [List.cons_append, rfind, ih]
    rfl

/-- A byte is found inside of a text. -/
theorem rfind_lt_length {s : Bytes} {c : UInt8} {pos : ℕ} (h : rfind s c = some pos) :
    pos < s.length := by
  induction s generalizing pos with
  | nil => cases h
  | cons b rest ih =>
    rw [rfind] at h
    split at h
    next before hbefore =>
      cases h
      exact Nat.succ_lt_succ (ih hbefore)
    next =>
      rw [Option.ite_none_right_eq_some] at h
      obtain rfl := Option.some.inj h.2
      exact Nat.succ_pos _

/-- `s.find(part) != npos`. -/
def contains (s part : Bytes) : Prop := part <:+: s

instance (s part : Bytes) : Decidable (contains s part) :=
  inferInstanceAs (Decidable (part <:+: s))

/-- `isspace` in the C locale. -/
def isSpace (b : UInt8) : Bool := b = 32 || (9 ≤ b && b ≤ 13)

/-- `isdigit`. -/
def isDigit (b : UInt8) : Bool := 48 ≤ b && b ≤ 57

/-- The number that a run of decimal digits denotes. -/
def digitsValue (digits : Bytes) : ℕ :=
  digits.foldl (fun value b => 10 * value + (b.toNat - 48)) 0

/-- The part of `strtol` after the sign: the longest run of digits, if there is one. -/
def parseDigits (s : Bytes) : Option ℕ :=
  let digits := s.takeWhile isDigit
  if digits.isEmpty then none else some (digitsValue digits)

/-- `strtol(s, &end, 10)` before the range check: white space, an optional sign and digits, and
whatever follows the digits is ignored. -/
def strtol (s : Bytes) : Option ℤ :=
  match s.dropWhile isSpace with
  | 45 :: rest => (parseDigits rest).map fun value => -(value : ℤ)
  | 43 :: rest => (parseDigits rest).map fun value => (value : ℤ)
  | rest => (parseDigits rest).map fun value => (value : ℤ)

/-- The conversions of `<string>` to a signed integer of the given width. -/
def stringToInt (bits : ℕ) (s : Bytes) : Except Fault ℤ :=
  match strtol s with
  | none => .error .invalidArgument
  | some value =>
    if -(2 ^ (bits - 1)) ≤ value ∧ value < 2 ^ (bits - 1) then .ok value else .error .outOfRange

/-- `std::stoi`. -/
def stoi : Bytes → Except Fault ℤ := stringToInt 32

/-- `std::stoll`. -/
def stoll : Bytes → Except Fault ℤ := stringToInt 64

/-- `Format("%ld", value)`. -/
def formatLd (value : ℤ) : Bytes := ascii (toString value)

/-- `Basename`: the part of the path from its last slash on, the slash included. -/
def basename (path : Bytes) : Bytes :=
  match rfind path 47 with
  | some pos => path.drop pos
  | none => path

example : basename (ascii "/opt/addons/http.so") = ascii "/http.so" := by decide

end Demos.Oak
