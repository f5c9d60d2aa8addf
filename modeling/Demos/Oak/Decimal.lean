import Demos.Oak.Text
import Mathlib.Data.List.TakeWhile

/-!
# Decimal texts

Numbers travel between the threads as decimal texts: `Format("%ld", …)` writes them and the
conversions of `<string>` read them back. The round trip is exact for every number that fits.
-/

namespace Demos.Oak

/-- The byte of an ASCII character. -/
def byteOf (c : Char) : UInt8 := c.toNat.toUInt8

/-- A literal is the list of the bytes of its characters. -/
theorem ascii_eq (s : String) : ascii s = s.toList.map byteOf := rfl

/-- A digit keeps its code. -/
theorem toNat_byteOf {c : Char} (h : c.isDigit = true) : (byteOf c).toNat = c.toNat := by
  have hle : c.toNat ≤ 57 := by
    simp only [Char.isDigit, Bool.and_eq_true, decide_eq_true_eq] at h
    exact h.2
  have hsize : c.toNat < UInt8.size := lt_of_le_of_lt hle (by decide)
  rw [byteOf, Nat.toUInt8, UInt8.toNat_ofNat_of_lt' hsize]

/-- A digit is written as a digit. -/
theorem isDigit_byteOf {c : Char} (h : c.isDigit = true) : isDigit (byteOf c) = true := by
  have hnat := toNat_byteOf h
  simp only [Char.isDigit, Bool.and_eq_true, decide_eq_true_eq] at h
  simp only [isDigit, Bool.and_eq_true, decide_eq_true_eq, UInt8.le_iff_toNat_le, hnat]
  exact h

/-- The value of written digits is the value of the digits. -/
theorem digitsValue_map {digits : List Char} (h : ∀ c ∈ digits, c.isDigit = true) :
    digitsValue (digits.map byteOf) = Nat.ofDigitChars 10 digits 0 := by
  rw [digitsValue, Nat.ofDigitChars_eq_foldl, List.foldl_map]
  generalize (0 : ℕ) = init
  induction digits generalizing init with
  | nil => rfl
  | cons c rest ih =>
    rw [List.foldl_cons, List.foldl_cons, toNat_byteOf (h c (by simp))]
    exact ih (fun d hd => h d (by simp [hd])) _

/-- The decimal text of a natural number reads back as that number. -/
theorem parseDigits_repr (n : ℕ) : parseDigits (ascii n.repr) = some n := by
  have hdigits : ∀ c ∈ Nat.toDigits 10 n, c.isDigit = true :=
    fun c hc => Nat.isDigit_of_mem_toDigits (by omega) (by omega) hc
  have hall : ((Nat.toDigits 10 n).map byteOf).takeWhile isDigit =
      (Nat.toDigits 10 n).map byteOf := by
    rw [List.takeWhile_eq_self_iff]
    intro b hb
    obtain ⟨c, hc, rfl⟩ := List.mem_map.mp hb
    exact isDigit_byteOf (hdigits c hc)
  rw [ascii_eq, Nat.toList_repr, parseDigits, hall, digitsValue_map hdigits,
    Nat.ofDigitChars_ten_toDigits]
  simp [Nat.toDigits_ne_nil]

theorem exists_ascii_repr_eq_cons (n : ℕ) :
    ∃ b rest, ascii n.repr = b :: rest ∧ isDigit b = true := by
  obtain ⟨c, rest, hcons⟩ := List.exists_cons_of_ne_nil (Nat.toDigits_ne_nil (n := n) (b := 10))
  refine ⟨byteOf c, rest.map byteOf, by rw [ascii_eq, Nat.toList_repr, hcons, List.map_cons], ?_⟩
  exact isDigit_byteOf
    (Nat.isDigit_of_mem_toDigits (b := 10) (n := n) (by omega) (by omega) (by simp [hcons]))

/-- A text that starts with a digit has neither white space nor a sign before its digits. -/
theorem strtol_cons_of_isDigit {b : UInt8} {rest : Bytes} (h : isDigit b = true) :
    strtol (b :: rest) = (parseDigits (b :: rest)).map fun value => (value : ℤ) := by
  have hbounds : 48 ≤ b.toNat ∧ b.toNat ≤ 57 := by
    simpa [isDigit, UInt8.le_iff_toNat_le] using h
  have hspace : ¬ isSpace b = true := by
    simp only [isSpace, Bool.or_eq_true, Bool.and_eq_true, decide_eq_true_eq,
      UInt8.le_iff_toNat_le, ← UInt8.toNat_inj]
    simp
    omega
  rw [strtol, List.dropWhile_cons_of_neg hspace]
  split
  · rename_i heq
    obtain ⟨rfl, -⟩ := List.cons.inj heq
    simp at hbounds
  · rename_i heq
    obtain ⟨rfl, -⟩ := List.cons.inj heq
    simp at hbounds
  · rfl

/-- `strtol` reads back what `Format` wrote. -/
theorem strtol_formatLd (value : ℤ) : strtol (formatLd value) = some value := by
  cases value with
  | ofNat n =>
    obtain ⟨b, rest, hascii, hdigit⟩ := exists_ascii_repr_eq_cons n
    have hformat : formatLd (Int.ofNat n) = ascii n.repr := rfl
    rw [hformat, hascii, strtol_cons_of_isDigit hdigit, ← hascii, parseDigits_repr]
    rfl
  | negSucc n =>
    have hformat : formatLd (Int.negSucc n) = 45 :: ascii (n + 1).repr := by
      change ascii ("-" ++ (n + 1).repr) = _
      rw [ascii_eq, ascii_eq, String.toList_append]
      rfl
    rw [hformat, strtol, List.dropWhile_cons_of_neg (by decide)]
    simp only [parseDigits_repr]
    rfl

/-- A number of 64 bits survives the way through its text. -/
theorem stoll_formatLd {value : ℤ} (h : -2 ^ 63 ≤ value ∧ value < 2 ^ 63) :
    stoll (formatLd value) = .ok value := by
  rw [stoll, stringToInt, strtol_formatLd]
  exact if_pos h

end Demos.Oak
