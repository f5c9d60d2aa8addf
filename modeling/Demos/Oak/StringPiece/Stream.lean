import Demos.Oak.StringPiece.Search

/-!
# Inserting a view into a stream

`operator<<` pads the view to the width of the stream, in pieces of 32 characters. It compares the
width as an unsigned number with the size, where the insertion of a `std::string` compares it as a
signed one. A negative width is a very large unsigned number, and the view is padded to that many
characters.
-/

namespace Demos.Oak

open Demos.Lib

/-- An output stream: whether a sentry lets operations pass, what was written, and the settings. The
bits of `adjustfield` are set one by one. -/
@[ext]
structure OStream where
  good : Bool
  out : Bytes
  width : Int64
  fill : UInt8
  left : Bool
  right : Bool
  internal : Bool
deriving DecidableEq

namespace OStream

/-- Characters go to the buffer of the stream. -/
def append (o : OStream) (text : Bytes) : OStream := { o with out := o.out ++ text }

/-- `write`. -/
def write (o : OStream) (buf : Bytes) (n : UInt64) : OStream :=
  if o.good then o.append (buf.take n.toNat) else o

/-- `(flags() & adjustfield) == left`. -/
def adjustsLeft (o : OStream) : Bool := o.left && !o.right && !o.internal

/-- A round of the loop leaves less to write. -/
theorem toNat_sub_min {pad : UInt64} (hpad : pad ≠ 0) :
    (min pad 32).toNat = min pad.toNat 32 ∧
      (pad - min pad 32).toNat = pad.toNat - min pad.toNat 32 ∧ 0 < pad.toNat := by
  have hmin : (min pad 32).toNat = min pad.toNat 32 := StringPiece.toNat_min pad 32
  have hle : min pad 32 ≤ pad := by
    rw [UInt64.le_iff_toNat_le, hmin]
    exact Nat.min_le_left _ _
  refine ⟨hmin, by rw [UInt64.toNat_sub_of_le _ _ hle, hmin], ?_⟩
  exact Nat.pos_of_ne_zero fun hzero => hpad (UInt64.toNat_inj.mp hzero)

/-- The loop of `WritePadding`. -/
def paddingLoop (fillBuf : Bytes) (o : OStream) (pad : UInt64) : OStream :=
  if pad ≠ 0 then
    let n := min pad 32
    paddingLoop fillBuf (o.write fillBuf n) (pad - n)
  else o
termination_by pad.toNat
decreasing_by
  have hround := toNat_sub_min ‹pad ≠ 0›
  omega

/-- `WritePadding`. -/
def writePadding (o : OStream) (pad : UInt64) : OStream :=
  paddingLoop (List.replicate 32 o.fill) o pad

/-- `operator<<` for a view. -/
def insertPiece (o : OStream) (v : StringPiece) : OStream :=
  if o.good then
    let (lpad, rpad) : UInt64 × UInt64 :=
      if o.width.toUInt64 > v.len then
        let pad := o.width.toUInt64 - v.len
        if o.adjustsLeft then (0, pad) else (pad, 0)
      else (0, 0)
    let o := if lpad ≠ 0 then o.writePadding lpad else o
    let o := o.write v.chars v.len
    let o := if rpad ≠ 0 then o.writePadding rpad else o
    { o with width := 0 }
  else o

/-- The insertion of a `std::string`: the text alone if the width is not larger, and otherwise with
fill characters up to the width, behind it if the stream adjusts to the left. -/
def insertString (o : OStream) (str : Bytes) : OStream :=
  if o.good then
    let padding := List.replicate (o.width.toInt - str.length).toNat o.fill
    { o.append (if o.adjustsLeft then str ++ padding else padding ++ str) with width := 0 }
  else o

variable {o : OStream} {pad : UInt64} {v : StringPiece} {str : Bytes}

@[simp]
theorem append_append (o : OStream) (a b : Bytes) : (o.append a).append b = o.append (a ++ b) := by
  simp [append]

@[simp]
theorem append_nil (o : OStream) : o.append [] = o := by
  simp [append]

theorem write_eq (hgood : o.good = true) (buf : Bytes) (n : UInt64) :
    o.write buf n = o.append (buf.take n.toNat) := if_pos hgood

/-- The loop writes as many fill characters as there are to write. -/
theorem paddingLoop_eq (hgood : o.good = true) (c : UInt8) (pad : UInt64) :
    paddingLoop (List.replicate 32 c) o pad = o.append (List.replicate pad.toNat c) := by
  induction h : pad.toNat using Nat.strong_induction_on generalizing o pad with
  | _ k ih =>
    subst h
    rw [paddingLoop]
    split
    next hpad =>
      obtain ⟨hmin, hrest, hpos⟩ := toNat_sub_min hpad
      have hnext := ih (pad - min pad 32).toNat (by omega)
        (o := o.append ((List.replicate 32 c).take (min pad 32).toNat)) hgood _ rfl
      have hbuf : (List.replicate 32 c).take (min pad 32).toNat ++
          List.replicate (pad - min pad 32).toNat c = List.replicate pad.toNat c := by
        rw [List.take_replicate, ← List.replicate_add, hmin, hrest]
        congr 1
        omega
      simp only [write_eq hgood]
      rw [hnext, append_append, hbuf]
    next hpad =>
      rw [not_not.mp hpad]
      simp

/-- `WritePadding` writes as many fill characters as it is told. -/
theorem writePadding_eq (hgood : o.good = true) (pad : UInt64) :
    o.writePadding pad = o.append (List.replicate pad.toNat o.fill) :=
  paddingLoop_eq hgood o.fill pad

/-- Nothing is padded where there is nothing to pad. -/
theorem ite_writePadding_eq (hgood : o.good = true) (pad : UInt64) :
    (if pad ≠ 0 then o.writePadding pad else o) =
      o.append (List.replicate pad.toNat o.fill) := by
  split
  next => exact writePadding_eq hgood pad
  next hpad =>
    rw [not_not.mp hpad]
    simp

/-- The view between its paddings. -/
theorem insert_between (hgood : o.good = true) (v : StringPiece) (lpad rpad : UInt64) :
    (let o := if lpad ≠ 0 then o.writePadding lpad else o
      let o := o.write v.chars v.len
      let o := if rpad ≠ 0 then o.writePadding rpad else o
      { o with width := 0 }) =
      { o.append (List.replicate lpad.toNat o.fill ++ v.chars ++
          List.replicate rpad.toNat o.fill) with width := 0 } := by
  have htake : v.chars.take v.len.toNat = v.chars := by
    rw [StringPiece.len_toNat, List.take_length]
  have hwrite : ∀ text, (o.append text).write v.chars v.len = o.append (text ++ v.chars) := by
    intro text
    rw [write_eq (o := o.append text) hgood, htake, append_append]
  have hlast : ∀ text, (if rpad ≠ 0 then (o.append text).writePadding rpad else o.append text) =
      o.append (text ++ List.replicate rpad.toNat o.fill) := by
    intro text
    rw [ite_writePadding_eq (o := o.append text) hgood, append_append]
    rfl
  simp only [ite_writePadding_eq hgood, hwrite, hlast]

/-- How many characters `operator<<` pads. -/
def padding (o : OStream) (v : StringPiece) : ℕ := o.width.toUInt64.toNat - v.chars.length

/-- What `operator<<` writes. -/
theorem insertPiece_eq (hgood : o.good = true) (v : StringPiece) :
    o.insertPiece v =
      { o.append (if o.adjustsLeft then v.chars ++ List.replicate (o.padding v) o.fill
          else List.replicate (o.padding v) o.fill ++ v.chars) with width := 0 } := by
  rw [insertPiece, if_pos hgood]
  by_cases hwide : o.width.toUInt64 > v.len
  · have hpad : (o.width.toUInt64 - v.len).toNat = o.padding v := by
      rw [UInt64.toNat_sub_of_le _ _ (UInt64.le_of_lt hwide), StringPiece.len_toNat, padding]
    cases hleft : o.adjustsLeft with
    | true =>
      simp only [hwide, if_true]
      rw [insert_between hgood, hpad]
      simp
    | false =>
      simp only [hwide, if_true, Bool.false_eq_true, if_false]
      rw [insert_between hgood, hpad]
      simp
  · have hpad : o.padding v = 0 := by
      rw [gt_iff_lt, UInt64.lt_iff_toNat_lt, StringPiece.len_toNat] at hwide
      exact Nat.sub_eq_zero_of_le (Nat.le_of_not_lt hwide)
    simp only [hwide, if_false]
    rw [insert_between hgood, hpad]
    simp

/-- A width as an unsigned number. -/
theorem toNat_toUInt64 (w : Int64) :
    (w.toUInt64.toNat : ℤ) = if 0 ≤ w.toInt then w.toInt else 2 ^ 64 + w.toInt := by
  have hint : w.toInt = if 2 * w.toUInt64.toNat < 2 ^ 64 then (w.toUInt64.toNat : ℤ)
      else w.toUInt64.toNat - 2 ^ 64 := BitVec.toInt_eq_toNat_cond w.toBitVec
  have hlt : w.toUInt64.toNat < 2 ^ 64 := w.toUInt64.toNat_lt
  rw [hint]
  split
  next => rw [if_pos (by omega)]
  next => rw [if_neg (by omega)]; omega

/-- The padding is the one of a `std::string` exactly if the width is not negative. -/
theorem padding_eq_iff (o : OStream) (v : StringPiece) :
    o.padding v = (o.width.toInt - v.chars.length).toNat ↔ 0 ≤ o.width.toInt := by
  have hwidth := toNat_toUInt64 o.width
  have hsmall : v.chars.length < 2 ^ 63 := v.small
  have hrange : -(2 ^ 63) ≤ o.width.toInt := o.width.le_toInt
  rw [padding]
  split at hwidth
  next hpos => exact iff_of_true (by omega) hpos
  next hneg => exact iff_of_false (by omega) hneg

/-- The insertion of a view is the one of a `std::string` with its characters if and only if the
width is not negative or the stream takes nothing. -/
theorem insertPiece_eq_insertString_iff (o : OStream) (v : StringPiece) :
    o.insertPiece v = o.insertString v.chars ↔ o.good = false ∨ 0 ≤ o.width.toInt := by
  cases hgood : o.good with
  | false => exact iff_of_true (by simp [insertPiece, insertString, hgood]) (.inl rfl)
  | true =>
    rw [insertPiece_eq hgood, insertString, if_pos hgood]
    simp only [Bool.true_eq_false, false_or]
    rw [← padding_eq_iff o v]
    constructor
    · intro heq
      have hlength := congrArg (fun o => o.out.length) heq
      cases hleft : o.adjustsLeft <;> simp only [hleft, append, List.length_append,
        List.length_replicate, Bool.false_eq_true, if_false, if_true] at hlength <;> omega
    · intro hpad
      rw [hpad]

/-- With the width -1 the view `a` is padded to the largest unsigned number of characters. -/
theorem insertPiece_negative :
    (OStream.mk true [] (-1) 0x20 false false false).insertString (ascii "a") =
        ⟨true, ascii "a", 0, 0x20, false, false, false⟩ ∧
      ((OStream.mk true [] (-1) 0x20 false false false).insertPiece
        ⟨some (ascii "a"), by decide⟩).out.length = 2 ^ 64 - 1 ∧
      (OStream.mk true [] (-1) 0x20 false false false).insertPiece ⟨some (ascii "a"), by decide⟩ ≠
        (OStream.mk true [] (-1) 0x20 false false false).insertString (ascii "a") := by
  have hstring : (OStream.mk true [] (-1) 0x20 false false false).insertString (ascii "a") =
      ⟨true, ascii "a", 0, 0x20, false, false, false⟩ := by decide
  have hpad : (OStream.mk true [] (-1) 0x20 false false false).padding
      ⟨some (ascii "a"), by decide⟩ = 2 ^ 64 - 2 := by decide
  have hlength : ((OStream.mk true [] (-1) 0x20 false false false).insertPiece
      ⟨some (ascii "a"), by decide⟩).out.length = 2 ^ 64 - 1 := by
    rw [insertPiece_eq rfl, hpad, if_neg (by decide)]
    simp only [append, List.nil_append, List.length_append, List.length_replicate]
    rfl
  refine ⟨hstring, hlength, fun heq => ?_⟩
  rw [heq, hstring] at hlength
  exact absurd hlength (by decide)

end OStream

end Demos.Oak
