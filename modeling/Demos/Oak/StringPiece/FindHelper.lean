import Demos.Oak.StringPiece.Search

/-!
# The search that jumps between first characters

`FindHelper` looks for the first character of the needle, within the part of the haystack at which
the needle may begin, and compares the needle only there. A place that does not match is left behind
by one character. It finds what `find` finds, which compares at every position.
-/

namespace Demos.Oak.StringPiece

open Demos.Lib

/-- The loop of `FindHelper` from a position of the haystack on. -/
def findHelperLoop (haystack needle : StringPiece) (hayend : UInt64) :
    ℕ → UInt64 → Option (Option UInt64)
  | 0, _ => none
  | fuel + 1, pos => do
    let first ← needle.read 0
    match ← haystack.findAt pos (hayend - pos) first with
    | none => some none
    | some found =>
      if (← haystack.compareAt found needle 0 needle.len) = 0 then some (some found)
      else findHelperLoop haystack needle hayend fuel (found + 1)

/-- A pointer into the characters of a view; it is null if that of the view is. -/
def pointerAt (s : StringPiece) (pos : UInt64) : Option UInt64 := s.ptr.map fun _ => pos

/-- `FindHelper`: a pointer into the haystack as a position, or null. There is no result if it reads
outside of the haystack or of the needle. -/
def findHelper (haystack needle : StringPiece) : Option (Option UInt64) :=
  if needle.len = 0 then some (haystack.pointerAt 0)
  else if haystack.len < needle.len then some none
  else findHelperLoop haystack needle (haystack.len - needle.len + 1) haystack.fuel 0

variable {s v : StringPiece} {pos hayend : UInt64} {fuel : ℕ}

/-- A text that occurs begins with its first character. -/
theorem Occurs.hasAt_first {i : ℕ} {a : UInt8} {rest : Bytes} (hcons : v.chars = a :: rest)
    (hoccurs : Occurs v s i) : s.HasAt (· = a) i := by
  obtain ⟨-, t, ht⟩ := hoccurs
  refine ⟨a, ?_, rfl⟩
  rw [Option.mem_def, ← List.head?_drop, ← ht, hcons]
  rfl

/-- A view in which a text occurs has a pointer. -/
theorem Occurs.exists_ptr {i : ℕ} (hv : v.chars ≠ []) (hoccurs : Occurs v s i) :
    ∃ cs, s.ptr = some cs := by
  refine Option.ne_none_iff_exists'.mp fun hnull => hv ?_
  have hnil : s.chars = [] := by
    rw [chars, hnull]
    rfl
  have hle := hoccurs.le
  rw [hnil, List.length_nil, Nat.le_zero, Nat.add_eq_zero_iff] at hle
  exact List.length_eq_zero_iff.mp hle.2

/-- Comparing the needle within the haystack tells whether it occurs. -/
theorem exists_compareAt (hpos : pos.toNat + v.chars.length ≤ s.chars.length) :
    ∃ sign, s.compareAt pos v 0 v.len = some sign ∧ (sign = 0 ↔ Occurs v s pos.toNat) := by
  have hcompare := compareAt_occurs hpos
  cases hsign : s.compareAt pos v 0 v.len with
  | none => simp [hsign] at hcompare
  | some sign => exact ⟨sign, rfl, by simpa [hsign] using hcompare⟩

/-- The search goes on behind the first candidate if the needle does not occur there. -/
theorem setOf_occurs_eq_of_not_occurs {start found : ℕ} (hle : start ≤ found)
    (hleast : ∀ i, start ≤ i ∧ Occurs v s i → found ≤ i) (hnot : ¬ Occurs v s found) :
    {i | start ≤ i ∧ Occurs v s i} = {i | found + 1 ≤ i ∧ Occurs v s i} := by
  ext i
  refine and_congr_left fun hi => ⟨fun hstart => ?_, fun hlater => by omega⟩
  have hge : found ≤ i := hleast i ⟨hstart, hi⟩
  have hne : i ≠ found := fun heq => hnot (heq ▸ hi)
  omega

/-- The loop finds the least position from its start on at which the needle occurs. -/
theorem findHelperLoop_finds (hv : v.chars ≠ [])
    (hend : hayend.toNat + v.chars.length = s.chars.length + 1) (hpos : pos.toNat ≤ hayend.toNat)
    (hfuel : hayend.toNat - pos.toNat < fuel) :
    ∃ r, findHelperLoop s v hayend fuel pos = some r ∧
      Finds IsLeast {i | pos.toNat ≤ i ∧ Occurs v s i} r := by
  have hsmall : s.chars.length < 2 ^ 63 := s.small
  obtain ⟨a, rest, hcons⟩ := List.exists_cons_of_ne_nil hv
  have hlength : 0 < v.chars.length := List.length_pos_iff.mpr hv
  have hfirst : v.read 0 = some a := by simp [read, hcons]
  induction fuel generalizing pos with
  | zero => omega
  | succ fuel ih =>
    have hwindow : (hayend - pos).toNat = hayend.toNat - pos.toNat :=
      UInt64.toNat_sub_of_le _ _ (UInt64.le_iff_toNat_le.mpr hpos)
    obtain ⟨r, hr, hfinds⟩ := @findAt_finds s pos (hayend - pos) a (by omega)
    -- an occurrence is a place of the first character in the window
    have hplace {i : ℕ} (hle : pos.toNat ≤ i) (hoccurs : Occurs v s i) :
        i ∈ {i | pos.toNat ≤ i ∧ i < pos.toNat + (hayend - pos).toNat ∧ s.HasAt (· = a) i} := by
      have := hoccurs.le
      exact ⟨hle, by omega, hoccurs.hasAt_first hcons⟩
    cases r with
    | none =>
      refine ⟨none, by simp [findHelperLoop, hfirst, hr], ?_⟩
      refine Set.eq_empty_of_forall_notMem fun i hi => ?_
      exact Set.notMem_empty i ((Set.ext_iff.mp hfinds i).mp (hplace hi.1 hi.2))
    | some found =>
      obtain ⟨⟨hle, hlt, -⟩, hleast⟩ := hfinds
      obtain ⟨sign, hcompare, hzero⟩ := @exists_compareAt s v found (by omega)
      by_cases hoccurs : Occurs v s found.toNat
      · refine ⟨some found, ?_, ⟨hle, hoccurs⟩, fun i hi => hleast (hplace hi.1 hi.2)⟩
        simp [findHelperLoop, hfirst, hr, hcompare, hzero.mpr hoccurs]
      · have hnext : (found + 1).toNat = found.toNat + 1 := by
          rw [UInt64.toNat_add, UInt64.toNat_one]
          omega
        obtain ⟨r, hloop, hfinds⟩ := @ih (found + 1) (by omega) (by omega)
        rw [hnext] at hfinds
        refine ⟨r, ?_, ?_⟩
        swap
        · rwa [setOf_occurs_eq_of_not_occurs hle (fun i hi => hleast (hplace hi.1 hi.2)) hoccurs]
        simp [findHelperLoop, hfirst, hr, hcompare, mt hzero.mp hoccurs, hloop]

/-- The needle occurs at the position that `FindHelper` returns, and nowhere before. -/
theorem findHelper_finds (s v : StringPiece) (hv : v.chars ≠ []) :
    ∃ r, s.findHelper v = some r ∧ Finds IsLeast {i | Occurs v s i} r := by
  have hsmall : s.chars.length < 2 ^ 63 := s.small
  have hlength : 0 < v.chars.length := List.length_pos_iff.mpr hv
  rw [findHelper, if_neg (mt len_eq_zero_iff.mp hv)]
  split
  next hlt =>
    refine ⟨none, rfl, Set.eq_empty_of_forall_notMem fun i hoccurs => ?_⟩
    have hle := Occurs.le hoccurs
    rw [UInt64.lt_iff_toNat_lt, len_toNat, len_toNat] at hlt
    omega
  next hge =>
    have hle : v.len ≤ s.len := UInt64.not_lt.mp hge
    have hle' := len_le_iff.mp hle
    have hend : (s.len - v.len + 1).toNat = s.chars.length - v.chars.length + 1 := by
      rw [UInt64.toNat_add, toNat_len_sub hle, UInt64.toNat_one]
      omega
    have hfuel : (s.len - v.len + 1).toNat - (0 : UInt64).toNat < s.fuel := by
      rw [hend, fuel]
      omega
    have hwhole : (s.len - v.len + 1).toNat + v.chars.length = s.chars.length + 1 := by omega
    obtain ⟨r, hr, hfinds⟩ := findHelperLoop_finds hv hwhole (Nat.zero_le _) hfuel
    exact ⟨r, hr, by simpa using hfinds⟩

/-- The pointer that `FindHelper` returns is the one at the position that `find` returns. -/
theorem findHelper_pointer (s v : StringPiece) :
    ∃ i, s.find v 0 = some i ∧
      s.findHelper v = some (if i = npos then none else s.pointerAt i) := by
  obtain ⟨i, hfind, hleast⟩ := find_returns s v 0
  refine ⟨i, hfind, ?_⟩
  by_cases hv : v.chars = []
  · -- the empty needle is at the start
    have hzero : s.find v 0 = some 0 := find_nil hv UInt64.zero_le
    obtain rfl := Option.some.inj (hzero.symm.trans hfind)
    rw [findHelper, if_pos (len_eq_zero_iff.mpr hv), if_neg (by decide)]
  · obtain ⟨r, hhelper, hfinds⟩ := findHelper_finds s v hv
    rw [hhelper]
    simp only [UInt64.toNat_zero, Nat.zero_le, true_and] at hleast
    rcases hleast with ⟨rfl, hnone⟩ | ⟨hne, hleast⟩
    · cases r with
      | none => rfl
      | some j => exact absurd (hnone ▸ hfinds.1 : j.toNat ∈ (∅ : Set ℕ)) (Set.notMem_empty _)
    · cases r with
      | none => exact absurd (hfinds ▸ hleast.1 : i.toNat ∈ (∅ : Set ℕ)) (Set.notMem_empty _)
      | some j =>
        have hsame : j = i := UInt64.toNat_inj.mp (hfinds.unique hleast)
        obtain ⟨cs, hcs⟩ := Occurs.exists_ptr hv hleast.1
        simp [hne, pointerAt, hcs, hsame]

/-- `FindHelper` returns the pointer at the position that `find` returns, and null for `npos`. Only
a haystack whose own pointer is null gives null for a needle that is found. -/
theorem findHelper_eq_find (s v : StringPiece) :
    ∃ i r, s.find v 0 = some i ∧ s.findHelper v = some r ∧
      r = (if i = npos then none else s.pointerAt i) ∧
      (s.ptr.isSome → (r = none ↔ i = npos)) := by
  obtain ⟨i, hfind, hhelper⟩ := findHelper_pointer s v
  refine ⟨i, _, hfind, hhelper, rfl, fun hptr => ?_⟩
  have hpointer : s.pointerAt i ≠ none := by
    simpa [pointerAt, Option.ne_none_iff_isSome] using hptr
  by_cases hnpos : i = npos
  · simp [hnpos]
  · simp [hnpos, hpointer]

/-- The needle overlaps a partial match before it. -/
theorem findHelper_eq_find_overlap :
    findHelper ⟨some (ascii "aaab"), by decide⟩ ⟨some (ascii "aab"), by decide⟩ =
      some (some 1) := by
  obtain ⟨i, r, hfind, hhelper, rfl, -⟩ :=
    findHelper_eq_find ⟨some (ascii "aaab"), by decide⟩ ⟨some (ascii "aab"), by decide⟩
  have hone : find ⟨some (ascii "aaab"), by decide⟩ ⟨some (ascii "aab"), by decide⟩ 0 = some 1 := by
    decide
  obtain rfl := Option.some.inj (hone.symm.trans hfind)
  exact hhelper

end Demos.Oak.StringPiece
