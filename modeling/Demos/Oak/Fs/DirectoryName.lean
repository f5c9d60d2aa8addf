import Demos.Lib.PathNames
import Demos.Oak.Text

/-!
# The directory of a path

`DirectoryName` copies a path to an array of `PATH_MAX` bytes with one slash in place of several,
drops a slash at the end and cuts the rest before its last slash. This is the directory of a path
with a directory that is not the root. The root and what stands in it have the root as directory,
but the cut leaves nothing there, and a path that is too long is written behind the array.
-/

namespace Demos.Oak

open Demos.Lib

/-- `PATH_MAX`. -/
def pathMax : ℕ := 4096

/-- The text that a C string has, up to its terminator. -/
def cString (s : Bytes) : Bytes := s.takeWhile (· ≠ 0)

/-- The loop body of `DirectoryName`: the number of slashes in a row, which is an `int`, and the
bytes of the array that are written. -/
def directoryNameStep (state : ℕ × Bytes) (v : UInt8) : Option (ℕ × Bytes) :=
  let count := if v = 47 then state.1 + 1 else 0
  if 2 ^ 31 ≤ count then none
  else if 1 < count then some (count, state.2)
  else if state.2.length < pathMax then some (count, state.2 ++ [v])
  else none

/-- `DirectoryName`. There is no result for an empty path, if a byte is written outside of the
array, or if the number of slashes in a row is no `int`. -/
def directoryName (path : Bytes) : Option Bytes :=
  if path = [] then none
  else do
    let (_, realPath) ← path.foldlM directoryNameStep (0, [])
    let realPath := if realPath.getLast? = some 47 then realPath.dropLast else realPath
    -- the terminator needs a byte of the array, too
    if realPath.length < pathMax then
      match rfind (cString realPath) 47 with
      | some pos => return realPath.take pos
      | none => return ascii "."
    else none

/-- What `dirname` is to return: the names before the last one, or the root or the working directory
if there is no other name. -/
def posixDirname (path : Bytes) : Bytes :=
  let ns := (names 47 path).dropLast
  if ns = [] then if IsAbsolute 47 path then ascii "/" else ascii "."
  else spell 47 (IsAbsolute 47 path) ns

/-- The copy of the path fits into the array, and no `int` overflows. -/
def FitsPathMax (path : Bytes) : Prop :=
  (strip 47 path).length < pathMax ∧ ∀ p, p <+: path → finalRun 47 p < 2 ^ 31

variable {path : Bytes}

section Copy

/-- The loop writes no byte outside of the array, and no `int` overflows. -/
def Copied (path : Bytes) : Prop :=
  (collapse 47 path).length ≤ pathMax ∧ ∀ p, p <+: path → finalRun 47 p < 2 ^ 31

/-- One more byte is copied. -/
theorem copied_concat_iff (path : Bytes) (v : UInt8) : Copied (path ++ [v]) ↔
    Copied path ∧ (collapse 47 (path ++ [v])).length ≤ pathMax ∧
      finalRun 47 (path ++ [v]) < 2 ^ 31 := by
  have hlength : (collapse 47 path).length ≤ (collapse 47 (path ++ [v])).length := by
    rw [collapse_concat]
    split <;> simp
  constructor
  · rintro ⟨hfits, hruns⟩
    exact ⟨⟨hlength.trans hfits, fun p hp => hruns p (hp.trans (List.prefix_append _ _))⟩, hfits,
      hruns _ List.prefix_rfl⟩
  · rintro ⟨⟨-, hruns⟩, hfits, hrun⟩
    refine ⟨hfits, fun p hp => ?_⟩
    rcases List.prefix_concat_iff.mp hp with rfl | hp
    · exact hrun
    · exact hruns p hp

/-- The loop body keeps the copy of what stands before. -/
theorem directoryNameStep_eq (path : Bytes) (v : UInt8)
    (hfits : (collapse 47 path).length ≤ pathMax) :
    directoryNameStep (finalRun 47 path, collapse 47 path) v =
      if (collapse 47 (path ++ [v])).length ≤ pathMax ∧ finalRun 47 (path ++ [v]) < 2 ^ 31 then
        some (finalRun 47 (path ++ [v]), collapse 47 (path ++ [v]))
      else none := by
  have hrun : v = 47 ∧ (collapse 47 path).getLast? = some 47 ↔ 1 < finalRun 47 (path ++ [v]) := by
    rw [getLast?_collapse, ← finalRun_pos_iff, finalRun_concat]
    split <;> simp [*]
  rw [directoryNameStep, collapse_concat]
  simp only [hrun, ← finalRun_concat]
  split
  next hint => rw [if_neg fun h => absurd h.2 (Nat.not_lt.mpr hint)]
  next hint =>
    rw [Nat.not_le] at hint
    split
    next => rw [if_pos ⟨hfits, hint⟩]
    next => simp only [hint, and_true, List.length_append, List.length_singleton, Nat.succ_le_iff]

/-- The loop copies the path with one slash in place of several. -/
theorem directoryNameLoop_eq (path : Bytes) :
    (Copied path → path.foldlM directoryNameStep (0, []) =
      some (finalRun 47 path, collapse 47 path)) ∧
    (¬ Copied path → path.foldlM directoryNameStep (0, []) = none) := by
  induction path using List.reverseRecOn with
  | nil =>
    refine ⟨fun _ => rfl, fun h => absurd ⟨Nat.zero_le _, fun p hp => ?_⟩ h⟩
    rw [List.prefix_nil.mp hp]
    decide
  | append_singleton path v ih =>
    rw [copied_concat_iff, List.foldlM_append]
    by_cases hcopied : Copied path
    · have hstep : (do
          let state ← path.foldlM directoryNameStep (0, [])
          [v].foldlM directoryNameStep state) =
          directoryNameStep (finalRun 47 path, collapse 47 path) v := by
        rw [ih.1 hcopied]
        simp
      rw [hstep, directoryNameStep_eq path v hcopied.1]
      exact ⟨fun h => if_pos h.2, fun h => if_neg fun hnext => h ⟨hcopied, hnext⟩⟩
    · rw [ih.2 hcopied]
      exact ⟨fun h => absurd h.1 hcopied, fun _ => rfl⟩

end Copy

section Directory

theorem fitsPathMax_of_length_lt (h : path.length < pathMax) : FitsPathMax path := by
  refine ⟨(strip_sublist path).length_le.trans_lt h, fun p hp => ?_⟩
  calc finalRun 47 p ≤ p.length := finalRun_le_length p
    _ ≤ path.length := hp.length_le
    _ < pathMax := h
    _ < 2 ^ 31 := by decide

/-- What fits with its terminator was copied. -/
theorem fitsPathMax_iff (path : Bytes) :
    FitsPathMax path ↔ Copied path ∧ (strip 47 path).length < pathMax :=
  ⟨fun h => ⟨⟨(length_collapse_le path).trans h.1, h.2⟩, h.1⟩, fun h => ⟨h.2, h.1.2⟩⟩

theorem cString_eq_self {s : Bytes} (h : 0 ∉ s) : cString s = s :=
  List.takeWhile_eq_self_iff.mpr fun _ hb => decide_eq_true fun h0 => h (h0 ▸ hb)

/-- The result is a cut of the C string of the stripped path. -/
theorem directoryName_eq_of_fits (hne : path ≠ []) (hfits : FitsPathMax path) :
    directoryName path = some (match rfind (cString (strip 47 path)) 47 with
      | some pos => (strip 47 path).take pos
      | none => ascii ".") := by
  obtain ⟨hcopied, hlength⟩ := (fitsPathMax_iff path).mp hfits
  rw [directoryName, if_neg hne, (directoryNameLoop_eq path).1 hcopied]
  change (if (strip 47 path).length < pathMax then _ else _) = _
  rw [if_pos hlength]
  change (match rfind (cString (strip 47 path)) 47 with
    | some pos => _
    | none => _) = _
  split <;> rfl

/-- There is no result for a path that does not fit. -/
theorem directoryName_eq_none (hfits : ¬ FitsPathMax path) : directoryName path = none := by
  by_cases hne : path = []
  · exact if_pos hne
  rw [directoryName, if_neg hne]
  by_cases hcopied : Copied path
  · have hlength : ¬ (strip 47 path).length < pathMax :=
      fun h => hfits ((fitsPathMax_iff path).mpr ⟨hcopied, h⟩)
    rw [(directoryNameLoop_eq path).1 hcopied]
    exact if_neg hlength
  · rw [(directoryNameLoop_eq path).2 hcopied]
    rfl

/-- The result is the working directory or shorter than the path. -/
theorem directoryName_length {directory : Bytes} (h : directoryName path = some directory) :
    path ≠ [] ∧ (directory = ascii "." ∨ directory.length < path.length) := by
  have hne : path ≠ [] := by
    rintro rfl
    cases h
  have hfits : FitsPathMax path := by
    by_contra hfits
    rw [directoryName_eq_none hfits] at h
    cases h
  rw [directoryName_eq_of_fits hne hfits, Option.some.injEq] at h
  refine ⟨hne, ?_⟩
  split at h
  next pos hpos =>
    right
    calc directory.length ≤ pos := h ▸ List.length_take_le _ _
      _ < (cString (strip 47 path)).length := rfind_lt_length hpos
      _ ≤ (strip 47 path).length := (List.takeWhile_prefix _).length_le
      _ ≤ path.length := (strip_sublist path).length_le
  next => exact .inl h.symm

/-- The stripped path has a terminator only if the path has one. -/
theorem cString_strip (hnul : 0 ∉ path) : cString (strip 47 path) = strip 47 path :=
  cString_eq_self fun h => hnul ((strip_sublist path).subset h)

/-- The part before the last name is the result. -/
theorem directoryName_of_strip_eq (hne : path ≠ []) (hnul : 0 ∉ path) (hfits : FitsPathMax path)
    {front w : Bytes} (hstrip : strip 47 path = front ++ 47 :: w) (hw : 47 ∉ w) :
    directoryName path = some front := by
  rw [directoryName_eq_of_fits hne hfits, cString_strip hnul, hstrip, rfind_append_cons hw]
  simp

/-- Without a slash before a name, the result is the working directory. -/
theorem directoryName_of_notMem_strip (hne : path ≠ []) (hnul : 0 ∉ path) (hfits : FitsPathMax path)
    (hstrip : 47 ∉ strip 47 path) : directoryName path = some (ascii ".") := by
  rw [directoryName_eq_of_fits hne hfits, cString_strip hnul, rfind_eq_none hstrip]

/-- Names before the last one are the result, with the slash of an absolute path before them. -/
theorem directoryName_of_names (hne : path ≠ []) (hnul : 0 ∉ path) (hfits : FitsPathMax path)
    {ns : List Bytes} {w : Bytes} (hnames : names 47 path = ns ++ [w])
    (hdir : IsAbsolute 47 path ∨ ns ≠ []) :
    directoryName path = some (spell 47 (IsAbsolute 47 path) ns) := by
  have hw : 47 ∉ w := (of_mem_names (hnames ▸ List.mem_concat_self)).2
  refine directoryName_of_strip_eq hne hnul hfits ?_ hw
  rw [strip_eq_spell, hnames, spell_concat (hdir.imp_left decide_eq_true)]

/-- The root has the working directory as its result. -/
theorem directoryName_of_names_eq_nil (hne : path ≠ []) (hnul : 0 ∉ path) (hfits : FitsPathMax path)
    (hnames : names 47 path = []) : directoryName path = some (ascii ".") := by
  refine directoryName_of_notMem_strip hne hnul hfits ?_
  rw [strip_eq_spell, hnames, spell_nil]
  exact List.not_mem_nil

/-- One name in the working directory has it as its result. -/
theorem directoryName_of_name (hne : path ≠ []) (hnul : 0 ∉ path) (hfits : FitsPathMax path)
    {w : Bytes} (hnames : names 47 path = [w]) (hrel : ¬ IsAbsolute 47 path) :
    directoryName path = some (ascii ".") := by
  refine directoryName_of_notMem_strip hne hnul hfits ?_
  have hw : 47 ∉ w := (of_mem_names (hnames ▸ List.mem_singleton_self w)).2
  rw [strip_eq_spell, hnames]
  simpa [spell, hrel] using hw

end Directory

theorem posixDirname_ne_nil (path : Bytes) : posixDirname path ≠ [] := by
  rw [posixDirname]
  split
  next => split <;> decide
  next hns => exact spell_ne_nil hns fun w hw => (of_mem_names (List.mem_of_mem_dropLast hw)).1

/-- `DirectoryName` stays inside of its array if the path fits into it, and the result is the
directory of the path if the path is also not the root or something in the root. -/
theorem directoryName_eq_posixDirname_iff (hne : path ≠ []) (hnul : 0 ∉ path) :
    posixDirname path ≠ [] ∧ ((directoryName path).isSome ↔ FitsPathMax path) ∧
    (directoryName path = some (posixDirname path) ↔
      FitsPathMax path ∧ (IsAbsolute 47 path → 2 ≤ (names 47 path).length)) := by
  by_cases hfits : FitsPathMax path
  swap
  · simp [directoryName_eq_none hfits, hfits, posixDirname_ne_nil]
  refine ⟨posixDirname_ne_nil path, ?_, ?_⟩
  · simp [directoryName_eq_of_fits hne hfits, hfits]
  rcases List.eq_nil_or_concat (names 47 path) with hnames | ⟨ns, w, hnames⟩
  · -- only the root has no name
    have habs : IsAbsolute 47 path := by
      by_contra hrel
      exact names_ne_nil hne hrel hnames
    have hroot : ascii "." ≠ ascii "/" := by decide
    rw [directoryName_of_names_eq_nil hne hnul hfits hnames, posixDirname]
    simp [hnames, habs, hroot]
  · rw [List.concat_eq_append] at hnames
    by_cases hns : ns = []
    · subst hns
      by_cases habs : IsAbsolute 47 path
      · have hroot : [] ≠ ascii "/" := by decide
        rw [directoryName_of_names hne hnul hfits hnames (.inl habs), posixDirname]
        simp [hnames, habs, hroot]
      · rw [directoryName_of_name hne hnul hfits hnames habs, posixDirname]
        simp [hnames, habs, hfits]
    · have hlength : 1 ≤ ns.length := List.length_pos_iff.mpr hns
      rw [directoryName_of_names hne hnul hfits hnames (.inr hns), posixDirname]
      simp [hnames, hns, hfits, hlength]

/-- The directory of a file of the configuration. -/
theorem directoryName_eq_posixDirname_iff_conf :
    directoryName (ascii "conf//oak.json") = some (posixDirname (ascii "conf//oak.json")) :=
  (directoryName_eq_posixDirname_iff (by decide) (by decide)).2.2.mpr
    ⟨fitsPathMax_of_length_lt (by decide), fun h => absurd h (by decide)⟩

/-- A name that is as long as the array is written behind it. -/
theorem directoryName_of_long_name {w : Bytes} (hw : 47 ∉ w) (hlong : pathMax ≤ w.length) :
    directoryName w = none := by
  refine directoryName_eq_none fun h => ?_
  have hne : w ≠ [] := List.length_pos_iff.mp (Nat.lt_of_lt_of_le (by decide) hlong)
  have hlength : (strip 47 w).length < pathMax := h.1
  rw [strip_of_notMem hne hw] at hlength
  omega

/-- The root and a directory in the root have the root as directory, but the result is the working
directory for the one and the empty text for the other. A name of `PATH_MAX` bytes is written behind
the array. -/
theorem directoryName_root : directoryName (ascii "/") = some (ascii ".") ∧
    posixDirname (ascii "/") = ascii "/" ∧ directoryName (ascii "/tmp") = some [] ∧
    posixDirname (ascii "/tmp") = ascii "/" ∧ directoryName (List.replicate pathMax 97) = none := by
  refine ⟨by decide, by decide, by decide, by decide, directoryName_of_long_name ?_ ?_⟩
  · exact fun h => absurd (List.eq_of_mem_replicate h) (by decide)
  · exact List.length_replicate.ge

end Demos.Oak
