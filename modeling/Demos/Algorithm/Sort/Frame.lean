import Demos.Algorithm.Sort.Refinement
import Mathlib.Data.List.Nodup

/-!
# Merging segments that stand inside of an array

`Merge` takes two segments of an array, which begin at `b`, and copies their merging back. The loop
that copies starts at the beginning of the array instead of at `b`. So the segments are replaced by
their merging if they begin the array, which is how `MergeSort` calls it; otherwise the elements
before them are overwritten.
-/

namespace Demos.Algorithm

open Demos.Lib

variable {α : Type*} {compare le : α → α → Bool} {a : List α} {b m e : ℕ}

/-- The elements from an index up to another one. -/
def segment (a : List α) (i j : ℕ) : List α := (a.take j).drop i

/-- The segments hold their merging and the rest of the array is as before. -/
def mergedInPlace (compare : α → α → Bool) (a : List α) (b m e : ℕ) : List α :=
  a.take b ++ (segment a b m).merge (segment a m e) compare ++ a.drop e

/-- A segment continues what stands before it. -/
theorem take_append_segment {i j : ℕ} (hij : i ≤ j) : a.take i ++ segment a i j = a.take j := by
  have hcut := List.take_append_drop i (a.take j)
  rwa [List.take_take, Nat.min_eq_left hij] at hcut

/-- Two segments that follow each other are one. -/
theorem segment_append_segment (hbm : b ≤ m) (hme : m ≤ e) :
    segment a b m ++ segment a m e = segment a b e := by
  refine (List.append_right_inj (a.take b)).mp ?_
  rw [← List.append_assoc, take_append_segment hbm, take_append_segment hme,
    take_append_segment (hbm.trans hme)]

theorem length_segment {i j : ℕ} (hj : j ≤ a.length) : (segment a i j).length = j - i := by
  simp [segment, hj]

/-- `Merge` copies the merging of its segments to the start of the array. -/
theorem merge_segments (hbm : b ≤ m) (hme : m ≤ e) (hea : e ≤ a.length) :
    merge compare a 0 b m e =
      some ((segment a b m).merge (segment a m e) compare ++ a.drop (e - b)) := by
  have hb : (a.take b).length = b := List.length_take_of_le (by omega)
  have hfirst : (segment a b m).length = m - b := length_segment (by omega)
  have hsecond : (segment a m e).length = e - m := length_segment hea
  have hm : b + (m - b) = m := by omega
  have he : m + (e - m) = e := by omega
  have hn : m - b + (e - m) = e - b := by omega
  have hcut : a.take b ++ (segment a b m ++ segment a m e) = a.take e := by
    rw [segment_append_segment hbm hme, take_append_segment (hbm.trans hme)]
  have hmerge := @merge_eq α compare [] (a.take b) (segment a b m) (segment a m e) (a.drop e)
  rw [hcut, hb, hfirst, hsecond, hm, he, hn, List.nil_append, List.nil_append, List.length_nil,
    List.take_append_drop] at hmerge
  have hrest : (a.take e).drop (e - b) ++ a.drop e = a.drop (e - b) := by
    rw [← List.drop_append_of_le_length (by rw [List.length_take_of_le hea]; omega),
      List.take_append_drop]
  rw [hmerge, List.append_assoc, hrest]

/-- Segments at the start of the array, or without elements, are merged in place. -/
theorem merge_inPlace (hbm : b ≤ m) (hme : m ≤ e) (hea : e ≤ a.length) (hb : b = 0 ∨ b = e) :
    merge compare a 0 b m e = some (mergedInPlace compare a b m e) := by
  rw [merge_segments hbm hme hea, mergedInPlace]
  rcases hb with rfl | rfl
  · simp
  · obtain rfl : m = b := by omega
    simp [segment]

theorem mem_drop_of_mem_segment {i j : ℕ} {x : α} (hbi : b ≤ i) (hx : x ∈ segment a i j) :
    x ∈ a.drop b := by
  rw [segment, List.drop_take] at hx
  exact List.drop_subset_drop_left a hbi (List.mem_of_mem_take hx)

/-- Segments that stand behind another element are not merged in place if no element is repeated:
the first element of the array is replaced by one of theirs. -/
theorem merge_not_inPlace (hbm : b ≤ m) (hme : m ≤ e) (hea : e ≤ a.length) (ha : a.Nodup)
    (hb : 0 < b) (hbe : b < e) :
    merge compare a 0 b m e ≠ some (mergedInPlace compare a b m e) := by
  have hlength : ((segment a b m).merge (segment a m e) compare).length = e - b := by
    rw [List.length_merge, length_segment (by omega), length_segment hea]
    omega
  have hfront : (a.take b).length = b := List.length_take_of_le (by omega)
  obtain ⟨x, z, hz⟩ := List.exists_cons_of_length_pos (hlength ▸ Nat.sub_pos_of_lt hbe)
  obtain ⟨y, rest, hy⟩ := List.exists_cons_of_length_pos (hfront.symm ▸ hb)
  rw [merge_segments hbm hme hea, mergedInPlace, hz, hy]
  intro hsame
  obtain ⟨rfl, -⟩ := List.cons.inj (Option.some.inj hsame)
  have hbehind : x ∈ a.drop b := by
    have hmem : x ∈ (segment a b m).merge (segment a m e) compare := hz ▸ List.mem_cons_self
    rcases List.mem_merge.mp hmem with hmem | hmem
    · exact mem_drop_of_mem_segment le_rfl hmem
    · exact mem_drop_of_mem_segment hbm hmem
  exact List.disjoint_take_drop ha le_rfl (hy ▸ List.mem_cons_self) hbehind

/-- Two segments in order are merged in order by `Merge`, but their merging is copied to the start
of the array. It stands in their place, with the rest of the array unchanged, if they begin there or
have no element, and only then if no element of the array is repeated. -/
theorem merge_inPlace_iff (hle : IsPreorder le) (hleft : ∀ x y, compare x y = true → le x y = true)
    (hright : ∀ x y, compare x y = false → le y x = true) (a : List α) (b m e : ℕ) (hbm : b ≤ m)
    (hme : m ≤ e) (hea : e ≤ a.length) (hfirst : InOrder le (segment a b m))
    (hsecond : InOrder le (segment a m e)) :
    ∃ z, z = (segment a b m).merge (segment a m e) compare ∧ z.Perm (segment a b e) ∧
      InOrder le z ∧ merge compare a 0 b m e = some (z ++ a.drop (e - b)) ∧
      (b = 0 ∨ b = e → merge compare a 0 b m e = some (a.take b ++ z ++ a.drop e)) ∧
      (a.Nodup → (merge compare a 0 b m e = some (a.take b ++ z ++ a.drop e) ↔ b = 0 ∨ b = e)) := by
  refine ⟨_, rfl, ?_, inOrder_merge hle hleft hright hfirst hsecond, merge_segments hbm hme hea,
    merge_inPlace hbm hme hea, fun ha => ⟨fun hmerge => ?_, merge_inPlace hbm hme hea⟩⟩
  · rw [← segment_append_segment hbm hme]
    exact List.merge_perm_append ..
  · by_contra hinside
    exact merge_not_inPlace hbm hme hea ha (by omega) (by omega) hmerge

/-- Two segments at the start of an array. -/
theorem merge_inPlace_iff_start :
    merge (fun x y : ℕ => decide (x ≤ y)) [2, 5, 3, 4, 1] 0 0 2 4 = some [2, 3, 4, 5, 1] := by
  obtain ⟨z, rfl, -, -, -, hmerge, -⟩ := merge_inPlace_iff .nat_le (fun _ _ => id)
    (fun x y hlt => by simp at *; omega) [2, 5, 3, 4, 1] 0 2 4 (by decide) (by decide) (by decide)
    (by simp [InOrder, segment]) (by simp [InOrder, segment])
  rw [hmerge (.inl rfl)]
  simp [segment]

/-- The segments of one element behind a larger one are in order, and `Merge` overwrites the larger
one. -/
theorem merge_overwrites :
    InOrder (fun x y : ℕ => decide (x ≤ y)) (segment [5, 1, 2] 1 2) ∧
      InOrder (fun x y : ℕ => decide (x ≤ y)) (segment [5, 1, 2] 2 3) ∧
      merge (fun x y : ℕ => decide (x ≤ y)) [5, 1, 2] 0 1 2 3 = some [1, 2, 2] ∧
      mergedInPlace (fun x y : ℕ => decide (x ≤ y)) [5, 1, 2] 1 2 3 = [5, 1, 2] := by
  refine ⟨inOrder_of_short (by decide), inOrder_of_short (by decide), ?_, ?_⟩
  · rw [merge_segments (by decide) (by decide) (by decide)]
    simp [segment]
  · simp [mergedInPlace, segment]

end Demos.Algorithm
