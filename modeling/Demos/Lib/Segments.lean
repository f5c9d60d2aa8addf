import Demos.Lib.Scan

/-!
# Segments that a separator ends

A separator stands between two segments or behind the last one. So the empty text has no segment,
and one separator at the end begins none. A text is read segment by segment: what stands before the
first separator is the first segment, and the text behind it has the others.
-/

namespace Demos.Lib

variable {α : Type*} [DecidableEq α] {sep : α} {pre post l : List α}

/-- The text without one separator at its end. -/
def dropFinal (sep : α) (l : List α) : List α :=
  if l.getLast? = some sep then l.dropLast else l

/-- The segments of a text. -/
def segments (sep : α) (l : List α) : List (List α) :=
  if l = [] then [] else (dropFinal sep l).splitOn sep

@[simp]
theorem segments_nil : segments sep ([] : List α) = [] := if_pos rfl

/-- A text without a separator is one segment. -/
theorem segments_of_notMem (hne : l ≠ []) (hsep : sep ∉ l) : segments sep l = [l] := by
  have hlast : l.getLast? ≠ some sep := fun h => hsep (List.mem_of_getLast? h)
  rw [segments, if_neg hne, dropFinal, if_neg hlast, List.splitOn_eq_singleton hsep]

/-- A separator at the end is one of the text behind an earlier separator, if there is any. -/
theorem dropFinal_append_cons (hne : post ≠ []) :
    dropFinal sep (pre ++ sep :: post) = pre ++ sep :: dropFinal sep post := by
  have hlast : (pre ++ sep :: post).getLast? = post.getLast? := by
    rw [List.getLast?_append_cons, List.getLast?_cons_of_ne_nil hne]
  rw [dropFinal, dropFinal, hlast]
  split
  · rw [List.dropLast_append_of_ne_nil (List.cons_ne_nil sep post),
      List.dropLast_cons_of_ne_nil hne]
  · rfl

/-- The first segment ends at the first separator. -/
theorem segments_append_cons (hsep : sep ∉ pre) :
    segments sep (pre ++ sep :: post) = pre :: segments sep post := by
  have hne : pre ++ sep :: post ≠ [] := by simp
  rw [segments, if_neg hne]
  by_cases hpost : post = []
  · -- the separator is the last byte, and nothing begins behind it
    subst hpost
    rw [segments_nil, dropFinal, if_pos List.getLast?_concat, List.dropLast_concat,
      List.splitOn_eq_singleton hsep]
  · have hpre : ∀ x ∈ pre, (x == sep) = false :=
      fun x hx => beq_false_of_ne fun heq => hsep (heq ▸ hx)
    rw [dropFinal_append_cons hpost, segments, if_neg hpost, List.splitOn_eq_splitOnP,
      List.splitOnP_append_cons_of_forall_mem hpre sep (beq_self_eq_true sep),
      ← List.splitOn_eq_splitOnP]

end Demos.Lib
