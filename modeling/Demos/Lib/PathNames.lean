import Demos.Lib.Segments

/-!
# Names between separators

A path is a text of names between separators. Separators may be repeated and may stand at the end
without naming anything more; one at the start makes the path absolute. A path is read from its end:
it is a name, or another path followed by a separator, or another path followed by a separator and a
name. Without repeated and final separators it is spelled by its names.
-/

namespace Demos.Lib

variable {α : Type*} {sep c : α} {l p w : List α}

section Spelling

/-- The path begins with a separator. -/
def IsAbsolute (sep : α) (l : List α) : Prop := l.head? = some sep

instance [DecidableEq α] : Decidable (IsAbsolute sep l) := inferInstanceAs (Decidable (_ = _))

/-- The text of names, with or without a separator before the first. -/
def spell (sep : α) (absolute : Bool) (ns : List (List α)) : List α :=
  if absolute then ns.flatMap (sep :: ·) else (ns.flatMap (sep :: ·)).tail

@[simp]
theorem spell_nil (sep : α) (absolute : Bool) : spell sep absolute [] = [] := by
  cases absolute <;> rfl

/-- One more name. -/
theorem spell_concat {absolute : Bool} {ns : List (List α)} (h : absolute = true ∨ ns ≠ []) :
    spell sep absolute (ns ++ [w]) = spell sep absolute ns ++ sep :: w := by
  have hall : (ns ++ [w]).flatMap (sep :: ·) = ns.flatMap (sep :: ·) ++ sep :: w := by simp
  cases absolute with
  | true => exact hall
  | false =>
    obtain ⟨v, rest, rfl⟩ := List.exists_cons_of_ne_nil (h.resolve_left (by simp))
    simp [spell, List.flatMap_append]

/-- Names that are not empty are spelled by a text that is not empty. -/
theorem spell_ne_nil {absolute : Bool} {ns : List (List α)} (hns : ns ≠ [])
    (hmem : ∀ w ∈ ns, w ≠ []) : spell sep absolute ns ≠ [] := by
  obtain ⟨v, rest, rfl⟩ := List.exists_cons_of_ne_nil hns
  have hv : v ≠ [] := hmem v List.mem_cons_self
  cases absolute <;> simp [spell, hv]

theorem isAbsolute_append (hp : p ≠ []) : IsAbsolute sep (p ++ l) ↔ IsAbsolute sep p := by
  rw [IsAbsolute, List.head?_append_of_ne_nil p hp, IsAbsolute]

end Spelling

variable [DecidableEq α]

/-- The names of a path, in order. -/
def names (sep : α) (l : List α) : List (List α) := (l.splitOn sep).filter (· ≠ [])

/-- One separator in place of several. -/
def collapse (sep : α) (l : List α) : List α :=
  l.foldl (fun done c => if c = sep ∧ done.getLast? = some sep then done else done ++ [c]) []

/-- The path without repeated and final separators. -/
def strip (sep : α) (l : List α) : List α := dropFinal sep (collapse sep l)

/-- The number of separators at the end of a path. -/
def finalRun (sep : α) (l : List α) : ℕ := (l.rtakeWhile (· = sep)).length

section Names

@[simp]
theorem names_nil : names sep ([] : List α) = [] := by
  simp [names]

theorem names_of_notMem (hne : w ≠ []) (hw : sep ∉ w) : names sep w = [w] := by
  rw [names, List.splitOn_eq_singleton hw]
  simp [hne]

theorem names_append_cons (p l : List α) :
    names sep (p ++ sep :: l) = names sep p ++ names sep l := by
  rw [names, List.splitOn_append_cons_self, List.filter_append]
  rfl

@[simp]
theorem names_concat (p : List α) : names sep (p ++ [sep]) = names sep p := by
  rw [names_append_cons, names_nil, List.append_nil]

/-- A path from its end. -/
theorem path_induction (sep : α) {P : List α → Prop} (hnil : P [])
    (hname : ∀ w, w ≠ [] → sep ∉ w → P w) (hsep : ∀ p, P p → P (p ++ [sep]))
    (hchild : ∀ p w, w ≠ [] → sep ∉ w → P p → P (p ++ sep :: w)) (l : List α) : P l := by
  induction h : l.length using Nat.strong_induction_on generalizing l with
  | _ n ih =>
    subst h
    by_cases hmem : sep ∈ l
    · obtain ⟨p, w, rfl, hw⟩ := exists_last_cut hmem
      have hp : P p := ih p.length (by simp) p rfl
      by_cases hwne : w = []
      · subst hwne
        exact hsep p hp
      · exact hchild p w hwne hw hp
    · by_cases hl : l = []
      · exact hl ▸ hnil
      · exact hname l hl hmem

/-- A name is not empty and has no separator. -/
theorem of_mem_names (h : w ∈ names sep l) : w ≠ [] ∧ sep ∉ w := by
  induction l using path_induction sep with
  | hnil => simp at h
  | hname v hne hv =>
    rw [names_of_notMem hne hv, List.mem_singleton] at h
    exact h ▸ ⟨hne, hv⟩
  | hsep p ih => exact ih (by simpa using h)
  | hchild p v hne hv ih =>
    rw [names_append_cons, names_of_notMem hne hv, List.mem_append, List.mem_singleton] at h
    rcases h with h | rfl
    · exact ih h
    · exact ⟨hne, hv⟩

/-- A path that does not begin with a separator has a name. -/
theorem names_ne_nil (hne : l ≠ []) (hrel : ¬ IsAbsolute sep l) : names sep l ≠ [] := by
  induction l using path_induction sep with
  | hnil => exact absurd rfl hne
  | hname v hv hsep => simp [names_of_notMem hv hsep]
  | hsep p ih =>
    rw [names_concat]
    cases p with
    | nil => exact absurd rfl hrel
    | cons d p => exact ih (by simp) hrel
  | hchild p v hv hsep ih => simp [names_append_cons, names_of_notMem hv hsep]

end Names

section Strip

theorem finalRun_concat (l : List α) (c : α) :
    finalRun sep (l ++ [c]) = if c = sep then finalRun sep l + 1 else 0 := by
  rw [finalRun]
  split
  next hc => rw [List.rtakeWhile_concat_pos _ _ _ (by simpa using hc), List.length_append]; rfl
  next hc => rw [List.rtakeWhile_concat_neg _ _ _ (by simpa using hc)]; rfl

/-- A path ends with a separator if there is a run of them at its end. -/
theorem finalRun_pos_iff (l : List α) : 0 < finalRun sep l ↔ l.getLast? = some sep := by
  rcases l.eq_nil_or_concat' with rfl | ⟨l, c, rfl⟩
  · simp [finalRun]
  · rw [finalRun_concat, List.getLast?_concat]
    split <;> simp [*]

/-- There are no more separators at the end than elements. -/
theorem finalRun_le_length (l : List α) : finalRun sep l ≤ l.length :=
  (List.rtakeWhile_suffix _ l).length_le

theorem collapse_concat (l : List α) (c : α) : collapse sep (l ++ [c]) =
    if c = sep ∧ (collapse sep l).getLast? = some sep then collapse sep l
    else collapse sep l ++ [c] := by
  rw [collapse, List.foldl_append]
  rfl

/-- Collapsing keeps the last element. -/
theorem getLast?_collapse (l : List α) : (collapse sep l).getLast? = l.getLast? := by
  induction l using List.reverseRecOn with
  | nil => rfl
  | append_singleton l c ih =>
    rw [collapse_concat, List.getLast?_concat]
    split
    next h => rw [h.2, h.1]
    next => exact List.getLast?_concat

/-- Stripping only leaves elements out. -/
theorem strip_sublist (l : List α) : List.Sublist (strip sep l) l := by
  have hcollapse : List.Sublist (collapse sep l) l := by
    induction l using List.reverseRecOn with
    | nil => exact List.Sublist.refl _
    | append_singleton l c ih =>
      rw [collapse_concat]
      split
      · exact ih.trans (List.sublist_append_left l [c])
      · exact ih.append (List.Sublist.refl [c])
  refine List.Sublist.trans ?_ hcollapse
  rw [strip, dropFinal]
  split
  · exact List.dropLast_sublist _
  · exact List.Sublist.refl _

/-- At most one separator at the end is left to strip. -/
theorem length_collapse_le (l : List α) :
    (collapse sep l).length ≤ (strip sep l).length + 1 := by
  rw [strip, dropFinal]
  split
  · rw [List.length_dropLast]
    omega
  · exact Nat.le_succ _

/-- A separator is put behind what was stripped. -/
theorem collapse_concat_sep (p : List α) : collapse sep (p ++ [sep]) = strip sep p ++ [sep] := by
  rw [collapse_concat, strip, dropFinal]
  by_cases hlast : (collapse sep p).getLast? = some sep
  · rw [if_pos ⟨rfl, hlast⟩, if_pos hlast]
    exact (List.dropLast_append_getLast? sep hlast).symm
  · rw [if_neg fun h => hlast h.2, if_neg hlast]

/-- Elements that are no separators are kept. -/
theorem collapse_append (l : List α) (hw : sep ∉ w) :
    collapse sep (l ++ w) = collapse sep l ++ w := by
  induction w using List.reverseRecOn with
  | nil => simp
  | append_singleton w c ih =>
    rw [List.mem_append, List.mem_singleton, not_or] at hw
    rw [← List.append_assoc, collapse_concat, if_neg fun h => hw.2 h.1.symm, ih hw.1,
      List.append_assoc]

/-- Without two separators in a row nothing is collapsed. -/
theorem collapse_eq_self (h : ¬ [sep, sep] <:+: l) : collapse sep l = l := by
  induction l using List.reverseRecOn with
  | nil => rfl
  | append_singleton l c ih =>
    have hfront : collapse sep l = l :=
      ih fun hpair => h (hpair.trans (List.prefix_append l [c]).isInfix)
    rw [collapse_concat, hfront, if_neg]
    rintro ⟨rfl, hlast⟩
    obtain ⟨front, rfl⟩ := List.getLast?_eq_some_iff.mp hlast
    exact h ⟨front, [], by simp⟩

@[simp]
theorem strip_nil : strip sep ([] : List α) = [] := by
  simp [strip, collapse, dropFinal]

theorem dropFinal_append (l : List α) (hne : w ≠ []) (hw : sep ∉ w) :
    dropFinal sep (l ++ w) = l ++ w :=
  if_neg (getLast?_append_ne hne hw)

theorem strip_of_notMem (hne : w ≠ []) (hw : sep ∉ w) : strip sep w = w := by
  have hcollapse : collapse sep w = w := collapse_append [] hw
  rw [strip, hcollapse, ← List.nil_append w, dropFinal_append [] hne hw]

@[simp]
theorem strip_concat (p : List α) : strip sep (p ++ [sep]) = strip sep p := by
  rw [strip, collapse_concat_sep, dropFinal, if_pos List.getLast?_concat, List.dropLast_concat]

theorem strip_append_cons (p : List α) (hne : w ≠ []) (hw : sep ∉ w) :
    strip sep (p ++ sep :: w) = strip sep p ++ sep :: w := by
  have hcut : p ++ sep :: w = (p ++ [sep]) ++ w := by simp
  rw [strip, hcut, collapse_append _ hw, collapse_concat_sep, dropFinal_append _ hne hw]
  simp

/-- A stripped path is spelled by its names. -/
theorem strip_eq_spell (l : List α) :
    strip sep l = spell sep (IsAbsolute sep l) (names sep l) := by
  induction l using path_induction sep with
  | hnil => simp
  | hname w hne hw =>
    have hrel : ¬ IsAbsolute sep w := fun h => hw (List.mem_of_head? h)
    rw [strip_of_notMem hne hw, names_of_notMem hne hw]
    simp [spell, hrel]
  | hsep p ih =>
    rw [strip_concat, names_concat]
    by_cases hp : p = []
    · simp [hp]
    · have habs : IsAbsolute sep (p ++ [sep]) ↔ IsAbsolute sep p := isAbsolute_append hp
      simp only [habs, ih]
  | hchild p w hne hw ih =>
    rw [strip_append_cons p hne hw, names_append_cons, names_of_notMem hne hw]
    by_cases hp : p = []
    · simp [hp, spell, IsAbsolute]
    · have habs : IsAbsolute sep (p ++ sep :: w) ↔ IsAbsolute sep p := isAbsolute_append hp
      have hfirst : decide (IsAbsolute sep p) = true ∨ names sep p ≠ [] := by
        rw [decide_eq_true_eq, or_iff_not_imp_left]
        exact names_ne_nil hp
      simp only [habs, spell_concat hfirst, ih]

end Strip

end Demos.Lib
