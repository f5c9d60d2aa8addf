import Mathlib.Data.List.DropRight
import Mathlib.Data.List.Infix

/-!
# Scanning lists

A text is scanned up to the first element that passes a test or up to the first place of another
text. What is read is known when the text is given as the part before that place and the part from
there on. Trimming removes elements at the ends; it leaves a list whose ends are kept.
-/

namespace Demos.Lib

variable {α : Type*} {p : α → Bool} {pre post l : List α} {c : α}

/-- The list is empty or starts with an element that passes the test. -/
def Stops (p : α → Bool) (l : List α) : Prop := ∀ c ∈ l.head?, p c = true

/-- The position of the first element that passes a test. -/
theorem findIdx?_append_cons (hpre : ∀ x ∈ pre, p x = false) (hc : p c = true) :
    (pre ++ c :: post).findIdx? p = some pre.length := by
  induction pre with
  | nil => simp [List.findIdx?_cons, hc]
  | cons x pre ih =>
    have hx : p x = false := hpre x List.mem_cons_self
    have hrest := ih fun y hy => hpre y (List.mem_cons_of_mem x hy)
    simp [List.findIdx?_cons, hx, hrest]

/-- A list is cut at the first element that passes a test. -/
theorem exists_cut (p : α → Bool) (l : List α) :
    ∃ pre post, l = pre ++ post ∧ (∀ x ∈ pre, p x = false) ∧ Stops p post := by
  refine ⟨l.takeWhile (!p ·), l.dropWhile (!p ·), List.takeWhile_append_dropWhile.symm, ?_, ?_⟩
  · intro x hx
    simpa using List.mem_takeWhile_imp hx
  · intro c hc
    have hnot := List.head?_dropWhile_not (!p ·) l
    simpa [Option.mem_def.mp hc] using hnot

/-- A list is cut at the last place of an element. -/
theorem exists_last_cut (h : c ∈ l) : ∃ pre post, l = pre ++ c :: post ∧ c ∉ post := by
  obtain ⟨post, pre, hl, hpost⟩ := List.eq_append_cons_of_mem (List.mem_reverse.mpr h)
  refine ⟨pre.reverse, post.reverse, ?_, by simpa using hpost⟩
  rw [← List.reverse_reverse l, hl]
  simp

/-- The first part of a cut ends where the first element is found. -/
theorem take_findIdx? (hpre : ∀ x ∈ pre, p x = false) (hpost : Stops p post) :
    (pre ++ post).take (((pre ++ post).findIdx? p).getD (pre ++ post).length) = pre ∧
      (pre ++ post).drop (((pre ++ post).findIdx? p).getD (pre ++ post).length) = post := by
  cases post with
  | nil =>
    have hnone : pre.findIdx? p = none := List.findIdx?_eq_none_iff.mpr hpre
    simp [hnone]
  | cons c post =>
    rw [findIdx?_append_cons hpre (hpost c rfl)]
    simp

/-- Dropping from the front stops where an element is kept. -/
theorem dropWhile_append_stops (hpost : Stops (!p ·) post) :
    (pre ++ post).dropWhile p = pre.dropWhile p ++ post := by
  induction pre with
  | nil =>
    cases post with
    | nil => rfl
    | cons c post =>
      have hc : p c = false := by simpa using hpost c rfl
      simp [hc]
  | cons x pre ih =>
    simp only [List.cons_append, List.dropWhile_cons]
    split
    next => exact ih
    next => rfl

/-- Dropping from the back stops where an element is kept. -/
theorem rdropWhile_append_cons (hc : p c = false) :
    (pre ++ c :: post).rdropWhile p = pre ++ c :: post.rdropWhile p := by
  induction post using List.reverseRecOn with
  | nil => simp [hc]
  | append_singleton post x ih =>
    rw [← List.cons_append, ← List.append_assoc]
    by_cases hx : p x = true
    · rw [List.rdropWhile_concat_pos _ _ _ hx, List.rdropWhile_concat_pos _ _ _ hx, ih]
    · rw [List.rdropWhile_concat_neg _ _ _ hx, List.rdropWhile_concat_neg _ _ _ hx]
      simp

/-- The last element of two lists is one of the second list. -/
theorem getLast?_append_ne (hne : post ≠ []) (hc : c ∉ post) :
    (pre ++ post).getLast? ≠ some c := by
  intro hlast
  rw [List.getLast?_append_of_ne_nil pre hne] at hlast
  exact hc (List.mem_of_getLast? hlast)

/-- Trimming at the front, at the back or at both ends. -/
def trimEnds (p : α → Bool) (front back : Bool) (l : List α) : List α :=
  let l := if back then l.rdropWhile p else l
  if front then l.dropWhile p else l

variable {front back : Bool}

/-- What is left after trimming was there. -/
theorem trimEnds_isInfix : trimEnds p front back l <:+: l := by
  have hback : (if back then l.rdropWhile p else l) <:+: l := by
    cases back with
    | false => exact List.infix_rfl
    | true => exact List.IsPrefix.isInfix <| List.rdropWhile_prefix p l
  cases front with
  | false => exact hback
  | true => exact (List.dropWhile_suffix p).isInfix.trans hback

/-- Nothing is trimmed exactly if nothing is trimmed at each end. -/
theorem trimEnds_eq_self_iff : trimEnds p front back l = l ↔
    (front = true → l.dropWhile p = l) ∧ (back = true → l.rdropWhile p = l) := by
  constructor
  · intro hself
    have hback : back = true → l.rdropWhile p = l := by
      rintro rfl
      have hshort : trimEnds p front true l <:+: l.rdropWhile p := by
        cases front with
        | false => exact List.infix_rfl
        | true => exact (List.dropWhile_suffix p).isInfix
      rw [hself] at hshort
      have hstart : l.rdropWhile p <+: l := List.rdropWhile_prefix p l
      exact hstart.eq_of_length_le hshort.length_le
    refine ⟨?_, hback⟩
    rintro rfl
    cases back with
    | false => exact hself
    | true => rwa [trimEnds, if_pos rfl, if_pos rfl, hback rfl] at hself
  · rintro ⟨hfront, hback⟩
    have hrest : (if back then l.rdropWhile p else l) = l := by
      cases back with
      | false => rfl
      | true => exact hback rfl
    cases front with
    | false => exact hrest
    | true => rw [trimEnds, hrest, if_pos rfl, hfront rfl]

/-- A list that starts with an element that is kept is trimmed after it. -/
theorem trimEnds_cons (hc : p c = false) :
    trimEnds p front back (c :: l) = c :: trimEnds p false back l := by
  have hback : (c :: l).rdropWhile p = c :: l.rdropWhile p :=
    @rdropWhile_append_cons _ p [] l c hc
  cases front <;> cases back <;> simp [trimEnds, hback, hc]

/-- A part that starts with an element that is kept is trimmed at the back only, and what stands
before it is trimmed there only if the part is empty. -/
theorem trimEnds_append_stops (hpost : Stops (!p ·) post) :
    trimEnds p front back (pre ++ post) =
      trimEnds p front (back && post.isEmpty) pre ++ trimEnds p false back post := by
  cases post with
  | nil => cases front <;> cases back <;> simp [trimEnds]
  | cons c post =>
    have hc : p c = false := by simpa using hpost c rfl
    have hstops : ∀ rest, Stops (!p ·) (c :: rest) := fun rest x hx => by
      obtain rfl : c = x := by simpa using hx
      simpa using hc
    rw [trimEnds_cons hc]
    cases front <;> cases back <;>
      simp [trimEnds, rdropWhile_append_cons hc, dropWhile_append_stops (hstops _)]

/-- None of the elements occurs in the list. -/
def Avoids (chars l : List α) : Prop := ∀ c ∈ l, c ∉ chars

variable {chars : List α}

instance [DecidableEq α] : Decidable (Avoids chars l) :=
  inferInstanceAs (Decidable (∀ c ∈ l, c ∉ chars))

theorem avoids_nil : Avoids chars [] := by simp [Avoids]

/-- The elements do not occur in two lists one after the other. -/
theorem Avoids.append (hpre : Avoids chars pre) (hpost : Avoids chars post) :
    Avoids chars (pre ++ post) :=
  List.forall_mem_append.mpr ⟨hpre, hpost⟩

/-- The elements do not occur in a longer list. -/
theorem Avoids.cons (hc : c ∉ chars) (hl : Avoids chars l) : Avoids chars (c :: l) :=
  List.forall_mem_cons.mpr ⟨hc, hl⟩

/-- One more element does not occur. -/
theorem Avoids.insert (hl : Avoids chars l) (hc : c ∉ l) : Avoids (c :: chars) l := by
  intro x hx hmem
  obtain rfl | hmem := List.mem_cons.mp hmem
  · exact hc hx
  · exact hl x hx hmem

/-- What does not occur in a list does not occur in a part of it. -/
theorem Avoids.of_part {part : List α} (hl : Avoids chars l) (hpart : part <:+: l) :
    Avoids chars part :=
  fun x hx => hl x (hpart.subset hx)

/-- An element that does not occur is not in the list. -/
theorem Avoids.notMem (hl : Avoids chars l) (hc : c ∈ chars) : c ∉ l := fun hmem => hl c hmem hc

theorem Avoids.mono {chars' : List α} (hl : Avoids chars l) (hsub : chars' ⊆ chars) :
    Avoids chars' l :=
  fun c hc hmem => hl c hc (hsub hmem)

/-- Elements that fail a test do not occur in a list of elements that pass it. -/
theorem avoids_of_forall (hl : ∀ x ∈ l, p x = true) (hchars : chars.all (!p ·) = true) :
    Avoids chars l := by
  intro x hx hmem
  have hfalse := List.all_eq_true.mp hchars x hmem
  rw [hl x hx] at hfalse
  exact Bool.noConfusion hfalse

/-- Nothing is trimmed from a list that avoids what is dropped. -/
theorem trimEnds_of_forall (hl : ∀ x ∈ l, p x = false) : trimEnds p front back l = l := by
  refine trimEnds_eq_self_iff.mpr ⟨fun _ => ?_, fun _ => ?_⟩
  · rw [List.dropWhile_eq_self_iff]
    exact fun hne => by simp [hl _ (List.getElem_mem _)]
  · rw [List.rdropWhile_eq_self_iff]
    exact fun hne => by simp [hl _ (List.getLast_mem hne)]

end Demos.Lib
