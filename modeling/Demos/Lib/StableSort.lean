import Mathlib.Data.List.Induction
import Mathlib.Data.List.Perm.Basic
import Mathlib.Data.List.Sort

/-!
# Stable sorting

A list is sorted by a total preorder if none of its elements is smaller than one before it, and the
sorting is stable if elements that are tied keep their order. There is one such list. Merging two
sorted lists keeps the order and, if ties are taken from the first list, the ties; so every list
that is built by merging from short ones is the stable sorting of its elements.
-/

namespace Demos.Lib

variable {α : Type*} {le cmp : α → α → Bool} {a x y z : α} {l l' r r' s s' xs ys : List α}

/-- Neither element is smaller than the other. -/
def tied (le : α → α → Bool) (x y : α) : Bool := le x y && le y x

/-- No element is smaller than one before it. -/
def InOrder (le : α → α → Bool) (s : List α) : Prop := s.Pairwise fun x y => le x y = true

/-- The list has the elements of another one in order, and tied elements as they were. -/
structure IsStableSort (le : α → α → Bool) (l s : List α) : Prop where
  perm : s.Perm l
  ordered : InOrder le s
  stable : ∀ x, s.filter (tied le x) = l.filter (tied le x)

/-- A total preorder. -/
structure IsPreorder (le : α → α → Bool) : Prop where
  total : ∀ x y, le x y = true ∨ le y x = true
  trans : ∀ x y z, le x y = true → le y z = true → le x z = true

namespace IsPreorder

theorem tied_self (h : IsPreorder le) (x : α) : tied le x x = true := by
  obtain hle | hle := h.total x x <;> simp [tied, hle]

/-- Of two elements that are tied with a third one, none is smaller than the other. -/
theorem le_of_tied (h : IsPreorder le) (hx : tied le a x = true) (hy : tied le a y = true) :
    le x y = true := by
  simp only [tied, Bool.and_eq_true] at hx hy
  exact h.trans _ _ _ hx.2 hy.1

/-- A total preorder of keys orders the elements. -/
theorem comap {κ : Type*} {le : κ → κ → Bool} (hle : IsPreorder le) (key : α → κ) :
    IsPreorder fun x y => le (key x) (key y) where
  total x y := hle.total (key x) (key y)
  trans x y z := hle.trans (key x) (key y) (key z)

/-- The order of the natural numbers. -/
theorem nat_le : IsPreorder fun i j : ℕ => decide (i ≤ j) where
  total i j := by simpa using Nat.le_total i j
  trans i j k hij hjk := by
    simp only [decide_eq_true_eq] at *
    exact hij.trans hjk

end IsPreorder

/-- What stands before an element that is not larger than `x` is not larger than `x`. -/
theorem InOrder.le_of_getLast? (hle : IsPreorder le) (hl : InOrder le l)
    (hlast : ∀ y ∈ l.getLast?, le y x = true) : ∀ y ∈ l, le y x = true := by
  rcases l.eq_nil_or_concat' with rfl | ⟨l, z, rfl⟩
  · simp
  · have hz : le z x = true := hlast z (by simp)
    intro y hy
    rcases List.mem_append.mp hy with hy | hy
    · exact hle.trans _ _ _ ((List.pairwise_append.mp hl).2.2 y hy z (by simp)) hz
    · rwa [List.mem_singleton.mp hy]

/-- A list has one stable sorting. -/
theorem IsStableSort.unique (hle : IsPreorder le) (h : IsStableSort le l s)
    (h' : IsStableSort le l s') : s = s' := by
  have hperm : s.Perm s' := h.perm.trans h'.perm.symm
  have hstable : ∀ x, s.filter (tied le x) = s'.filter (tied le x) :=
    fun x => (h.stable x).trans (h'.stable x).symm
  have hordered := h.ordered
  have hordered' := h'.ordered
  clear h h'
  induction s generalizing s' with
  | nil => exact hperm.nil_eq
  | cons x s ih =>
    cases s' with
    | nil => exact absurd hperm.symm.nil_eq (by simp)
    | cons y s' =>
      obtain ⟨hx, hs⟩ := List.pairwise_cons.mp hordered
      obtain ⟨hy, hs'⟩ := List.pairwise_cons.mp hordered'
      -- each of the two heads is tied with the other
      have hself := hle.tied_self
      have hxy : le x y = true := by
        obtain rfl | hmem := List.mem_cons.mp (hperm.symm.subset List.mem_cons_self)
        · simpa [tied] using hself y
        · exact hx y hmem
      have hyx : le y x = true := by
        obtain rfl | hmem := List.mem_cons.mp (hperm.subset List.mem_cons_self)
        · simpa [tied] using hself x
        · exact hy x hmem
      have hheads := hstable x
      rw [List.filter_cons_of_pos (hself x),
        List.filter_cons_of_pos (by simp [tied, hxy, hyx])] at hheads
      obtain rfl := (List.cons.inj hheads).1
      refine congrArg (x :: ·) (ih hperm.cons_inv (fun z => ?_) hs hs')
      have hrest := hstable z
      simp only [List.filter_cons] at hrest
      split at hrest
      · exact (List.cons.inj hrest).2
      · exact hrest

section Insert

/-- Putting an element behind those that are not larger sorts it in. -/
theorem IsStableSort.insert (hle : IsPreorder le) (h : IsStableSort le l (s ++ s'))
    (hbefore : ∀ y ∈ s, le y x = true) (hafter : ∀ y ∈ s', le y x = false) :
    IsStableSort le (l ++ [x]) (s ++ x :: s') where
  perm := by
    have hput : (s ++ x :: s').Perm (x :: (s ++ s')) := List.perm_middle
    exact (hput.trans (h.perm.cons x)).trans (List.perm_append_singleton x l).symm
  ordered := by
    obtain ⟨hs, hs', hacross⟩ := List.pairwise_append.mp h.ordered
    refine List.pairwise_append.mpr ⟨hs, List.pairwise_cons.mpr ⟨fun y hy => ?_, hs'⟩, ?_⟩
    · exact (hle.total x y).resolve_right (by simp [hafter y hy])
    · intro y hy z hz
      obtain rfl | hz := List.mem_cons.mp hz
      · exact hbefore y hy
      · exact hacross y hy z hz
  stable := by
    intro z
    have hstable := h.stable z
    simp only [List.filter_append, List.filter_cons] at hstable ⊢
    split
    next hx =>
      -- what follows the element is larger, and not tied with it
      have hnil : s'.filter (tied le z) = [] := by
        refine List.filter_eq_nil_iff.mpr fun y hy hz => ?_
        simpa [hafter y hy] using hle.le_of_tied hz hx
      rw [← hstable, hnil]
      simp
    next => simpa using hstable

end Insert

section Merge

/-- Merging keeps the order if the comparison only takes an element that is not larger. -/
theorem inOrder_merge (hle : IsPreorder le) (hleft : ∀ x y, cmp x y = true → le x y = true)
    (hright : ∀ x y, cmp x y = false → le y x = true) (hxs : InOrder le xs)
    (hys : InOrder le ys) : InOrder le (xs.merge ys cmp) := by
  fun_induction List.merge xs ys cmp with
  | case1 ys => exact hys
  | case2 xs => exact hxs
  | case3 x xs y ys hcmp ih =>
    obtain ⟨hx, hxs⟩ := List.pairwise_cons.mp hxs
    obtain ⟨hy, -⟩ := List.pairwise_cons.mp hys
    have hxy : le x y = true := hleft x y hcmp
    refine List.pairwise_cons.mpr ⟨fun z hz => ?_, ih hxs hys⟩
    obtain hz | hz := List.mem_merge.mp hz
    · exact hx z hz
    · obtain rfl | hz := List.mem_cons.mp hz
      · exact hxy
      · exact hle.trans _ _ _ hxy (hy z hz)
  | case4 x xs y ys hcmp ih =>
    obtain ⟨hx, -⟩ := List.pairwise_cons.mp hxs
    obtain ⟨hy, hys⟩ := List.pairwise_cons.mp hys
    have hyx : le y x = true := hright x y (by simpa using hcmp)
    refine List.pairwise_cons.mpr ⟨fun z hz => ?_, ih hxs hys⟩
    obtain hz | hz := List.mem_merge.mp hz
    · obtain rfl | hz := List.mem_cons.mp hz
      · exact hyx
      · exact hle.trans _ _ _ hyx (hx z hz)
    · exact hy z hz

/-- Merging that prefers the first list leaves its tied elements before those of the second. -/
theorem filter_merge (hle : IsPreorder le) (hxs : InOrder le xs) (z : α) :
    (xs.merge ys le).filter (tied le z) = xs.filter (tied le z) ++ ys.filter (tied le z) := by
  fun_induction List.merge xs ys le with
  | case1 | case2 => simp
  | case3 x xs y ys hcmp ih =>
    have hmerge := ih (List.pairwise_cons.mp hxs).2
    simp only [List.filter_cons (x := x), hmerge]
    split <;> simp
  | case4 x xs y ys hcmp ih =>
    have hmerge := ih hxs
    rw [List.filter_cons, List.filter_cons (x := y), hmerge]
    split
    next hy =>
      -- nothing in the first list is tied with the smaller element
      have hnil : (x :: xs).filter (tied le z) = [] := by
        refine List.filter_eq_nil_iff.mpr fun w hw hz => ?_
        have hxw : le x w = true := by
          obtain rfl | hw := List.mem_cons.mp hw
          · simpa [tied] using hle.tied_self w
          · exact (List.pairwise_cons.mp hxs).1 w hw
        exact hcmp (hle.trans _ _ _ hxw (hle.le_of_tied hz hy))
      rw [hnil]
      rfl
    next => rfl

/-- The lists that merging builds from short ones, however they are cut. -/
inductive MergeSorts (cmp : α → α → Bool) : List α → List α → Prop
  | short {l : List α} : l.length < 2 → MergeSorts cmp l l
  | merge {l l' r r' : List α} : MergeSorts cmp l l' → MergeSorts cmp r r' →
      MergeSorts cmp (l ++ r) (l'.merge r' cmp)

/-- Merging keeps the elements. -/
theorem MergeSorts.perm (h : MergeSorts cmp l s) : s.Perm l := by
  induction h with
  | short _ => exact .rfl
  | merge _ _ ihl ihr => exact (List.merge_perm_append ..).trans (ihl.append ihr)

/-- A list of less than two elements is in order. -/
theorem inOrder_of_short (h : l.length < 2) : InOrder le l := by
  match l with
  | [] => exact .nil
  | [x] => exact List.pairwise_singleton _ x

/-- What merging builds is in order. -/
theorem MergeSorts.ordered (hle : IsPreorder le) (hleft : ∀ x y, cmp x y = true → le x y = true)
    (hright : ∀ x y, cmp x y = false → le y x = true) (h : MergeSorts cmp l s) :
    InOrder le s := by
  induction h with
  | short hlength => exact inOrder_of_short hlength
  | merge _ _ ihl ihr => exact inOrder_merge hle hleft hright ihl ihr

/-- What merging builds is the stable sorting if the first list is preferred. -/
theorem MergeSorts.isStableSort (hle : IsPreorder le) (h : MergeSorts le l s) :
    IsStableSort le l s := by
  have hright : ∀ x y, le x y = false → le y x = true :=
    fun x y hlt => (hle.total x y).resolve_left (by simp [hlt])
  refine ⟨h.perm, h.ordered hle (fun _ _ => id) hright, fun z => ?_⟩
  induction h with
  | short _ => rfl
  | merge hl hr ihl ihr =>
    rw [filter_merge hle (hl.ordered hle (fun _ _ => id) hright), ihl, ihr, List.filter_append]

end Merge

end Demos.Lib
