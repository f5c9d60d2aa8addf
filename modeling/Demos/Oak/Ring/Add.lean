import Demos.Oak.Ring.Refinement

/-!
# Appending a ring

`OAK_RING_ADD` is to append the elements of one ring to another. Its stores to `next` do so if
there are elements to append. Its second store gives the first of them the last of them as its
predecessor, where the last node of the other ring belongs; the links backwards then run round the
appended elements and never reach the head.
-/

namespace Demos.Oak

open Demos.Lib

variable {Node : Type} {s : Links Node} {h h2 : Node} {xs ys : List Node}

/-- Two rings without a common node. -/
structure RingsApart (s : Links Node) (h h2 : Node) (xs ys : List Node) : Prop where
  first : s.IsRing h xs
  second : s.IsRing h2 ys
  apart : ∀ x ∈ h :: xs, x ∉ h2 :: ys

/-- The ends of the elements of a ring. -/
theorem ring_ends {y z : Node} {mid : List Node} (hring : s.IsRing h (y :: ys))
    (hmid : y :: ys = mid ++ [z]) : s.next h = y ∧ s.prev h = z := by
  have hfirst : h :: (y :: ys) ++ [h] = [] ++ h :: y :: (ys ++ [h]) := rfl
  have hlast : h :: (y :: ys) ++ [h] = (h :: mid) ++ z :: h :: [] := by
    rw [hmid]
    simp
  exact ⟨(hring.edge hfirst).1, (hring.edge hlast).2⟩

variable [DecidableEq Node]

/-- The ring of the list: a circular list that both traversals follow. -/
def Traverses (s : Links Node) (h : Node) (xs : List Node) : Prop :=
  s.IsRing h xs ∧ ∀ fuel, xs.length < fuel →
    ringForeach s h fuel = some xs ∧ walk s.prev h fuel (s.prev h) = some xs.reverse

/-- Both traversals follow every ring. -/
theorem traverses_iff : Traverses s h xs ↔ s.IsRing h xs :=
  ⟨fun htraverses => htraverses.1,
    fun hring => ⟨hring, fun _ hfuel => ⟨hring.walk_next hfuel, hring.walk_prev hfuel⟩⟩⟩

/-- What the four stores leave. -/
theorem ringAdd_eq (s : Links Node) (h h2 : Node) :
    ringAdd s h h2 =
      ⟨Function.update (Function.update s.next (s.prev h) (s.next h2)) (s.prev h2) h,
        Function.update (Function.update s.prev (s.next h2) (s.prev h2)) h (s.prev h2)⟩ := by
  have hnext : Function.update s.next (s.prev h) (s.next h2) h2 = s.next h2 := by
    grind [Function.update_apply]
  have hprev : Function.update s.prev (s.next h2) (s.prev h2) h2 = s.prev h2 := by
    grind [Function.update_apply]
  simp only [ringAdd, setNext, setPrev, hnext, hprev, Function.update_self]

/-- With elements to append the traversal backwards does not end. -/
theorem ringAdd_walk_prev (hother : s.IsRing h2 ys) (hh : h ∉ h2 :: ys) (hys : ys ≠ [])
    (fuel : ℕ) : walk (ringAdd s h h2).prev h fuel ((ringAdd s h h2).prev h) = none := by
  obtain ⟨y, ys, rfl⟩ := List.exists_cons_of_ne_nil hys
  obtain ⟨mid, z, hmid⟩ := List.eq_nil_or_concat' (y :: ys) |>.resolve_left (by simp)
  obtain ⟨hfirst, hlast⟩ := ring_ends hother hmid
  have hz : z ∈ y :: ys := hmid ▸ by simp
  have hhead : h ∉ y :: ys := fun hmem => hh (List.mem_cons_of_mem h2 hmem)
  simp only [ringAdd_eq, hfirst, hlast, Function.update_self]
  refine walk_eq_none hhead (fun a ha => ?_) hz fuel
  have hne : a ≠ h := fun heq => hhead (heq ▸ ha)
  rw [Function.update_of_ne hne]
  by_cases hy : a = y
  · rw [hy, Function.update_self]
    exact hz
  · rw [Function.update_of_ne hy]
    obtain ⟨c, hc, hedge⟩ := hother.exists_prev (List.mem_cons_of_mem h2 ha)
    rw [hedge.2]
    refine (List.mem_cons.mp hc).resolve_left fun heq => hy ?_
    rw [← hedge.1, heq, hfirst]

/-- With nothing to append the other head enters the ring. -/
theorem ringAdd_prev_nil (hother : s.IsRing h2 []) : (ringAdd s h h2).prev h = h2 := by
  have hloop : s.Edge h2 h2 := by simpa [Links.Path] using hother.path
  simp only [ringAdd_eq, Function.update_self, hloop.2]

/-- No two rings are appended. -/
theorem not_traverses_ringAdd (s : Links Node) (h h2 : Node) (xs ys : List Node)
    (hrings : RingsApart s h h2 xs ys) : ¬ Traverses (ringAdd s h h2) h (xs ++ ys) := by
  rintro ⟨hnew, hwalk⟩
  cases ys with
  | nil =>
    obtain ⟨c, hc, hedge⟩ := hnew.exists_prev List.mem_cons_self
    rw [List.append_nil, ← hedge.2, ringAdd_prev_nil hrings.second] at hc
    exact hrings.apart h2 hc List.mem_cons_self
  | cons y ys =>
    have hnone := ringAdd_walk_prev hrings.second (hrings.apart h List.mem_cons_self)
      (List.cons_ne_nil y ys) ((xs ++ y :: ys).length + 1)
    rw [(hwalk _ (Nat.lt_succ_self _)).2] at hnone
    exact absurd hnone (Option.some_ne_none _)

/-- Two rings of one element each. -/
def twoRings : Links (Fin 4) :=
  [.init 0, .init 2, .insertTail 0 1, .insertTail 2 3].foldl applyRing ⟨id, id⟩

/-- Two rings of one element each are not appended. -/
theorem not_traverses_ringAdd_twoRings :
    RingsApart twoRings 0 2 [1] [3] ∧ ¬ Traverses (ringAdd twoRings 0 2) 0 ([1] ++ [3]) := by
  have hrings : RingsApart twoRings 0 2 [1] [3] := ⟨by decide, by decide, by decide⟩
  exact ⟨hrings, not_traverses_ringAdd twoRings 0 2 [1] [3] hrings⟩

/-- The appended element becomes its own predecessor. -/
theorem ringAdd_twoRings :
    RingsApart twoRings 0 2 [1] [3] ∧ (ringAdd twoRings 0 2).prev 3 = 3 ∧
      ¬ Traverses (ringAdd twoRings 0 2) 0 ([1] ++ [3]) := by
  have hrings : RingsApart twoRings 0 2 [1] [3] := ⟨by decide, by decide, by decide⟩
  have hnot : ¬ (ringAdd twoRings 0 2).IsRing 0 [1, 3] := by decide
  exact ⟨hrings, by decide, fun htraverses => hnot htraverses.1⟩

end Demos.Oak
