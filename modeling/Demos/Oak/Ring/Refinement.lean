import Demos.Oak.Ring.Model

/-!
# The macros keep the rings

Every macro is a few links set between nodes, once it is known which of its stores go to the same
place. The links therefore represent the lists along every sequence of macros: each list with its
head is a ring, no node belongs to two of them, and the loop over a ring visits the list.
-/

namespace Demos.Oak

open Demos.Lib

variable {Node : Type}

/-- A node belongs to the ring of one head only. -/
def Rings.Disjoint (r : Rings Node) : Prop :=
  ∀ ⦃h xs h' xs' x⦄, r h = some xs → r h' = some xs' → x ∈ h :: xs → x ∈ h' :: xs' → h = h'

/-- The links are the rings of the lists. -/
structure Represents (s : Links Node) (r : Rings Node) : Prop where
  ring : ∀ ⦃h xs⦄, r h = some xs → s.IsRing h xs
  disjoint : r.Disjoint

variable {s : Links Node} {r : Rings Node} {h n h2 a b : Node} {xs pre post : List Node}

/-- A free node is outside every ring but its own. -/
theorem Rings.Free.notMem (hfree : r.Free n) (hh : r h = some xs) (hne : n ≠ h) : n ∉ h :: xs := by
  intro hmem
  obtain rfl | hmem := List.mem_cons.mp hmem
  · exact hne rfl
  · exact hfree.1 ⟨h, xs, hh, hmem⟩

section Links

variable [DecidableEq Node]

/-- `OAK_RING_INIT` links a node with itself. -/
theorem ringInit_eq_link (s : Links Node) (n : Node) : ringInit s n = s.link n n := rfl

/-- `OAK_RING_INSERT_HEAD` links the node behind the head. -/
theorem ringInsertHead_eq_link (hnext : s.next h ≠ n) :
    ringInsertHead s h n = (s.link n (s.next h)).link h n := by
  simp only [ringInsertHead, setNext, setPrev, Links.link, Function.update_self,
    Links.mk.injEq, true_and]
  exact Function.update_comm hnext.symm ..

/-- `OAK_RING_INSERT_TAIL` links the node before the head. -/
theorem ringInsertTail_eq_link (hne : n ≠ h) :
    ringInsertTail s h n = (s.link n h).link (s.prev h) n := by
  simp only [ringInsertTail, setNext, setPrev, Links.link, Function.update_self,
    Links.mk.injEq, true_and]
  exact Function.update_comm hne ..

/-- `OAK_RING_REMOVE` links the neighbours of the node. -/
theorem ringRemove_eq_link (hprev : s.prev n ≠ n) :
    ringRemove s n = s.link (s.prev n) (s.next n) := by
  simp only [ringRemove, setNext, setPrev, Links.link, Function.update_of_ne hprev.symm]

/-- `OAK_RING_SPLIT` links the new head around the end of the ring, and the rest to the old
head. -/
theorem ringSplit_eq_link (hnode : n ≠ h2) (hne : n ≠ h) :
    ringSplit s h n h2 = ((s.link (s.prev h) h2).link h2 n).link (s.prev n) h := by
  simp only [ringSplit, setNext, setPrev, Links.link, Function.update_self,
    Function.update_of_ne hnode, Links.mk.injEq, true_and]
  exact Function.update_comm hne.symm ..

/-- A node is put first; rings elsewhere are left alone. -/
theorem ringInsertHead_isRing (hring : s.IsRing h xs) (hn : n ∉ h :: xs) :
    (ringInsertHead s h n).IsRing h (n :: xs) ∧ ∀ h' ys, s.IsRing h' ys → n ∉ h' :: ys →
      (∀ x ∈ h :: xs, x ∉ h' :: ys) → (ringInsertHead s h n).IsRing h' ys := by
  have hfront : [h] = [] ++ [h] := rfl
  obtain ⟨b, back, hback⟩ := List.exists_cons_of_ne_nil (by simp : xs ++ [h] ≠ [])
  obtain ⟨-, -, hedge, -⟩ := (Links.isRing_append_iff hfront hback).mp hring
  have hb : b ∈ h :: xs := by
    have : b ∈ xs ++ [h] := hback ▸ List.mem_cons_self
    grind
  have hne : s.next h ≠ n := by
    rintro rfl
    exact hn (hedge.1 ▸ hb)
  rw [ringInsertHead_eq_link hne, hedge.1]
  refine ⟨hring.insert hfront hback hn, fun h' ys hother hn' hout => ?_⟩
  exact (hother.link hn' (hout b hb)).link (hout h List.mem_cons_self) hn'

/-- A node is put last; rings elsewhere are left alone. -/
theorem ringInsertTail_isRing (hring : s.IsRing h xs) (hn : n ∉ h :: xs) :
    (ringInsertTail s h n).IsRing h (xs ++ [n]) ∧ ∀ h' ys, s.IsRing h' ys → n ∉ h' :: ys →
      (∀ x ∈ h :: xs, x ∉ h' :: ys) → (ringInsertTail s h n).IsRing h' ys := by
  have hback : [] ++ [h] = [h] := rfl
  obtain ⟨front, a, hfront⟩ := List.eq_nil_or_concat' (h :: xs) |>.resolve_left (by simp)
  rw [← List.append_nil xs] at hring hn
  obtain ⟨-, -, hedge, -⟩ := (Links.isRing_append_iff hfront hback).mp hring
  have hne : n ≠ h := by
    rintro rfl
    exact hn List.mem_cons_self
  have ha : a ∈ h :: xs := hfront ▸ by simp
  rw [ringInsertTail_eq_link hne, hedge.2]
  refine ⟨hring.insert hfront hback hn, fun h' ys hother hn' hout => ?_⟩
  exact (hother.link hn' (hout h List.mem_cons_self)).link (hout a ha) hn'

/-- A node is taken out; rings elsewhere are left alone. -/
theorem ringRemove_isRing (hring : s.IsRing h (pre ++ n :: post)) :
    (ringRemove s n).IsRing h (pre ++ post) ∧ ∀ h' ys, s.IsRing h' ys →
      (∀ x ∈ h :: (pre ++ n :: post), x ∉ h' :: ys) → (ringRemove s n).IsRing h' ys := by
  obtain ⟨front, a, b, back, hfront, hback⟩ := exists_neighbours h pre post
  obtain ⟨⟨-, hprev⟩, hnext, -⟩ := hring.neighbours hfront hback
  have ha : a ∈ h :: pre := hfront ▸ by simp
  have hb : b ∈ post ++ [h] := hback ▸ List.mem_cons_self
  have hnodup : ((h :: pre) ++ n :: post).Nodup := hring.nodup
  have hne : s.prev n ≠ n := by
    rw [hprev]
    exact (List.nodup_append.mp hnodup).2.2 a ha n List.mem_cons_self
  rw [ringRemove_eq_link hne, hprev, hnext]
  refine ⟨hring.erase hfront hback, fun h' ys hother hout => ?_⟩
  exact hother.link (hout a (by grind)) (hout b (by grind))

/-- A ring is split at a node; rings elsewhere are left alone. -/
theorem ringSplit_isRing (hring : s.IsRing h (pre ++ n :: post))
    (hh2 : h2 ∉ h :: (pre ++ n :: post)) :
    ((ringSplit s h n h2).IsRing h pre ∧ (ringSplit s h n h2).IsRing h2 (n :: post)) ∧
      ∀ h' ys, s.IsRing h' ys → h2 ∉ h' :: ys → (∀ x ∈ h :: (pre ++ n :: post), x ∉ h' :: ys) →
        (ringSplit s h n h2).IsRing h' ys := by
  obtain ⟨front, a, b, back, hfront, hback⟩ := exists_neighbours h pre post
  obtain ⟨mid, z, hmid⟩ := List.eq_nil_or_concat' (n :: post) |>.resolve_left (by simp)
  obtain ⟨⟨-, hprev⟩, -⟩ := hring.neighbours hfront hback
  have hlast : s.prev h = z := by
    have hplace : h :: (pre ++ n :: post) ++ [h] = (h :: pre ++ mid) ++ z :: h :: [] := by
      rw [hmid]
      simp
    exact (hring.edge hplace).2
  have hne : n ≠ h := by
    rintro rfl
    exact (List.nodup_cons.mp hring.nodup).1 (by simp)
  have ha : a ∈ h :: pre := hfront ▸ by simp
  have hz : z ∈ n :: post := hmid ▸ by simp
  rw [ringSplit_eq_link (by rintro rfl; simp at hh2) hne, hprev, hlast]
  refine ⟨hring.split hfront hmid hh2, fun h' ys hother hh2' hout => ?_⟩
  exact ((hother.link (hout z (by grind)) hh2').link hh2' (hout n (by simp))).link
    (hout a (by grind)) (hout h List.mem_cons_self)

end Links

/-- The nodes of one ring are outside every other one. -/
theorem Represents.notMem (hrep : Represents s r) {h' : Node} {ys : List Node} (hh : r h = some xs)
    (hys : r h' = some ys) (hne : h' ≠ h) : ∀ x ∈ h :: xs, x ∉ h' :: ys :=
  fun _ hx hx' => hne (hrep.disjoint hys hh hx' hx)

/-- A ring is empty exactly if its list is. -/
theorem ringEmpty_iff (hring : s.IsRing h xs) : RingEmpty s h ↔ xs = [] := by
  cases xs with
  | nil =>
    have hloop : s.Edge h h := by simpa [Links.Path] using hring.path
    simp [RingEmpty, hloop.1]
  | cons x xs =>
    have hplace : h :: (x :: xs) ++ [h] = [] ++ h :: x :: (xs ++ [h]) := rfl
    have hne : h ≠ x := by
      rintro rfl
      exact (List.nodup_cons.mp hring.nodup).1 List.mem_cons_self
    simp [RingEmpty, (hring.edge hplace).1, hne]

variable [DecidableEq Node]

/-- The links represent what is left when a head is forgotten. -/
theorem Represents.forget (hrep : Represents s r) (n : Node) :
    Represents s (Function.update r n none) := by
  have hsub : ∀ h xs, Function.update r n none h = some xs → r h = some xs := by
    intro h xs hh
    have hne : h ≠ n := by
      rintro rfl
      simp at hh
    rwa [Function.update_of_ne hne] at hh
  exact ⟨fun h xs hh => hrep.ring (hsub h xs hh),
    fun h xs h' xs' _ hh hh' => hrep.disjoint (hsub h xs hh) (hsub h' xs' hh')⟩

/-- A head gets a new ring, which is apart from the others, and the others are left alone. -/
theorem Represents.update {s' : Links Node} (hrep : Represents s r) (hring : s'.IsRing h xs)
    (hkeep : ∀ h' ys, h' ≠ h → r h' = some ys →
      s'.IsRing h' ys ∧ ∀ x ∈ h :: xs, x ∉ h' :: ys) :
    Represents s' (Function.update r h (some xs)) := by
  constructor
  · intro h' ys hh'
    by_cases hne : h' = h
    · subst hne
      rw [Function.update_self, Option.some.injEq] at hh'
      exact hh' ▸ hring
    · rw [Function.update_of_ne hne] at hh'
      exact (hkeep h' ys hne hh').1
  · intro h₁ xs₁ h₂ xs₂ x hh₁ hh₂ hx₁ hx₂
    by_cases hne₁ : h₁ = h <;> by_cases hne₂ : h₂ = h
    · rw [hne₁, hne₂]
    · subst hne₁
      rw [Function.update_self, Option.some.injEq] at hh₁
      rw [Function.update_of_ne hne₂] at hh₂
      exact absurd hx₂ ((hkeep h₂ xs₂ hne₂ hh₂).2 x (hh₁ ▸ hx₁))
    · subst hne₂
      rw [Function.update_self, Option.some.injEq] at hh₂
      rw [Function.update_of_ne hne₁] at hh₁
      exact absurd hx₁ ((hkeep h₁ xs₁ hne₁ hh₁).2 x (hh₂ ▸ hx₂))
    · rw [Function.update_of_ne hne₁] at hh₁
      rw [Function.update_of_ne hne₂] at hh₂
      exact hrep.disjoint hh₁ hh₂ hx₁ hx₂

/-- A node outside every list becomes a head without elements. -/
theorem Represents.init (hrep : Represents s r) (hn : ¬ r.Element n) :
    Represents (ringInit s n) (Function.update r n (some [])) := by
  refine hrep.update ⟨by simp, by simp [ringInit_eq_link, Links.Path, Links.Edge, Links.link]⟩ ?_
  intro h' ys hne hys
  have hout : n ∉ h' :: ys := by
    intro hmem
    exact hn ⟨h', ys, hys, (List.mem_cons.mp hmem).resolve_left hne.symm⟩
  refine ⟨?_, by simpa using hout⟩
  rw [ringInit_eq_link]
  exact (hrep.ring hys).link hout hout

/-- A free node enters the list of a head, wherever a macro puts it. -/
theorem Represents.insert {s' : Links Node} {ys : List Node} (hrep : Represents s r)
    (hh : r h = some xs) (hn : r.Free n) (hperm : ys.Perm (n :: xs)) (hring : s'.IsRing h ys)
    (hkeep : ∀ h' zs, s.IsRing h' zs → n ∉ h' :: zs → (∀ x ∈ h :: xs, x ∉ h' :: zs) →
      s'.IsRing h' zs) :
    Represents s' (Function.update (Function.update r n none) h (some ys)) := by
  refine (hrep.forget n).update hring fun h' zs hne hzs => ?_
  have hne' : n ≠ h' := by
    rintro rfl
    simp at hzs
  rw [Function.update_of_ne hne'.symm] at hzs
  have hout := hn.notMem hzs hne'
  have hapart := hrep.notMem hh hzs hne
  refine ⟨hkeep h' zs (hrep.ring hzs) hout hapart, fun x hx => ?_⟩
  obtain rfl | hx := List.mem_cons.mp hx
  · exact hapart x List.mem_cons_self
  · obtain rfl | hx := List.mem_cons.mp (hperm.mem_iff.mp hx)
    · exact hout
    · exact hapart x (List.mem_cons_of_mem h hx)

/-- An element leaves its list. -/
theorem Represents.remove (hrep : Represents s r) (hh : r h = some xs) (hn : n ∈ xs) :
    Represents (ringRemove s n) (Function.update r h (some (xs.erase n))) := by
  obtain ⟨pre, post, rfl⟩ := List.append_of_mem hn
  have hring := hrep.ring hh
  obtain ⟨hnew, hkeep⟩ := ringRemove_isRing hring
  have hnodup : (pre ++ n :: post).Nodup := (List.nodup_cons.mp hring.nodup).2
  have hnotMem : n ∉ pre := fun hmem =>
    (List.nodup_append.mp hnodup).2.2 n hmem n List.mem_cons_self rfl
  rw [List.erase_append_right _ hnotMem, List.erase_cons_head]
  refine hrep.update hnew fun h' ys hne hys => ?_
  have hapart := hrep.notMem hh hys hne
  exact ⟨hkeep h' ys (hrep.ring hys) hapart, fun x hx => hapart x (by grind)⟩

/-- A list is cut before an element, and a free node becomes the head of the rest. -/
theorem Represents.split (hrep : Represents s r) (hh : r h = some (pre ++ n :: post))
    (hfree : r.Free h2) :
    Represents (ringSplit s h n h2)
      (Function.update (Function.update r h (some pre)) h2 (some (n :: post))) := by
  have hring := hrep.ring hh
  have hne : h2 ≠ h := by
    rintro rfl
    simpa using hfree.2 _ hh
  obtain ⟨⟨hfirst, hsecond⟩, hkeep⟩ := ringSplit_isRing hring (hfree.notMem hh hne)
  have hnodup : ((h :: pre) ++ n :: post).Nodup := hring.nodup
  have hcut := (List.nodup_append.mp hnodup).2.2
  have hfront : Represents (ringSplit s h n h2)
      (Function.update (Function.update r h2 none) h (some pre)) := by
    refine (hrep.forget h2).update hfirst fun h' ys hne' hys => ?_
    have hne₂ : h2 ≠ h' := by
      rintro rfl
      simp at hys
    rw [Function.update_of_ne hne₂.symm] at hys
    have hapart := hrep.notMem hh hys hne'
    exact ⟨hkeep h' ys (hrep.ring hys) (hfree.notMem hys hne₂) hapart,
      fun x hx => hapart x (by grind)⟩
  have hboth := hfront.update hsecond fun h' ys hne₂ hys => ⟨hfront.ring hys, ?_⟩
  · rwa [Function.update_comm hne, Function.update_idem] at hboth
  by_cases hne' : h' = h
  · subst hne'
    rw [Function.update_self, Option.some.injEq] at hys
    subst hys
    have hout := hfree.notMem hh hne
    grind
  · rw [Function.update_of_ne hne', Function.update_of_ne hne₂] at hys
    have hout := hfree.notMem hys hne₂.symm
    have hapart := hrep.notMem hh hys hne'
    grind

/-- A list moves as a whole to a free node. -/
theorem Represents.move (hrep : Represents s r) (hh : r h = some xs) (hfree : r.Free h2) :
    Represents (ringMove s h h2)
      (Function.update (Function.update r h (some [])) h2 (some xs)) := by
  have hring := hrep.ring hh
  cases xs with
  | nil =>
    have hsame : Function.update r h (some []) = r := hh ▸ Function.update_eq_self h r
    rw [ringMove, if_pos ((ringEmpty_iff hring).mpr rfl), hsame]
    exact hrep.init hfree.1
  | cons x xs =>
    have hplace : h :: (x :: xs) ++ [h] = [] ++ h :: x :: (xs ++ [h]) := rfl
    rw [ringMove, if_neg (by simp [ringEmpty_iff hring]), (hring.edge hplace).1]
    exact hrep.split (by simpa using hh) hfree

/-- Every macro keeps the links in step with the lists. -/
theorem RingStep.represents {op : RingOp Node} {r' : Rings Node} (hstep : RingStep r op r')
    (hrep : Represents s r) : Represents (applyRing s op) r' := by
  cases hstep with
  | init hn => exact hrep.init hn
  | insertHead hh hn hne =>
    obtain ⟨hring, hkeep⟩ := ringInsertHead_isRing (hrep.ring hh) (hn.notMem hh hne)
    exact hrep.insert hh hn (List.Perm.refl _) hring hkeep
  | insertTail hh hn hne =>
    obtain ⟨hring, hkeep⟩ := ringInsertTail_isRing (hrep.ring hh) (hn.notMem hh hne)
    exact hrep.insert hh hn (List.perm_append_singleton _ _) hring hkeep
  | remove hh hn => exact hrep.remove hh hn
  | split hh hfree => exact hrep.split hh hfree
  | move hh hfree => exact hrep.move hh hfree

/-- Along every sequence of macros each head has the ring of its list: `next` and `prev` are
inverse on it, every element is reached from the head, the loop yields the list, and no node
belongs to two rings. -/
theorem rings_refine_lists (links : Links Node) (ops : List (RingOp Node)) (r : Rings Node)
    (hrun : Run RingStep (fun _ => none) ops r) :
    (∀ h xs, r h = some xs →
      (ops.foldl applyRing links).IsRing h xs ∧
      (∀ a ∈ h :: xs, (ops.foldl applyRing links).prev ((ops.foldl applyRing links).next a) = a ∧
        (ops.foldl applyRing links).next ((ops.foldl applyRing links).prev a) = a) ∧
      (∀ a ∈ h :: xs, ∃ k, (ops.foldl applyRing links).next^[k] h = a) ∧
      ∀ fuel, xs.length < fuel → ringForeach (ops.foldl applyRing links) h fuel = some xs) ∧
    r.Disjoint := by
  have hrep : Represents (ops.foldl applyRing links) r := by
    refine Run.invariant (I := fun ops r => Represents (ops.foldl applyRing links) r) ?_ ?_ hrun
    · exact ⟨fun h xs hh => by simp at hh, fun h xs h' xs' x hh => by simp at hh⟩
    · intro ops r op r' hrep hstep
      rw [List.foldl_append]
      exact hstep.represents hrep
  refine ⟨fun h xs hh => ?_, hrep.disjoint⟩
  have hring := hrep.ring hh
  exact ⟨hring, fun a ha => hring.inverse ha, fun a ha => hring.reachable ha,
    fun fuel hfuel => hring.walk_next hfuel⟩

/-- Two nodes enter a ring, which is split before the second. -/
theorem rings_refine_lists_split :
    ∃ r : Rings (Fin 4), r 0 = some [1] ∧ r 3 = some [2] ∧ r.Disjoint ∧
      ∀ links : Links (Fin 4), ringForeach ([.init 0, .insertHead 0 1, .insertTail 0 2,
        .split 0 2 3].foldl applyRing links) 3 2 = some [2] := by
  let r₁ : Rings (Fin 4) := Function.update (fun _ => none) 0 (some [])
  let r₂ : Rings (Fin 4) := Function.update (Function.update r₁ 1 none) 0 (some [1])
  let r₃ : Rings (Fin 4) := Function.update (Function.update r₂ 2 none) 0 (some [1, 2])
  let r₄ : Rings (Fin 4) := Function.update (Function.update r₃ 0 (some [1])) 3 (some [2])
  have h₁ : RingStep (fun _ => none) (.init 0) r₁ := .init (by decide)
  have h₂ : RingStep r₁ (.insertHead 0 1) r₂ := .insertHead rfl (by decide) (by decide)
  have hone : r₂ 0 = some [1] := rfl
  have h₃ : RingStep r₂ (.insertTail 0 2) r₃ := .insertTail hone (by decide) (by decide)
  have htwo : r₃ 0 = some ([1] ++ 2 :: []) := rfl
  have h₄ : RingStep r₃ (.split 0 2 3) r₄ := .split htwo (by decide)
  have hrun : Run RingStep (fun _ => none)
      [.init 0, .insertHead 0 1, .insertTail 0 2, .split 0 2 3] r₄ :=
    (((Run.nil.snoc h₁).snoc h₂).snoc h₃).snoc h₄
  refine ⟨r₄, rfl, rfl, (rings_refine_lists ⟨id, id⟩ _ _ hrun).2, fun links => ?_⟩
  exact ((rings_refine_lists links _ _ hrun).1 3 [2] rfl).2.2.2 2 (by decide)

end Demos.Oak
