import Mathlib.Data.List.Nodup
import Mathlib.Data.Tree.Basic
import Mathlib.Order.Lattice

/-!
# Binary trees and what stands around a subtree

A subtree is taken out of a binary tree together with the frames on the way to it. From left to
right, the nodes of the tree are those before the subtree, those of the subtree and those after it.
A tree is ordered if the values on the left of a node are smaller than its own and those on the
right are not; what stands around a subtree then says which values fit in its place, and another
subtree with such values can be put there.
-/

namespace Demos.Lib

variable {α β : Type*}

/-- The nodes of a tree from left to right. -/
def inorder : BinaryTree α → List α
  | .nil => []
  | .node a l r => inorder l ++ a :: inorder r

/-- The node at the top. -/
def top : BinaryTree α → Option α
  | .nil => none
  | .node a _ _ => some a

/-- The tree with left and right exchanged. -/
def mirror : BinaryTree α → BinaryTree α
  | .nil => .nil
  | .node a l r => .node a (mirror r) (mirror l)

/-- A node with the subtree on the other side, where the place on the left or on the right of the
node is open. -/
inductive Frame (α : Type*) where
  | left (a : α) (sibling : BinaryTree α)
  | right (a : α) (sibling : BinaryTree α)

/-- The node of a frame. -/
def Frame.node : Frame α → α
  | .left a _ => a
  | .right a _ => a

/-- The subtree on the other side. -/
def Frame.sibling : Frame α → BinaryTree α
  | .left _ r => r
  | .right _ l => l

/-- Fill the place of a frame. -/
def Frame.attach (s : BinaryTree α) : Frame α → BinaryTree α
  | .left a r => .node a s r
  | .right a l => .node a l s

/-- Put a subtree in the place that the frames describe, the nearest one first. -/
def plug : List (Frame α) → BinaryTree α → BinaryTree α
  | [], s => s
  | f :: c, s => plug c (f.attach s)

/-- The nodes before the place. -/
def before : List (Frame α) → List α
  | [] => []
  | .left _ _ :: c => before c
  | .right a l :: c => before c ++ (inorder l ++ [a])

/-- The nodes after the place. -/
def after : List (Frame α) → List α
  | [] => []
  | .left a r :: c => a :: inorder r ++ after c
  | .right _ _ :: c => after c

variable {a : α} {l r s s' : BinaryTree α} {c d : List (Frame α)} {f : Frame α}

section Inorder

@[simp]
theorem top_node : top (.node a l r) = some a := rfl

theorem mem_of_top (h : top s = some a) : a ∈ inorder s := by
  cases s with
  | nil => cases h
  | node b l r =>
    cases h
    simp [inorder]

/-- The nodes of a tree with the nodes around the place of a subtree. -/
@[simp]
theorem inorder_plug (c : List (Frame α)) (s : BinaryTree α) :
    inorder (plug c s) = before c ++ (inorder s ++ after c) := by
  induction c generalizing s with
  | nil => simp [plug, before, after]
  | cons f c ih => cases f <;> simp [plug, before, after, ih, Frame.attach, inorder]

theorem mem_inorder_plug : a ∈ inorder (plug c s) ↔ a ∈ inorder s ∨ a ∈ before c ++ after c := by
  rw [inorder_plug, (List.perm_append_comm_assoc _ _ _).mem_iff, List.mem_append]

theorem exists_top_plug_cons : ∃ b, top (plug (f :: c) s) = some b := by
  induction c generalizing f s with
  | nil => cases f <;> exact ⟨_, rfl⟩
  | cons g c ih => exact ih (f := g)

/-- Two stretches of frames are filled one after the other. -/
theorem plug_append : plug (c ++ d) s = plug d (plug c s) := by
  induction c generalizing s with
  | nil => rfl
  | cons f c ih => exact ih

/-- What stands before the inner place stands behind what stands before the outer one. -/
@[simp]
theorem before_append : before (c ++ d) = before d ++ before c := by
  induction c with
  | nil => simp [before]
  | cons f c ih => cases f <;> simp [before, ih]

/-- The nodes around the place of the nearest frame are its own node, those of its sibling and those
around the other frames. -/
theorem mem_around_cons : a ∈ before (f :: c) ++ after (f :: c) ↔
    a = f.node ∨ a ∈ inorder f.sibling ∨ a ∈ before c ++ after c := by
  cases f with
  | left b r =>
    simp only [before, after, Frame.node, Frame.sibling, List.mem_append, List.mem_cons]
    tauto
  | right b l =>
    simp only [before, after, Frame.node, Frame.sibling, List.mem_append, List.mem_singleton]
    tauto

/-- The nodes of a tree are different exactly if those of a subtree and those around it are, and
none of them is both. -/
theorem nodup_plug : (inorder (plug c s)).Nodup ↔ (inorder s).Nodup ∧
    (before c ++ after c).Nodup ∧ ∀ a ∈ before c ++ after c, a ∉ inorder s := by
  rw [inorder_plug, (List.perm_append_comm_assoc _ _ _).nodup_iff, List.nodup_append',
    List.disjoint_right]

/-- If the nodes of a tree are different, the top of a subtree is not around it. -/
theorem notMem_around_of_nodup (h : (inorder (plug c (.node a l r))).Nodup) :
    a ∉ before c ++ after c :=
  fun hmem => (nodup_plug.mp h).2.2 a hmem (by simp [inorder])

/-- If the nodes of a tree are different, the top is in neither subtree. -/
theorem notMem_of_nodup_node (h : (inorder (.node a l r)).Nodup) :
    a ∉ inorder l ∧ a ∉ inorder r := by
  rw [inorder, List.nodup_middle, List.nodup_cons, List.mem_append, not_or] at h
  exact h.1

/-- If the nodes around a place are different, the nearest one is not among the others, and the
nodes around the other frames are different. -/
theorem nodup_around_cons (h : (before (f :: c) ++ after (f :: c)).Nodup) :
    f.node ∉ inorder f.sibling ∧ f.node ∉ before c ++ after c ∧ (before c ++ after c).Nodup := by
  cases f with
  | left b r =>
    rw [before, after, List.cons_append, List.nodup_middle, List.nodup_cons] at h
    obtain ⟨hb, hrest⟩ := h
    simp only [List.mem_append, not_or] at hb ⊢
    refine ⟨hb.2.1, ⟨hb.1, hb.2.2⟩, hrest.sublist ?_⟩
    exact (List.Sublist.refl _).append (List.sublist_append_right _ _)
  | right b l =>
    rw [before, after, ← List.append_assoc, List.append_assoc, List.singleton_append,
      List.nodup_middle, List.nodup_cons] at h
    obtain ⟨hb, hrest⟩ := h
    simp only [List.mem_append, not_or] at hb ⊢
    refine ⟨hb.1.2, ⟨hb.1.1, hb.2⟩, hrest.sublist ?_⟩
    exact (List.sublist_append_left _ _).append (List.Sublist.refl _)

/-- Every node of a tree is the top of a subtree. -/
theorem exists_plug (h : a ∈ inorder s) : ∃ c l r, s = plug c (.node a l r) := by
  induction s with
  | nil => simp [inorder] at h
  | node b l r ihl ihr =>
    rw [inorder, List.mem_append, List.mem_cons] at h
    obtain hl | rfl | hr := h
    · obtain ⟨c, l', r', rfl⟩ := ihl hl
      exact ⟨c ++ [.left b r], l', r', by rw [plug_append]; rfl⟩
    · exact ⟨[], l, r, rfl⟩
    · obtain ⟨c, l', r', rfl⟩ := ihr hr
      exact ⟨c ++ [.right b l], l', r', by rw [plug_append]; rfl⟩

/-- If the nodes of a tree are different, what stands before and after a node is determined. -/
theorem eq_of_inorder_plug {pre post : List α} (hnodup : (inorder (plug c (.node a l r))).Nodup)
    (h : inorder (plug c (.node a l r)) = pre ++ a :: post) :
    pre = before c ++ inorder l ∧ post = inorder r ++ after c := by
  have hsplit : inorder (plug c (.node a l r)) =
      (before c ++ inorder l) ++ a :: (inorder r ++ after c) := by simp [inorder]
  rw [hsplit, List.nodup_middle, List.nodup_cons, List.mem_append, not_or] at hnodup
  obtain ⟨⟨hpre, hpost⟩, -⟩ := hnodup
  obtain ⟨hpre, -, hpost⟩ := (List.append_cons_inj_of_notMem hpre hpost).mp (hsplit.symm.trans h)
  exact ⟨hpre.symm, hpost.symm⟩

theorem length_le_around (c : List (Frame α)) : c.length ≤ (before c ++ after c).length := by
  induction c with
  | nil => exact Nat.le_refl 0
  | cons f c ih =>
    cases f <;> simp only [before, after, List.length_cons, List.length_append] at ih ⊢ <;> omega

/-- Exchanging left and right leaves the top. -/
theorem top_mirror (s : BinaryTree α) : top (mirror s) = top s := by
  cases s <;> rfl

/-- Exchanging left and right reverses the nodes. -/
theorem inorder_mirror (s : BinaryTree α) : inorder (mirror s) = (inorder s).reverse := by
  induction s with
  | nil => rfl
  | node a l r ihl ihr => simp [mirror, inorder, ihl, ihr]

theorem height_le_length_inorder (s : BinaryTree α) : s.height ≤ (inorder s).length := by
  induction s with
  | nil => simp [BinaryTree.height]
  | node a l r ihl ihr =>
    simp only [BinaryTree.height, inorder, List.length_append, List.length_cons]
    omega

/-- A bound on the height of a tree leaves one less for its subtrees. -/
theorem exists_of_height_node_le {bound : ℕ} (h : (BinaryTree.node a l r).height ≤ bound) :
    ∃ bound', bound = bound' + 1 ∧ l.height ≤ bound' ∧ r.height ≤ bound' := by
  obtain ⟨bound', rfl⟩ := Nat.exists_eq_add_of_le' ((Nat.le_add_left 1 _).trans h)
  rw [BinaryTree.height, Nat.add_le_add_iff_right, Nat.max_le] at h
  exact ⟨bound', rfl, h⟩

end Inorder

section Order

variable [LinearOrder β] {value : α → β} {v : β}

/-- The values on the left of a node are smaller than its own, and those on the right are not. -/
def Ordered (value : α → β) : BinaryTree α → Prop
  | .nil => True
  | .node a l r => (∀ x ∈ inorder l, value x < value a) ∧ (∀ x ∈ inorder r, value a ≤ value x) ∧
      Ordered value l ∧ Ordered value r

/-- The value fits in the place. -/
def Admits (value : α → β) : List (Frame α) → β → Prop
  | [], _ => True
  | .left a _ :: c, v => v < value a ∧ Admits value c v
  | .right a _ :: c, v => value a ≤ v ∧ Admits value c v

/-- What stands around the place is ordered. -/
def OrderedAround (value : α → β) : List (Frame α) → Prop
  | [] => True
  | .left a r :: c => (∀ x ∈ inorder r, value a ≤ value x) ∧ Ordered value r ∧
      (∀ x ∈ a :: inorder r, Admits value c (value x)) ∧ OrderedAround value c
  | .right a l :: c => (∀ x ∈ inorder l, value x < value a) ∧ Ordered value l ∧
      (∀ x ∈ a :: inorder l, Admits value c (value x)) ∧ OrderedAround value c

theorem ordered_node : Ordered value (.node a l r) ↔
    (∀ x ∈ inorder l, value x < value a) ∧ (∀ x ∈ inorder r, value a ≤ value x) ∧
      Ordered value l ∧ Ordered value r := Iff.rfl

theorem admits_left : Admits value (.left a r :: c) v ↔ v < value a ∧ Admits value c v := Iff.rfl

theorem admits_right : Admits value (.right a l :: c) v ↔ value a ≤ v ∧ Admits value c v := Iff.rfl

theorem orderedAround_left : OrderedAround value (.left a r :: c) ↔
    (∀ x ∈ inorder r, value a ≤ value x) ∧ Ordered value r ∧
      (∀ x ∈ a :: inorder r, Admits value c (value x)) ∧ OrderedAround value c := Iff.rfl

theorem orderedAround_right : OrderedAround value (.right a l :: c) ↔
    (∀ x ∈ inorder l, value x < value a) ∧ Ordered value l ∧
      (∀ x ∈ a :: inorder l, Admits value c (value x)) ∧ OrderedAround value c := Iff.rfl

/-- A tree is ordered exactly if what stands around a subtree is ordered, and the subtree is, and
its values fit in its place. -/
theorem ordered_plug_iff : Ordered value (plug c s) ↔
    OrderedAround value c ∧ Ordered value s ∧ ∀ x ∈ inorder s, Admits value c (value x) := by
  induction c generalizing s with
  | nil => simp [plug, OrderedAround, Admits]
  | cons f c ih =>
    rw [plug, ih]
    cases f with
    | left a r =>
      simp only [Frame.attach, ordered_node, orderedAround_left, admits_left, inorder,
        List.forall_mem_append, List.forall_mem_cons]
      grind
    | right a l =>
      simp only [Frame.attach, ordered_node, orderedAround_right, admits_right, inorder,
        List.forall_mem_append, List.forall_mem_cons]
      grind

/-- The order depends on the values of the nodes of the tree only. -/
theorem Ordered.congr {value' : α → β} (h : Ordered value s)
    (hsame : ∀ x ∈ inorder s, value' x = value x) : Ordered value' s := by
  induction s with
  | nil => trivial
  | node a l r ihl ihr =>
    obtain ⟨hl, hr, hordl, hordr⟩ := ordered_node.mp h
    rw [inorder, List.forall_mem_append, List.forall_mem_cons] at hsame
    obtain ⟨hsamel, ha, hsamer⟩ := hsame
    refine ordered_node.mpr ⟨fun x hx => ?_, fun x hx => ?_, ihl hordl hsamel, ihr hordr hsamer⟩
    · rw [hsamel x hx, ha]
      exact hl x hx
    · rw [hsamer x hx, ha]
      exact hr x hx

/-- The values of an ordered tree do not decrease from left to right. -/
theorem Ordered.pairwise (h : Ordered value s) :
    (inorder s).Pairwise fun x y => value x ≤ value y := by
  induction s with
  | nil => exact .nil
  | node a l r ihl ihr =>
    obtain ⟨hl, hr, hordl, hordr⟩ := ordered_node.mp h
    rw [inorder, List.pairwise_append]
    refine ⟨ihl hordl, List.pairwise_cons.mpr ⟨hr, ihr hordr⟩, fun x hx y hy => ?_⟩
    obtain rfl | hy := List.mem_cons.mp hy
    · exact (hl x hx).le
    · exact (hl x hx).le.trans (hr y hy)

/-- The values before a place are at most those that fit there, and the values after it are
larger. -/
theorem OrderedAround.bounds (h : OrderedAround value c) (hv : Admits value c v) :
    (∀ x ∈ before c, value x ≤ v) ∧ ∀ x ∈ after c, v < value x := by
  induction c with
  | nil => simp [before, after]
  | cons f c ih =>
    cases f with
    | left a r =>
      obtain ⟨hr, -, -, hc⟩ := orderedAround_left.mp h
      obtain ⟨ha, hv⟩ := admits_left.mp hv
      obtain ⟨hbefore, hafter⟩ := ih hc hv
      refine ⟨hbefore, fun x hx => ?_⟩
      rw [after, List.mem_append, List.mem_cons] at hx
      obtain (rfl | hx) | hx := hx
      · exact ha
      · exact ha.trans_le (hr x hx)
      · exact hafter x hx
    | right a l =>
      obtain ⟨hl, -, -, hc⟩ := orderedAround_right.mp h
      obtain ⟨ha, hv⟩ := admits_right.mp hv
      obtain ⟨hbefore, hafter⟩ := ih hc hv
      refine ⟨fun x hx => ?_, hafter⟩
      rw [before, List.mem_append, List.mem_append, List.mem_singleton] at hx
      obtain hx | hx | rfl := hx
      · exact hbefore x hx
      · exact (hl x hx).le.trans ha
      · exact ha

end Order

end Demos.Lib
