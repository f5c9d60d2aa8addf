import Demos.Algorithm.SearchTree.Links
import Demos.Lib.TreeContext

/-!
# The tree that the pointers form

The child pointers of a store form a binary tree of nodes, which `Dump` visits from left to right.
A place in that tree is given by the frames around it; writing the pointer that leads there changes
what hangs in the place and nothing around it. `Transplant` writes this pointer if the parent link
of the node is consistent.
-/

namespace Demos.Algorithm

open Demos.Lib

namespace SearchTree

variable {t t' : SearchTree} {n u fuel : ℕ} {x y : Option ℕ} {l r s : BinaryTree ℕ}
  {c : List (Frame ℕ)} {f : Frame ℕ}

/-- `Dump`, as the list of the nodes whose values it writes, unless it never ends. -/
def dumpLoop (t : SearchTree) : ℕ → Option ℕ → Option (List ℕ)
  | _, none => some []
  | 0, some _ => none
  | fuel + 1, some n => do
    let left ← dumpLoop t fuel (t.left n)
    let right ← dumpLoop t fuel (t.right n)
    return left ++ n :: right

/-- `Dump` of the whole tree. -/
def dump (t : SearchTree) : Option (List ℕ) := t.dumpLoop t.fresh t.root

/-- Below its top, the pointers form this tree. -/
def Shape (t : SearchTree) : BinaryTree ℕ → Prop
  | .nil => True
  | .node n l r => t.left n = top l ∧ t.right n = top r ∧ Shape t l ∧ Shape t r

/-- The pointer of the place of a frame. -/
def slot (t : SearchTree) : Frame ℕ → Option ℕ
  | .left n _ => t.left n
  | .right n _ => t.right n

/-- The pointer on the other side of a frame. -/
def otherSlot (t : SearchTree) : Frame ℕ → Option ℕ
  | .left n _ => t.right n
  | .right n _ => t.left n

/-- The pointers lead from the root through these frames to a place that holds this pointer. -/
def Around (t : SearchTree) : List (Frame ℕ) → Option ℕ → Prop
  | [], x => t.root = x
  | f :: c, x => t.slot f = x ∧ t.otherSlot f = top f.sibling ∧ t.Shape f.sibling ∧
      Around t c (some f.node)

/-- The pointers from the root on form this tree, of different nodes that were allocated. -/
structure IsTree (t : SearchTree) (s : BinaryTree ℕ) : Prop where
  root : t.root = top s
  shape : t.Shape s
  nodup : (inorder s).Nodup
  allocated : ∀ n ∈ inorder s, n < t.fresh

section Places

/-- A subtree hangs in a place of the tree exactly if the pointers form the whole tree. -/
theorem around_top_iff : t.Around c (top s) ∧ t.Shape s ↔
    t.root = top (plug c s) ∧ t.Shape (plug c s) := by
  induction c generalizing s with
  | nil => exact Iff.rfl
  | cons f c ih =>
    rw [plug, ← ih]
    cases f with
    | left | right =>
      simp only [Around, slot, otherSlot, Frame.node, Frame.sibling, Frame.attach, top, Shape]
      tauto

/-- A subtree of the tree hangs in its place. -/
theorem IsTree.around (h : t.IsTree (plug c s)) : t.Around c (top s) ∧ t.Shape s :=
  around_top_iff.mpr ⟨h.root, h.shape⟩

theorem SameChildren.mono {ms ns : List ℕ} (h : t.SameChildren t' ns) (hsub : ms ⊆ ns) :
    t.SameChildren t' ms :=
  fun m hm => h m (hsub hm)

/-- Pointers that stay keep the tree below them. -/
theorem Shape.congr (h : t.Shape s) (hsame : t.SameChildren t' (inorder s)) : t'.Shape s := by
  induction s with
  | nil => trivial
  | node n l r ihl ihr =>
    obtain ⟨hleft, hright, hl, hr⟩ := h
    obtain ⟨hleft', hright'⟩ := hsame n (by simp [inorder])
    refine ⟨hleft'.trans hleft, hright'.trans hright, ihl hl (hsame.mono ?_),
      ihr hr (hsame.mono ?_)⟩
    · exact List.subset_append_left _ _
    · exact fun m hm => by simp [inorder, hm]

/-- The pointers of a frame are those of its node. -/
theorem SameChildren.slot {ns : List ℕ} (h : t.SameChildren t' ns) (hf : f.node ∈ ns) :
    t'.slot f = t.slot f ∧ t'.otherSlot f = t.otherSlot f := by
  obtain ⟨hleft, hright⟩ := h f.node hf
  cases f with
  | left n r => exact ⟨hleft, hright⟩
  | right n l => exact ⟨hright, hleft⟩

/-- Pointers that stay keep what is around a place. -/
theorem Around.congr (h : t.Around c x) (hroot : t'.root = t.root)
    (hsame : t.SameChildren t' (before c ++ after c)) : t'.Around c x := by
  induction c generalizing x with
  | nil => exact hroot.trans h
  | cons f c ih =>
    obtain ⟨hslot, hother, hsibling, hc⟩ := h
    obtain ⟨hslot', hother'⟩ := hsame.slot (f := f) (mem_around_cons.mpr (.inl rfl))
    refine ⟨hslot'.trans hslot, hother'.trans hother, hsibling.congr (hsame.mono ?_),
      ih hc (hsame.mono ?_)⟩
    · exact fun m hm => mem_around_cons.mpr (.inr (.inl hm))
    · exact fun m hm => mem_around_cons.mpr (.inr (.inr hm))

/-- Write the pointer of a place. -/
def setSlot (t : SearchTree) : List (Frame ℕ) → Option ℕ → SearchTree
  | [], x => { t with root := x }
  | .left n _ :: _, x => t.setLeft n x
  | .right n _ :: _, x => t.setRight n x

/-- Writing the pointer of a place changes no other node. -/
theorem sameChildren_setSlot {ns : List ℕ} (h : ∀ f ∈ c.head?, f.node ∉ ns) :
    t.SameChildren (t.setSlot c x) ns := by
  intro m hm
  cases c with
  | nil => exact ⟨rfl, rfl⟩
  | cons f c =>
    have hne : m ≠ f.node := fun heq => h f rfl (heq ▸ hm)
    cases f with
    | left n | right n => simp [setSlot, show m ≠ n from hne]

/-- Writing the pointer of a place changes what hangs there, and nothing around it. -/
theorem Around.setSlot (h : t.Around c x) (hnodup : (before c ++ after c).Nodup) (y : Option ℕ) :
    (t.setSlot c y).Around c y := by
  cases c with
  | nil => rfl
  | cons f c =>
    obtain ⟨-, hother, hsibling, hc⟩ := h
    obtain ⟨hfsibling, hfc, -⟩ := nodup_around_cons hnodup
    have hslots : (t.setSlot (f :: c) y).slot f = y ∧
        (t.setSlot (f :: c) y).otherSlot f = t.otherSlot f ∧
          (t.setSlot (f :: c) y).root = t.root := by
      cases f with
      | left | right => simp [SearchTree.setSlot, slot, otherSlot]
    exact ⟨hslots.1, hslots.2.1.trans hother,
      hsibling.congr (sameChildren_setSlot fun g hg => Option.some.inj hg ▸ hfsibling),
      hc.congr hslots.2.2 (sameChildren_setSlot fun g hg => Option.some.inj hg ▸ hfc)⟩

@[simp]
theorem fresh_setSlot : (t.setSlot c x).fresh = t.fresh := by
  match c with
  | [] => rfl
  | .left _ _ :: _ => rfl
  | .right _ _ :: _ => rfl

@[simp]
theorem value_setSlot : (t.setSlot c x).value n = t.value n := by
  match c with
  | [] => rfl
  | .left _ _ :: _ => simp [setSlot]
  | .right _ _ :: _ => simp [setSlot]

theorem node_mem_around (hf : f ∈ c.head?) : f.node ∈ before c ++ after c := by
  cases c with
  | nil => cases hf
  | cons g c =>
    cases hf
    exact mem_around_cons.mpr (.inl rfl)

/-- Writing the pointer of a place changes nothing that is not around it. -/
theorem children_setSlot (h : n ∉ before c ++ after c) :
    (t.setSlot c x).left n = t.left n ∧ (t.setSlot c x).right n = t.right n := by
  refine sameChildren_setSlot (fun f hf => ?_) n (List.mem_singleton_self n)
  rw [List.mem_singleton]
  rintro rfl
  exact h (node_mem_around hf)

/-- Writing the pointer of a place hangs another subtree there. -/
theorem Around.isTree_setSlot (h : t.Around c x) (hshape : t.Shape s)
    (hnodup : (inorder (plug c s)).Nodup) (hallocated : ∀ n ∈ inorder (plug c s), n < t.fresh) :
    (t.setSlot c (top s)).IsTree (plug c s) := by
  obtain ⟨-, haround, hdisjoint⟩ := nodup_plug.mp hnodup
  have hplace : (t.setSlot c (top s)).Around c (top s) := h.setSlot haround (top s)
  have hbelow : (t.setSlot c (top s)).Shape s :=
    hshape.congr fun n hn => children_setSlot fun hmem => hdisjoint n hmem hn
  obtain ⟨hroot, hwhole⟩ := around_top_iff.mp ⟨hplace, hbelow⟩
  exact ⟨hroot, hwhole, hnodup, by simpa using hallocated⟩

theorem IsTree.setParent (h : t.IsTree s) (n : ℕ) (x : Option ℕ) : (t.setParent n x).IsTree s :=
  ⟨h.root, h.shape.congr fun m _ => by simp, h.nodup, h.allocated⟩

end Places

section Links

/-- What hangs in a place of the tree is reached. -/
theorem Around.reaches (h : t.Around c (some u)) : t.rooted.Reaches u := by
  induction c generalizing u with
  | nil => exact ⟨[], .root h⟩
  | cons f c ih =>
    obtain ⟨hslot, -, -, hc⟩ := h
    refine (ih hc).step ?_
    cases f with
    | left n r => exact .inl hslot
    | right n l => exact .inr hslot

/-- With consistent links, the parent of what hangs in a place is the nearest node around it. -/
theorem Around.parent (h : t.Around c (some u)) (hlinks : t.rooted.ParentLinks) :
    t.parent u = c.head?.map Frame.node := by
  cases c with
  | nil => exact hlinks.root u h
  | cons f c =>
    obtain ⟨hslot, -, -, hc⟩ := h
    refine hlinks.child f.node u hc.reaches ?_
    cases f with
    | left n r => exact .inl hslot
    | right n l => exact .inr hslot

/-- `Transplant` writes the pointer of the place of a node whose link is consistent. -/
theorem Around.transplant_eq (h : t.Around c (some u))
    (hparent : t.parent u = c.head?.map Frame.node) (hu : u ∉ before c ++ after c)
    (x : Option ℕ) : t.transplant u x = t.setSlot c x := by
  cases c with
  | nil =>
    rw [transplant, hparent]
    rfl
  | cons f c =>
    obtain ⟨hslot, hother, -, -⟩ := h
    rw [transplant, hparent]
    cases f with
    | left n r => exact if_pos hslot
    | right n l =>
      -- the node is not the left child, since it is not in the subtree there
      have hleft : t.left n ≠ some u := by
        intro hleft
        have htop : top l = some u := hother.symm.trans hleft
        exact hu (mem_around_cons.mpr (.inr (.inl (mem_of_top htop))))
      exact if_neg hleft

end Links

section Min

/-- `Min` goes to the first node, which has nothing on its left. -/
theorem Shape.exists_min (h : t.Shape (.node n l r))
    (hfuel : (BinaryTree.node n l r).height ≤ fuel) :
    ∃ c p q, .node n l r = plug c (.node p .nil q) ∧ before c = [] ∧ t.minLoop fuel n = some p := by
  induction l generalizing n r fuel with
  | nil =>
    obtain ⟨fuel, rfl, -⟩ := exists_of_height_node_le hfuel
    exact ⟨[], n, r, rfl, rfl, by rw [minLoop, h.1]; rfl⟩
  | node m l' r' ih _ =>
    obtain ⟨fuel, rfl, hfuell, -⟩ := exists_of_height_node_le hfuel
    obtain ⟨hleft, -, hl, -⟩ := h
    obtain ⟨c, p, q, hplug, hc, hmin⟩ := ih hl hfuell
    refine ⟨c ++ [.left n r], p, q, by rw [plug_append, ← hplug]; rfl, by simp [before, hc], ?_⟩
    rw [minLoop, hleft]
    exact hmin

end Min

section Dump

/-- `Dump` visits the nodes from left to right, if it has the height of the tree for its calls. -/
theorem Shape.dumpLoop (h : t.Shape s) (hfuel : s.height ≤ fuel) :
    t.dumpLoop fuel (top s) = some (inorder s) := by
  induction s generalizing fuel with
  | nil => cases fuel <;> rfl
  | node n l r ihl ihr =>
    obtain ⟨hleft, hright, hl, hr⟩ := h
    obtain ⟨fuel, rfl, hfuell, hfuelr⟩ := exists_of_height_node_le hfuel
    rw [top_node, SearchTree.dumpLoop, hleft, hright, ihl hl hfuell, ihr hr hfuelr]
    rfl

theorem IsTree.length_le (h : t.IsTree s) : (inorder s).length ≤ t.fresh := by
  have hsub : inorder s ⊆ List.range t.fresh := fun n hn => List.mem_range.mpr (h.allocated n hn)
  have hlength := (h.nodup.subperm hsub).length_le
  rwa [List.length_range] at hlength

/-- The bound of the loops down the tree is enough for every subtree. -/
theorem IsTree.height_le (h : t.IsTree (plug c s)) : s.height ≤ t.fresh := by
  have hnodes : (inorder s).length ≤ (inorder (plug c s)).length := by
    simp only [inorder_plug, List.length_append]
    omega
  exact ((height_le_length_inorder s).trans hnodes).trans h.length_le

/-- The bound is enough for the way up from every subtree. -/
theorem IsTree.frames_le (h : t.IsTree (plug c s)) : c.length ≤ t.fresh := by
  have hnodes : (before c ++ after c).length ≤ (inorder (plug c s)).length := by
    simp only [inorder_plug, List.length_append]
    omega
  exact ((length_le_around c).trans hnodes).trans h.length_le

/-- `Dump` visits the nodes of the tree from left to right. -/
theorem IsTree.dump (h : t.IsTree s) : t.dump = some (inorder s) := by
  rw [SearchTree.dump, h.root]
  exact h.shape.dumpLoop (h.height_le (c := []))

/-- The nodes of the tree are those that are reached. -/
theorem IsTree.mem_iff (h : t.IsTree s) : n ∈ inorder s ↔ t.rooted.Reaches n := by
  constructor
  · intro hn
    obtain ⟨c, l, r, rfl⟩ := exists_plug hn
    exact h.around.1.reaches
  · rintro ⟨as, hpath⟩
    induction hpath with
    | root hroot => exact mem_of_top (h.root.symm.trans hroot)
    | @step as m n _ hchild ih =>
      obtain ⟨c, l, r, rfl⟩ := exists_plug ih
      obtain ⟨-, hleft, hright, -⟩ := h.around
      have hbelow : n ∈ inorder l ∨ n ∈ inorder r :=
        hchild.imp (fun hn => mem_of_top (hleft.symm.trans hn))
          fun hn => mem_of_top (hright.symm.trans hn)
      obtain hn | hn := hbelow <;> simp [inorder, hn]

end Dump

end SearchTree

end Demos.Algorithm
