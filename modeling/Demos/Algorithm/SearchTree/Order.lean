import Demos.Algorithm.SearchTree.Shape

/-!
# The order of a search tree

`Insert` goes down to the empty place that admits the new value and hangs a leaf there. `Delete`
puts a subtree in the place of its parent, or the first node of the right subtree in the place of
the deleted node. The tree stays ordered, and from left to right its nodes are those that were
there, with the new node behind the values that are not larger, or without the deleted node.
-/

namespace Demos.Algorithm

open Demos.Lib

namespace SearchTree

variable {t t' : SearchTree} {n p u fuel : ℕ} {v : ℤ} {x : Option ℕ} {l r s : BinaryTree ℕ}
  {c : List (Frame ℕ)}

/-- The pointers form a tree that is ordered by the values of its nodes. -/
def IsOrdered (t : SearchTree) : Prop := ∃ s, t.IsTree s ∧ Ordered t.value s

section Insert

/-- The loop of `Insert` goes down to the empty place that admits the value. -/
theorem descend_spec (hfuel : s.height ≤ fuel) (h : t.Around c (top s)) (hshape : t.Shape s)
    (hadmits : Admits t.value c v) :
    ∃ c', plug c' .nil = plug c s ∧ t.Around c' none ∧ Admits t.value c' v ∧
      t.descend v fuel (c.head?.map Frame.node) (top s) = some (c'.head?.map Frame.node) := by
  induction s generalizing c fuel with
  | nil => exact ⟨c, rfl, h, hadmits, by cases fuel <;> rfl⟩
  | node n l r ihl ihr =>
    obtain ⟨hleft, hright, hl, hr⟩ := hshape
    obtain ⟨fuel, rfl, hfuell, hfuelr⟩ := exists_of_height_node_le hfuel
    rw [top_node, descend]
    by_cases hv : v < t.value n
    · rw [if_pos hv, hleft]
      exact ihl (c := .left n r :: c) hfuell ⟨hleft, hright, hr, h⟩ hl ⟨hv, hadmits⟩
    · rw [if_neg hv, hright]
      exact ihr (c := .right n l :: c) hfuelr ⟨hright, hleft, hl, h⟩ hr ⟨not_lt.mp hv, hadmits⟩

/-- Allocating a node changes nothing in the tree. -/
theorem IsTree.alloc (h : t.IsTree s) (v : ℤ) : (t.alloc v).IsTree s := by
  refine ⟨h.root, h.shape.congr fun n hn => ?_, h.nodup, fun n hn => ?_⟩
  · simp [(h.allocated n hn).ne]
  · exact (h.allocated n hn).trans (Nat.lt_succ_self t.fresh)

/-- `Insert` hangs the allocated node in an empty place that admits its value. -/
theorem IsTree.exists_insert (h : t.IsTree s) (v : ℤ) :
    ∃ c t', plug c .nil = s ∧ t.insert v = some t' ∧
      t'.IsTree (plug c (.node t.fresh .nil .nil)) ∧ t'.value = (t.alloc v).value ∧
      Admits (t.alloc v).value c v := by
  obtain ⟨c, rfl, haround, hadmits, hdescend⟩ := descend_spec (t := t.alloc v) (v := v) (c := [])
    (h.height_le (c := [])) (h.alloc v).root (h.alloc v).shape trivial
  obtain ⟨-, hnodup, -⟩ := nodup_plug.mp h.nodup
  have hold : ∀ n ∈ before c ++ after c, n < t.fresh :=
    fun n hn => h.allocated n (mem_inorder_plug.mpr (.inr hn))
  have hleaf : (t.alloc v).Shape (.node t.fresh .nil .nil) :=
    ⟨by simp [top], by simp [top], trivial, trivial⟩
  have htree :
      ((t.alloc v).setSlot c (some t.fresh)).IsTree (plug c (.node t.fresh .nil .nil)) := by
    refine haround.isTree_setSlot hleaf ?_ fun n hn => ?_
    · exact nodup_plug.mpr ⟨by simp [inorder], hnodup,
        fun n hn => by simp [inorder, (hold n hn).ne]⟩
    · obtain hn | hn := mem_inorder_plug.mp hn
      · obtain rfl : n = t.fresh := by simpa [inorder] using hn
        exact Nat.lt_succ_self t.fresh
      · exact (hold n hn).trans (Nat.lt_succ_self t.fresh)
  have hloop :
      (t.alloc v).descend v t.fresh none (t.alloc v).root = some (c.head?.map Frame.node) := by
    rw [root_alloc, h.root]
    exact hdescend
  cases c with
  | nil =>
    refine ⟨[], _, rfl, ?_, htree, rfl, hadmits⟩
    simp only [SearchTree.insert, hloop]
    rfl
  | cons f c =>
    refine ⟨f :: c, _, rfl, ?_, htree.setParent t.fresh (some f.node), ?_, hadmits⟩
    · cases f with
      | left n r =>
        have hlt : v < (t.alloc v).value n := hadmits.1
        simp only [SearchTree.insert, hloop]
        exact if_pos hlt
      | right n l =>
        have hle : ¬ v < (t.alloc v).value n := not_lt.mpr hadmits.1
        simp only [SearchTree.insert, hloop]
        exact if_neg hle
    · funext n
      rw [value_setParent, value_setSlot]

/-- The new node is visited behind the nodes whose values are not larger. -/
structure Inserted (t : SearchTree) (v : ℤ) (ns : List ℕ) (t' : SearchTree) : Prop where
  dump : ∃ pre post, ns = pre ++ post ∧ t'.dump = some (pre ++ t.fresh :: post) ∧
    (∀ n ∈ pre, t.value n ≤ v) ∧ ∀ n ∈ post, v < t.value n
  value_new : t'.value t.fresh = v
  value_old : ∀ n ∈ ns, t'.value n = t.value n

theorem IsTree.linked (h : t.IsTree s) (hlinks : t.rooted.ParentLinks) : t.Linked :=
  ⟨hlinks, fun n hn => h.allocated n (h.mem_iff.mpr hn)⟩

/-- `Insert` keeps the tree ordered and its links consistent, and puts the new node behind the
values that are not larger. -/
theorem IsTree.inserted (h : t.IsTree s) (hord : Ordered t.value s) (hlinks : t.rooted.ParentLinks)
    (v : ℤ) : ∃ t', t.insert v = some t' ∧ t'.IsOrdered ∧ t'.rooted.ParentLinks ∧
      t.Inserted v (inorder s) t' := by
  obtain ⟨c, t', rfl, hinsert, htree, hvalue, hadmits⟩ := h.exists_insert v
  have hnew : t'.value t.fresh = v := by simp [hvalue]
  have hold : ∀ n ∈ inorder (plug c .nil), t'.value n = t.value n := by
    intro n hn
    simp [hvalue, (h.allocated n hn).ne]
  rw [← hvalue] at hadmits
  obtain ⟨haround, -, -⟩ := ordered_plug_iff.mp (hord.congr hold)
  have hord' : Ordered t'.value (plug c (.node t.fresh .nil .nil)) := by
    refine ordered_plug_iff.mpr ⟨haround, by simp [Ordered, inorder], fun n hn => ?_⟩
    obtain rfl : n = t.fresh := by simpa [inorder] using hn
    rwa [hnew]
  have hns : inorder (plug c .nil) = before c ++ after c := by simp [inorder]
  rw [hns] at hold ⊢
  obtain ⟨hpre, hpost⟩ := haround.bounds hadmits
  refine ⟨t', hinsert, ⟨_, htree, hord'⟩, ((h.linked hlinks).insert hinsert).links,
    ⟨before c, after c, rfl, ?_, ?_, ?_⟩, hnew, hold⟩
  · rw [htree.dump]
    simp [inorder]
  · intro n hn
    rw [← hold n (List.mem_append_left _ hn)]
    exact hpre n hn
  · intro n hn
    rw [← hold n (List.mem_append_right _ hn)]
    exact hpost n hn

theorem isOrdered_empty : empty.IsOrdered :=
  ⟨.nil, ⟨rfl, trivial, .nil, fun _ hn => absurd hn List.not_mem_nil⟩, trivial⟩

/-- The values of the nodes after a call of `Insert` are those before it and the new one. -/
theorem Inserted.values {ns ns' : List ℕ} (h : t.Inserted v ns t') (hdump : t'.dump = some ns') :
    (ns'.map t'.value).Perm (v :: ns.map t.value) := by
  obtain ⟨⟨pre, post, rfl, hdump', -⟩, hnew, hold⟩ := h
  obtain rfl := Option.some.inj (hdump.symm.trans hdump')
  rw [← List.map_congr_left hold, List.map_append, List.map_cons, hnew, List.map_append]
  exact List.perm_middle

/-- A sequence of calls of `Insert` returns, keeps the tree ordered and its links consistent, and
adds a node for each of the values. -/
theorem IsOrdered.exists_inserts {ns : List ℕ} (h : t.IsOrdered) (hlinks : t.rooted.ParentLinks)
    (hdump : t.dump = some ns) (values : List ℤ) :
    ∃ t', values.foldlM SearchTree.insert t = some t' ∧ t'.IsOrdered ∧ t'.rooted.ParentLinks ∧
      ∃ ns', t'.dump = some ns' ∧ (ns'.map t'.value).Perm (values ++ ns.map t.value) := by
  induction values generalizing t ns with
  | nil => exact ⟨t, rfl, h, hlinks, ns, hdump, .refl _⟩
  | cons v values ih =>
    obtain ⟨s, htree, hord⟩ := h
    obtain rfl := Option.some.inj (htree.dump.symm.trans hdump)
    obtain ⟨t₁, hinsert, h₁, hlinks₁, hinserted⟩ := htree.inserted hord hlinks v
    obtain ⟨s₁, htree₁, -⟩ := id h₁
    obtain ⟨t', hrest, h', hlinks', ns', hdump', hvalues⟩ := ih h₁ hlinks₁ htree₁.dump
    refine ⟨t', by rw [List.foldlM_cons, hinsert]; exact hrest, h', hlinks', ns', hdump', ?_⟩
    have hfirst := (hinserted.values htree₁.dump).append_left values
    exact (hvalues.trans hfirst).trans List.perm_middle

/-- Calls of `Insert` build an ordered tree with consistent links from the null tree, with a node
for each of the values. -/
theorem ofValues_spec (values : List ℤ) :
    values.foldlM SearchTree.insert empty = some (ofValues values) ∧
      (ofValues values).IsOrdered ∧ (ofValues values).rooted.ParentLinks ∧
      ∃ ns, (ofValues values).dump = some ns ∧ (ns.map (ofValues values).value).Perm values := by
  obtain ⟨t, hinserts, h⟩ := isOrdered_empty.exists_inserts linked_empty.links rfl values
  have hvalues : ofValues values = t := by
    rw [ofValues, hinserts]
    rfl
  rw [List.map_nil, List.append_nil] at h
  rw [hvalues]
  exact ⟨hinserts, h⟩

end Insert

section Delete

variable {s' rest : BinaryTree ℕ}

/-- `Transplant` hangs a part of a subtree in the place of its top. -/
theorem IsTree.transplant (h : t.IsTree (plug c (.node u l r))) (hlinks : t.rooted.ParentLinks)
    (hshape : t.Shape s) (hsub : (inorder s).Sublist (inorder (.node u l r))) :
    (t.transplant u (top s)).IsTree (plug c s) := by
  obtain ⟨haround, -⟩ := h.around
  have hu : u ∉ before c ++ after c := notMem_around_of_nodup h.nodup
  have hsub' : (inorder (plug c s)).Sublist (inorder (plug c (.node u l r))) := by
    rw [inorder_plug, inorder_plug]
    exact (List.Sublist.refl _).append (hsub.append (List.Sublist.refl _))
  rw [haround.transplant_eq (haround.parent hlinks) hu]
  exact haround.isTree_setSlot hshape (h.nodup.sublist hsub')
    fun n hn => h.allocated n (hsub'.subset hn)

@[simp]
theorem value_transplant : (t.transplant u x).value n = t.value n := by
  unfold SearchTree.transplant
  split
  · rfl
  · split <;> simp

/-- The right subtree of `u` has lost its first node `p`, whose right child is what remains. -/
structure Freed (t : SearchTree) (c : List (Frame ℕ)) (u p : ℕ) (l rest : BinaryTree ℕ) : Prop where
  around : t.Around c (some u)
  parent : t.parent u = c.head?.map Frame.node
  left : t.left u = top l
  right : t.right p = top rest
  shapeLeft : t.Shape l
  shapeRest : t.Shape rest

/-- A first node that is deeper in the right subtree has its parent there, and `Transplant` takes it
out of the tree. -/
theorem IsTree.transplant_min {f : Frame ℕ} {d : List (Frame ℕ)} {q : BinaryTree ℕ}
    (h : t.IsTree (plug c (.node u l (plug (f :: d) (.node p .nil q)))))
    (hlinks : t.rooted.ParentLinks) :
    t.parent p ≠ some u ∧ t.right p = top q ∧
      (t.transplant p (top q)).IsTree (plug c (.node u l (plug (f :: d) q))) ∧
      p ∉ inorder (plug c (.node u l (plug (f :: d) q))) := by
  have hu := (notMem_of_nodup_node (nodup_plug.mp h.nodup).1).2
  have hplug : ∀ s, plug c (.node u l (plug (f :: d) s)) = plug (f :: d ++ .right u l :: c) s :=
    fun s => by rw [plug_append]; rfl
  rw [hplug] at h ⊢
  obtain ⟨hplace, -, hright, -, hq⟩ := h.around
  refine ⟨?_, hright, h.transplant hlinks hq (by simp [inorder]), ?_⟩
  · rw [hplace.parent hlinks]
    intro heq
    obtain rfl : f.node = u := Option.some.inj heq
    exact hu (mem_inorder_plug.mpr (.inr (mem_around_cons.mpr (.inl rfl))))
  · intro hmem
    obtain hmem | hmem := mem_inorder_plug.mp hmem
    · exact (notMem_of_nodup_node (nodup_plug.mp h.nodup).1).2 hmem
    · exact notMem_around_of_nodup h.nodup hmem

/-- A node outside of the tree gets the right subtree. -/
theorem IsTree.freed {w : ℕ} (h : t.IsTree (plug c (.node u l rest)))
    (hparent : t.parent u = c.head?.map Frame.node) (hp : p ∉ inorder (plug c (.node u l rest)))
    (hw : top rest = some w) :
    ((t.setRight p (some w)).setParent w (some p)).Freed c u p l rest := by
  obtain ⟨haround, hleft, -, hl, hr⟩ := h.around
  have hsame : t.SameChildren ((t.setRight p (some w)).setParent w (some p))
      (inorder (plug c (.node u l rest))) := by
    intro m hm
    have hne : m ≠ p := fun heq => hp (heq ▸ hm)
    simp [hne]
  have hwu : u ≠ w := by
    rintro rfl
    exact (notMem_of_nodup_node (nodup_plug.mp h.nodup).1).2 (mem_of_top hw)
  refine ⟨haround.congr rfl (hsame.mono ?_), ?_, ?_, ?_, hl.congr (hsame.mono ?_),
    hr.congr (hsame.mono ?_)⟩
  · exact fun m hm => mem_inorder_plug.mpr (.inr hm)
  · simp [hwu, hparent]
  · simpa using hleft
  · simp [hw]
  · exact fun m hm => mem_inorder_plug.mpr (.inl (by simp [inorder, hm]))
  · exact fun m hm => mem_inorder_plug.mpr (.inl (by simp [inorder, hm]))

/-- The first node of the right subtree is taken out. -/
theorem IsTree.exists_detachMin {d : List (Frame ℕ)} {q : BinaryTree ℕ}
    (h : t.IsTree (plug c (.node u l (plug d (.node p .nil q))))) (hlinks : t.rooted.ParentLinks) :
    ∃ t₁, t.detachMin u p = some t₁ ∧ t₁.Freed c u p l (plug d q) ∧ t₁.fresh = t.fresh ∧
      t₁.value = t.value := by
  obtain ⟨haround, hleft, hright, hl, hr⟩ := h.around
  have hparent := haround.parent hlinks
  cases d with
  | nil =>
    -- the first node is the right child, and stays where it is
    have hp : t.parent p = some u := hlinks.child u p haround.reaches (.inr hright)
    exact ⟨t, if_neg (not_not.mpr hp), ⟨haround, hparent, hleft, hr.2.1, hl, hr.2.2.2⟩, rfl, rfl⟩
  | cons f d =>
    obtain ⟨hpparent, hpright, htree, hp⟩ := h.transplant_min hlinks
    obtain ⟨w, hw⟩ : ∃ w, top (plug (f :: d) q) = some w := exists_top_plug_cons
    have hright' : (t.transplant p (top q)).right u = some w := htree.around.2.2.1.trans hw
    refine ⟨((t.transplant p (top q)).setRight p (some w)).setParent w (some p), ?_,
      htree.freed (by rw [parent_transplant, hparent]) hp hw, fresh_transplant, ?_⟩
    · simp [detachMin, hpparent, hpright, hright']
    · funext n
      simp

/-- The node that was taken out gets the place and the left subtree of `u`. -/
theorem Freed.isTree (h : t.Freed c u p l rest) (hu : u ∉ before c ++ after c)
    (hnodup : (inorder (plug c (.node p l rest))).Nodup)
    (hallocated : ∀ n ∈ inorder (plug c (.node p l rest)), n < t.fresh) :
    (t.transplant u (some p)).left u = top l ∧
      ((t.transplant u (some p)).setLeft p (top l)).IsTree (plug c (.node p l rest)) := by
  obtain ⟨hbelow, haround, hdisjoint⟩ := nodup_plug.mp hnodup
  obtain ⟨hpl, hprest⟩ := notMem_of_nodup_node hbelow
  have hp : p ∉ before c ++ after c := notMem_around_of_nodup hnodup
  have hleft : (t.setSlot c (some p)).left u = top l := (children_setSlot hu).1.trans h.left
  -- neither the place nor the node itself belongs to the two subtrees
  have hsame : t.SameChildren ((t.setSlot c (some p)).setLeft p (top l))
      (inorder l ++ inorder rest) := by
    intro m hm
    have hne : m ≠ p := by
      rintro rfl
      exact (List.mem_append.mp hm).elim hpl hprest
    have hplace : m ∉ before c ++ after c := by
      intro hmem
      refine hdisjoint m hmem ?_
      obtain hm | hm := List.mem_append.mp hm <;> simp [inorder, hm]
    simp [hne, children_setSlot hplace]
  have hshape : ((t.setSlot c (some p)).setLeft p (top l)).Shape (.node p l rest) := by
    refine ⟨by simp, ?_, h.shapeLeft.congr (hsame.mono (List.subset_append_left _ _)),
      h.shapeRest.congr (hsame.mono (List.subset_append_right _ _))⟩
    rw [right_setLeft, (children_setSlot hp).2, h.right]
  have haround' : ((t.setSlot c (some p)).setLeft p (top l)).Around c (some p) := by
    refine (h.around.setSlot haround (some p)).congr rfl fun m hm => ?_
    have hne : m ≠ p := fun heq => hp (heq ▸ hm)
    simp [hne]
  rw [h.around.transplant_eq h.parent hu]
  obtain ⟨hroot, hwhole⟩ := around_top_iff.mp ⟨haround', hshape⟩
  exact ⟨hleft, hroot, hwhole, hnodup,
    fun n hn => (hallocated n hn).trans_eq fresh_setSlot.symm⟩

/-- The tree is ordered with the first node of the right subtree in the place of the top. -/
theorem ordered_replaced {value : ℕ → ℤ} {d : List (Frame ℕ)} {q : BinaryTree ℕ}
    (hd : before d = []) (h : Ordered value (.node u l (plug d (.node p .nil q)))) :
    Ordered value (.node p l (plug d q)) := by
  obtain ⟨hl, hr, hordl, hordr⟩ := ordered_node.mp h
  have hinorder : inorder (plug d (.node p .nil q)) = p :: inorder (plug d q) := by
    simp [hd, inorder]
  have hsorted := hordr.pairwise
  rw [hinorder, List.pairwise_cons] at hsorted
  obtain ⟨hd', hordq, hadmits⟩ := ordered_plug_iff.mp hordr
  have hp : value u ≤ value p := hr p (by simp [hinorder])
  refine ordered_node.mpr ⟨fun x hx => (hl x hx).trans_le hp, hsorted.1, hordl,
    ordered_plug_iff.mpr ⟨hd', hordq.2.2.2, fun x hx => hadmits x (by simp [inorder, hx])⟩⟩

/-- `Delete` of a node with two children. -/
theorem IsTree.exists_delete_inner {m k : ℕ} {ll lr rl rr : BinaryTree ℕ}
    (h : t.IsTree (plug c (.node u (.node m ll lr) (.node k rl rr))))
    (hlinks : t.rooted.ParentLinks) :
    ∃ t' d p q, t.delete u = some t' ∧ .node k rl rr = plug d (.node p .nil q) ∧ before d = [] ∧
      t'.IsTree (plug c (.node p (.node m ll lr) (plug d q))) ∧ t'.value = t.value := by
  obtain ⟨-, hleft, hright, -, hr⟩ := h.around
  have hfuel : (BinaryTree.node k rl rr).height ≤ t.fresh :=
    h.height_le (c := .right u (.node m ll lr) :: c)
  obtain ⟨d, p, q, hplug, hd, hmin⟩ := hr.exists_min hfuel
  rw [hplug] at h
  obtain ⟨t₁, hdetach, hfreed, hfresh, hvalue⟩ := h.exists_detachMin hlinks
  have hu : u ∉ before c ++ after c := notMem_around_of_nodup h.nodup
  have hsub : (inorder (plug c (.node p (.node m ll lr) (plug d q)))).Sublist
      (inorder (plug c (.node u (.node m ll lr) (plug d (.node p .nil q))))) := by
    simp [inorder, hd]
  obtain ⟨hleft', htree⟩ := hfreed.isTree hu (h.nodup.sublist hsub)
    fun n hn => hfresh ▸ h.allocated n (hsub.subset hn)
  refine ⟨_, d, p, q, ?_, hplug, hd, htree.setParent m (some p), ?_⟩
  · have hmin' : t.min k = some p := hmin
    simp [delete, hleft, hright, hmin', hdetach, hleft']
  · funext n
    simp [hvalue]

/-- `Delete` leaves a tree of the other nodes, which is ordered if the tree was. -/
theorem IsTree.exists_delete (h : t.IsTree (plug c (.node u l r))) (hlinks : t.rooted.ParentLinks) :
    ∃ t' s, t.delete u = some t' ∧ t'.IsTree (plug c s) ∧ t'.value = t.value ∧
      inorder s = inorder l ++ inorder r ∧
      ∀ value : ℕ → ℤ, Ordered value (.node u l r) → Ordered value s := by
  obtain ⟨-, hleft, hright, hl, hr⟩ := h.around
  cases l with
  | nil =>
    refine ⟨_, r, ?_, h.transplant hlinks hr (by simp [inorder]), funext fun n => value_transplant,
      rfl, fun value hord => (ordered_node.mp hord).2.2.2⟩
    simp [delete, hleft, hright, top]
  | node m ll lr =>
    cases r with
    | nil =>
      refine ⟨_, .node m ll lr, ?_, h.transplant hlinks hl (by simp [inorder]),
        funext fun n => value_transplant, by simp [inorder], fun value hord => ?_⟩
      · simp [delete, hleft, hright, top]
      · exact (ordered_node.mp hord).2.2.1
    | node k rl rr =>
      obtain ⟨t', d, p, q, hdelete, hplug, hd, htree, hvalue⟩ := h.exists_delete_inner hlinks
      refine ⟨t', _, hdelete, htree, hvalue, ?_, fun value hord => ?_⟩
      · rw [hplug]
        simp [inorder, hd]
      · rw [hplug] at hord
        exact ordered_replaced hd hord

/-- The deleted node is not visited any more. -/
structure Deleted (t : SearchTree) (u : ℕ) (ns : List ℕ) (t' : SearchTree) : Prop where
  dump : ∃ pre post, ns = pre ++ u :: post ∧ t'.dump = some (pre ++ post)
  value : t'.value = t.value

/-- `Delete` keeps the tree ordered and takes exactly the deleted node out. -/
theorem IsTree.deleted (h : t.IsTree s) (hord : Ordered t.value s) (hlinks : t.rooted.ParentLinks)
    (hu : u ∈ inorder s) :
    ∃ t', t.delete u = some t' ∧ t'.IsOrdered ∧ t.Deleted u (inorder s) t' := by
  obtain ⟨c, l, r, rfl⟩ := exists_plug hu
  obtain ⟨t', s', hdelete, htree, hvalue, hinorder, hordered⟩ := h.exists_delete hlinks
  obtain ⟨haround, hnode, hadmits⟩ := ordered_plug_iff.mp hord
  have hord' : Ordered t'.value (plug c s') := by
    rw [hvalue]
    refine ordered_plug_iff.mpr ⟨haround, hordered _ hnode, fun n hn => hadmits n ?_⟩
    rw [hinorder, List.mem_append] at hn
    obtain hn | hn := hn <;> simp [inorder, hn]
  refine ⟨t', hdelete, ⟨_, htree, hord'⟩,
    ⟨before c ++ inorder l, inorder r ++ after c, by simp [inorder], ?_⟩, hvalue⟩
  rw [htree.dump]
  simp [hinorder]

end Delete

/-- For every ordered tree with consistent links, `Insert` yields such a tree, with the new node
behind the values that are not larger, and `Delete` of a node of the tree yields an ordered tree
without exactly that node. -/
theorem insert_delete_inorder (t : SearchTree) (h : t.IsOrdered) (hlinks : t.rooted.ParentLinks) :
    ∃ ns, t.dump = some ns ∧
      (∀ v, ∃ t', t.insert v = some t' ∧ t'.IsOrdered ∧ t'.rooted.ParentLinks ∧
        t.Inserted v ns t') ∧
      ∀ u ∈ ns, ∃ t', t.delete u = some t' ∧ t'.IsOrdered ∧ t.Deleted u ns t' := by
  obtain ⟨s, htree, hord⟩ := h
  exact ⟨inorder s, htree.dump, fun v => htree.inserted hord hlinks v,
    fun u hu => htree.deleted hord hlinks hu⟩

/-- From a root and its right child, the root is deleted. -/
theorem insert_delete_inorder_twoNodes :
    (ofValues [1, 2]).IsOrdered ∧ (ofValues [1, 2]).rooted.ParentLinks ∧
      ∃ t', (ofValues [1, 2]).delete 0 = some t' ∧ t'.IsOrdered ∧
        (ofValues [1, 2]).Deleted 0 [0, 1] t' := by
  obtain ⟨-, hord, hlinks, -⟩ := ofValues_spec [1, 2]
  obtain ⟨ns, hdump, -, hdelete⟩ := insert_delete_inorder (ofValues [1, 2]) hord hlinks
  obtain rfl : [0, 1] = ns := Option.some.inj hdump
  exact ⟨hord, hlinks, hdelete 0 (by decide)⟩

end SearchTree

end Demos.Algorithm
