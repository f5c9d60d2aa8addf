import Demos.Algorithm.SearchTree.Order

/-!
# Walking through a search tree

`Successor` goes to the first node of the right subtree, or up to the nearest node on whose left the
way has been; `Predecessor` does the same with left and right exchanged. In a tree with consistent
links they lead from each node to the next one and to the one before it, in the order of `Dump`.
-/

namespace Demos.Algorithm

open Demos.Lib

namespace SearchTree

variable {t : SearchTree} {n fuel : ℕ} {s : BinaryTree ℕ} {c : List (Frame ℕ)} {pre post : List ℕ}

/-- The loop of `Max`, unless it never ends. -/
def maxLoop (t : SearchTree) : ℕ → ℕ → Option ℕ
  | 0, _ => none
  | fuel + 1, node =>
    match t.right node with
    | none => some node
    | some right => maxLoop t fuel right

/-- `Max`. -/
def max (t : SearchTree) (node : ℕ) : Option ℕ := t.maxLoop t.fresh node

/-- The loop of `Successor` and of `Predecessor`, which leaves the nodes below `p` as long as it
comes from the given side, unless it never ends. -/
def ascend (t : SearchTree) (side : ℕ → Option ℕ) : ℕ → ℕ → Option ℕ → Option (Option ℕ)
  | _, _, none => some none
  | 0, _, some _ => none
  | fuel + 1, node, some p =>
    if side p = some node then ascend t side fuel p (t.parent p) else some (some p)

/-- `Successor`. -/
def successor (t : SearchTree) (node : ℕ) : Option (Option ℕ) :=
  match t.right node with
  | some right => (t.min right).map some
  | none => t.ascend t.right t.fresh node (t.parent node)

/-- `Predecessor`. -/
def predecessor (t : SearchTree) (node : ℕ) : Option (Option ℕ) :=
  match t.left node with
  | some left => (t.max left).map some
  | none => t.ascend t.left t.fresh node (t.parent node)

/-- The nodes that are visited from a node on until the null pointer, if they are as many. -/
def walk (next : ℕ → Option (Option ℕ)) : ℕ → Option ℕ → Option (List ℕ)
  | _, none => some []
  | 0, some _ => none
  | fuel + 1, some n => do
    let rest ← walk next fuel (← next n)
    return n :: rest

/-- If each node of a list leads to the next one, the walk visits the list. -/
theorem walk_eq {next : ℕ → Option (Option ℕ)} {ns : List ℕ}
    (h : ∀ pre n post, ns = pre ++ n :: post → next n = some post.head?)
    (hfuel : ns.length ≤ fuel) :
    walk next fuel ns.head? = some ns := by
  induction ns generalizing fuel with
  | nil => cases fuel <;> rfl
  | cons n ns ih =>
    cases fuel with
    | zero => simp at hfuel
    | succ fuel =>
      have hnext : next n = some ns.head? := h [] n ns rfl
      have hrest : walk next fuel ns.head? = some ns := by
        refine ih (fun pre m post hns => ?_) (Nat.le_of_succ_le_succ hfuel)
        exact h (n :: pre) m post (by rw [hns]; rfl)
      simp [walk, hnext, hrest]

section Successor

/-- The loop ends at the first node after the place where it starts. -/
theorem Around.ascend (h : t.Around c (some n)) (hlinks : t.rooted.ParentLinks)
    (hnodup : (before c ++ after c).Nodup) (hn : n ∉ before c ++ after c)
    (hfuel : c.length ≤ fuel) :
    t.ascend t.right fuel n (c.head?.map Frame.node) = some (after c).head? := by
  induction c generalizing n fuel with
  | nil => cases fuel <;> rfl
  | cons f c ih =>
    obtain ⟨hslot, hother, -, hc⟩ := h
    cases fuel with
    | zero => simp at hfuel
    | succ fuel =>
      rw [List.length_cons, Nat.add_le_add_iff_right] at hfuel
      cases f with
      | left q r =>
        -- the node is not on the right, since it is not in the subtree there
        have hright : t.right q ≠ some n := by
          intro hright
          have htop : top r = some n := hother.symm.trans hright
          exact hn (mem_around_cons.mpr (.inr (.inl (mem_of_top htop))))
        exact if_neg hright
      | right q l =>
        obtain ⟨-, hq, hrest⟩ := nodup_around_cons hnodup
        have hup : t.ascend t.right (fuel + 1) n (some q) = t.ascend t.right fuel q (t.parent q) :=
          if_pos hslot
        refine hup.trans ?_
        have hparent : t.parent q = c.head?.map Frame.node := hc.parent hlinks
        rw [hparent]
        exact ih hc hrest hq hfuel

/-- `Successor` leads to the next node. -/
theorem IsTree.successor (h : t.IsTree s) (hlinks : t.rooted.ParentLinks)
    (hs : inorder s = pre ++ n :: post) : t.successor n = some post.head? := by
  obtain ⟨c, l, r, rfl⟩ := exists_plug (show n ∈ inorder s by simp [hs])
  obtain ⟨-, rfl⟩ := eq_of_inorder_plug h.nodup hs
  obtain ⟨haround, -, hright, -, hr⟩ := h.around
  cases r with
  | nil =>
    have hright' : t.right n = none := hright
    simp only [SearchTree.successor, hright', haround.parent hlinks]
    exact haround.ascend hlinks (nodup_plug.mp h.nodup).2.1 (notMem_around_of_nodup h.nodup)
      h.frames_le
  | node m rl rr =>
    -- the next node is the first one of the right subtree
    have hfuel : (BinaryTree.node m rl rr).height ≤ t.fresh := h.height_le (c := .right n l :: c)
    obtain ⟨d, p, q, hplug, hd, hmin⟩ := hr.exists_min hfuel
    have hmin' : t.min m = some p := hmin
    rw [hplug]
    simp [SearchTree.successor, hright, hmin', hd, inorder]

end Successor

section Mirror

/-- The tree with the pointers to the left and to the right exchanged. -/
def mirrored (t : SearchTree) : SearchTree where
  nodes n := { t.nodes n with left := t.right n, right := t.left n }
  fresh := t.fresh
  root := t.root

/-- `Max` of a tree is `Min` of its mirror image. -/
theorem min_mirrored : t.mirrored.min n = t.max n := by
  suffices hloop : ∀ fuel n, t.mirrored.minLoop fuel n = t.maxLoop fuel n from hloop t.fresh n
  intro fuel
  induction fuel with
  | zero => exact fun n => rfl
  | succ fuel ih =>
    intro n
    have hleft : t.mirrored.left n = t.right n := rfl
    rw [minLoop, maxLoop, hleft]
    cases t.right n with
    | none => rfl
    | some right => exact ih right

/-- `Predecessor` in a tree is `Successor` in its mirror image. -/
theorem successor_mirrored : t.mirrored.successor n = t.predecessor n := by
  have hascend : ∀ fuel n p,
      t.mirrored.ascend t.mirrored.right fuel n p = t.ascend t.left fuel n p := by
    intro fuel
    induction fuel with
    | zero => exact fun n p => by cases p <;> rfl
    | succ fuel ih =>
      intro n p
      cases p with
      | none => rfl
      | some p =>
        exact congrArg (if t.left p = some n then · else some (some p)) (ih p (t.parent p))
  have hright : t.mirrored.right n = t.left n := rfl
  rw [successor, predecessor, hright]
  cases t.left n with
  | none => exact hascend t.fresh n (t.parent n)
  | some left => exact congrArg (Option.map some) min_mirrored

/-- The mirror image of the nodes is that of the tree. -/
theorem Shape.mirrored (h : t.Shape s) : t.mirrored.Shape (mirror s) := by
  induction s with
  | nil => trivial
  | node n l r ihl ihr =>
    obtain ⟨hleft, hright, hl, hr⟩ := h
    exact ⟨hright.trans (top_mirror r).symm, hleft.trans (top_mirror l).symm, ihr hr, ihl hl⟩

/-- The mirror image of a tree is a tree. -/
theorem IsTree.mirrored (h : t.IsTree s) : t.mirrored.IsTree (mirror s) := by
  refine ⟨h.root.trans (top_mirror s).symm, h.shape.mirrored, ?_, fun n hn => h.allocated n ?_⟩
  · rw [inorder_mirror]
    exact List.nodup_reverse.mpr h.nodup
  · rwa [inorder_mirror, List.mem_reverse] at hn

/-- The links of the mirror image are consistent if those of the tree are. -/
theorem parentLinks_mirrored (h : t.rooted.ParentLinks) : t.mirrored.rooted.ParentLinks := by
  have hrooted : t.mirrored.rooted = t.rooted := by
    have hchild : t.mirrored.rooted.child = t.rooted.child := funext₂ fun _ _ => propext or_comm
    exact congrArg (Rooted.mk t.root · t.parent) hchild
  rwa [hrooted]

/-- `Predecessor` leads to the node before. -/
theorem IsTree.predecessor (h : t.IsTree s) (hlinks : t.rooted.ParentLinks)
    (hs : inorder s = pre ++ n :: post) : t.predecessor n = some pre.getLast? := by
  have hmirror : inorder (mirror s) = post.reverse ++ n :: pre.reverse := by
    rw [inorder_mirror, hs]
    simp
  rw [← successor_mirrored, h.mirrored.successor (parentLinks_mirrored hlinks) hmirror,
    List.head?_reverse]

end Mirror

section Walk

variable {root : ℕ}

/-- `Min` leads from the root to the first node. -/
theorem IsTree.min_root (h : t.IsTree s) (hroot : t.root = some root) :
    ∃ first, t.min root = some first ∧ (inorder s).head? = some first := by
  cases s with
  | nil => cases h.root.symm.trans hroot
  | node n l r =>
    obtain rfl : n = root := Option.some.inj (h.root.symm.trans hroot)
    obtain ⟨d, p, q, hplug, hd, hmin⟩ := h.shape.exists_min (h.height_le (c := []))
    exact ⟨p, hmin, by rw [hplug]; simp [hd, inorder]⟩

/-- `Max` leads from the root to the last node. -/
theorem IsTree.max_root (h : t.IsTree s) (hroot : t.root = some root) :
    ∃ last, t.max root = some last ∧ (inorder s).getLast? = some last := by
  obtain ⟨last, hmin, hhead⟩ := h.mirrored.min_root hroot
  rw [min_mirrored] at hmin
  rw [inorder_mirror, List.head?_reverse] at hhead
  exact ⟨last, hmin, hhead⟩

/-- From `Min` of the root, `Successor` visits the nodes of `Dump` and then returns null, and from
`Max` of the root, `Predecessor` visits them the other way; each of the two leads back where the
other one came from. -/
structure Walks (t : SearchTree) (ns : List ℕ) : Prop where
  dump : t.dump = some ns
  nodup : ns.Nodup
  mem_iff : ∀ n, n ∈ ns ↔ t.rooted.Reaches n
  forward : ∀ root, t.root = some root →
    ∃ first, t.min root = some first ∧ walk t.successor t.fresh (some first) = some ns
  backward : ∀ root, t.root = some root →
    ∃ last, t.max root = some last ∧ walk t.predecessor t.fresh (some last) = some ns.reverse
  predecessor_successor : ∀ n ∈ ns, ∀ m, t.successor n = some (some m) →
    m ∈ ns ∧ t.predecessor m = some (some n)
  successor_predecessor : ∀ n ∈ ns, ∀ m, t.predecessor n = some (some m) →
    m ∈ ns ∧ t.successor m = some (some n)

/-- `Successor` and `Predecessor` walk through every tree with consistent links. -/
theorem IsTree.walks (h : t.IsTree s) (hlinks : t.rooted.ParentLinks) : t.Walks (inorder s) := by
  refine ⟨h.dump, h.nodup, fun n => h.mem_iff, fun root hroot => ?_, fun root hroot => ?_,
    fun n hn m hm => ?_, fun n hn m hm => ?_⟩
  · obtain ⟨first, hmin, hhead⟩ := h.min_root hroot
    refine ⟨first, hmin, ?_⟩
    rw [← hhead]
    exact walk_eq (fun pre n post hs => h.successor hlinks hs) h.length_le
  · obtain ⟨last, hmax, hlast⟩ := h.max_root hroot
    refine ⟨last, hmax, ?_⟩
    rw [← hlast, ← List.head?_reverse]
    refine walk_eq (fun pre n post hs => ?_) (by simpa using h.length_le)
    have hs' : inorder s = post.reverse ++ n :: pre.reverse := by
      rw [List.reverse_eq_iff.mp hs]
      simp
    rw [h.predecessor hlinks hs', List.getLast?_reverse]
  · obtain ⟨pre, post, hs⟩ := List.append_of_mem hn
    rw [h.successor hlinks hs] at hm
    obtain ⟨post', rfl⟩ := List.head?_eq_some_iff.mp (Option.some.inj hm)
    have hs' : inorder s = (pre ++ [n]) ++ m :: post' := by simp [hs]
    exact ⟨by simp [hs], by rw [h.predecessor hlinks hs', List.getLast?_concat]⟩
  · obtain ⟨pre, post, hs⟩ := List.append_of_mem hn
    rw [h.predecessor hlinks hs] at hm
    obtain ⟨pre', rfl⟩ := List.getLast?_eq_some_iff.mp (Option.some.inj hm)
    have hs' : inorder s = pre' ++ m :: n :: post := by simp [hs]
    exact ⟨by simp [hs], by rw [h.successor hlinks hs', List.head?_cons]⟩

end Walk

/-- Every tree that is built by calls of `Insert` is walked through in the order of `Dump` by
`Successor`, in the other order by `Predecessor`, and the two are inverse to each other. Each of the
values has its node. -/
theorem walks_of_inserts (values : List ℤ) :
    ∃ t ns, values.foldlM SearchTree.insert .empty = some t ∧ t.Walks ns ∧
      (ns.map t.value).Perm values := by
  obtain ⟨hinserts, ⟨s, htree, -⟩, hlinks, ns, hdump, hvalues⟩ := ofValues_spec values
  obtain rfl := Option.some.inj (htree.dump.symm.trans hdump)
  exact ⟨ofValues values, inorder s, hinserts, htree.walks hlinks, hvalues⟩

end SearchTree

end Demos.Algorithm
