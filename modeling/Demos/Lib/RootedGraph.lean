import Mathlib.Data.List.Nodup
import Mathlib.Data.List.Perm.Subperm

/-!
# Rooted graphs with parent links

A linked tree is a graph with a root, edges to children, and a link back to a parent. The links are
consistent if the root has none and every child of a node that can be reached links back to it. A
consistent graph is a tree: a node is reached in one way only, and it is not among its ancestors.
Consistency is kept when edges are taken away and when a leaf is attached, and it is lost when a
node takes the place of another while it still links to something below that place.
-/

namespace Demos.Lib

variable {N : Type*}

/-- A root, the edges to the children, and the links back. -/
structure Rooted (N : Type*) where
  root : Option N
  child : N → N → Prop
  parent : N → Option N

namespace Rooted

variable {g g' : Rooted N} {n r v x y : N} {as bs : List N}

/-- The node is reached through these ancestors, the nearest one first. -/
inductive Path (g : Rooted N) : List N → N → Prop
  | root {n : N} : g.root = some n → Path g [] n
  | step {as : List N} {x y : N} : Path g as x → g.child x y → Path g (x :: as) y

/-- The node can be reached. -/
def Reaches (g : Rooted N) (n : N) : Prop := ∃ as, g.Path as n

/-- The root has no parent, and a child of a node that is reached has that node as its parent. -/
structure ParentLinks (g : Rooted N) : Prop where
  root : ∀ n, g.root = some n → g.parent n = none
  child : ∀ x y, g.Reaches x → g.child x y → g.parent y = some x

/-- The first node is the second one or among its ancestors. -/
def Above (g : Rooted N) (x y : N) : Prop := ∃ as, g.Path as y ∧ x ∈ y :: as

/-- A child of a node that is reached is reached. -/
theorem Reaches.step (h : g.Reaches x) (hchild : g.child x y) : g.Reaches y := by
  obtain ⟨as, hpath⟩ := h
  exact ⟨x :: as, hpath.step hchild⟩

/-- An ancestor is reached through the ancestors behind it. -/
theorem Path.of_mem (h : g.Path as n) (hx : x ∈ as) :
    ∃ bs cs, as = bs ++ x :: cs ∧ g.Path cs x := by
  induction h with
  | root => simp at hx
  | @step as z y hpath _ ih =>
    obtain rfl | hx := List.mem_cons.mp hx
    · exact ⟨[], as, rfl, hpath⟩
    · obtain ⟨bs, cs, rfl, hcs⟩ := ih hx
      exact ⟨z :: bs, cs, rfl, hcs⟩

/-- A path survives as long as the root and the edges from its ancestors do. -/
theorem Path.congr (h : g.Path as n) (hroot : g'.root = g.root)
    (hchild : ∀ x ∈ as, ∀ y, g.child x y → g'.child x y) : g'.Path as n := by
  induction h with
  | root hn => exact .root (hroot.trans hn)
  | @step as x y _ hedge ih =>
    rw [List.forall_mem_cons] at hchild
    exact .step (ih hchild.2) (hchild.1 y hedge)

/-- Taking edges away reaches nothing new. -/
theorem Reaches.of_subset (hroot : ∀ n, g'.root = some n → g.root = some n)
    (hchild : ∀ x y, g'.child x y → g.child x y) (h : g'.Reaches n) : g.Reaches n := by
  obtain ⟨as, hpath⟩ := h
  induction hpath with
  | root hn => exact ⟨[], .root (hroot _ hn)⟩
  | step _ hedge ih => exact ih.step (hchild _ _ hedge)

namespace ParentLinks

/-- A node is reached in one way only. -/
theorem path_unique (h : g.ParentLinks) (has : g.Path as n) (hbs : g.Path bs n) : as = bs := by
  induction has generalizing bs with
  | root hn =>
    cases hbs with
    | root => rfl
    | step hpath hedge =>
      have hparent := h.child _ _ ⟨_, hpath⟩ hedge
      rw [h.root _ hn] at hparent
      cases hparent
  | step hpath hedge ih =>
    have hparent := h.child _ _ ⟨_, hpath⟩ hedge
    cases hbs with
    | root hn =>
      rw [h.root _ hn] at hparent
      cases hparent
    | step hpath' hedge' =>
      obtain rfl := Option.some.inj (hparent.symm.trans (h.child _ _ ⟨_, hpath'⟩ hedge'))
      rw [ih hpath']

/-- The parent of a node is its nearest ancestor. -/
theorem parent_eq_head? (h : g.ParentLinks) (hpath : g.Path as n) : g.parent n = as.head? := by
  cases hpath with
  | root hn => exact h.root n hn
  | step hpath hedge => exact h.child _ n ⟨_, hpath⟩ hedge

/-- A node is not among its ancestors. -/
theorem notMem (h : g.ParentLinks) (hpath : g.Path as n) : n ∉ as := by
  intro hn
  obtain ⟨bs, cs, rfl, hcs⟩ := hpath.of_mem hn
  have hlength := congrArg List.length (h.path_unique hcs hpath)
  simp only [List.length_append, List.length_cons] at hlength
  omega

/-- A node and its ancestors are different nodes. -/
theorem nodup (h : g.ParentLinks) (hpath : g.Path as n) : (n :: as).Nodup := by
  induction hpath with
  | root => simp
  | step hpath hedge ih => exact List.nodup_cons.mpr ⟨h.notMem (hpath.step hedge), ih⟩

/-- No node below another one is an ancestor of it. -/
theorem notMem_of_above (h : g.ParentLinks) (hpath : g.Path as r) (habove : g.Above r y) :
    y ∉ as := by
  intro hy
  obtain ⟨ys, hys, hmem⟩ := habove
  obtain ⟨bs, cs, rfl, hcs⟩ := hpath.of_mem hy
  rw [h.path_unique hys hcs] at hmem
  exact h.notMem hpath (List.mem_append_right bs hmem)

/-- The parent of a node that is strictly below another one is below it or that node itself. -/
theorem above_parent (h : g.ParentLinks) (hpath : g.Path as n) (hr : r ∈ as) :
    ∃ x, g.parent n = some x ∧ g.Above r x := by
  have hparent := h.parent_eq_head? hpath
  cases hpath with
  | root => simp at hr
  | @step as x _ hx _ => exact ⟨x, hparent, as, hx, hr⟩

/-- Taking edges away keeps the links consistent. -/
theorem of_subset (h : g.ParentLinks) (hroot : ∀ n, g'.root = some n → g.root = some n)
    (hchild : ∀ x y, g'.child x y → g.child x y)
    (hparent : ∀ n, g.Reaches n → g'.parent n = g.parent n) : g'.ParentLinks where
  root n hn := by
    rw [hparent n ⟨[], .root (hroot n hn)⟩]
    exact h.root n (hroot n hn)
  child x y hx hedge := by
    have hx' : g.Reaches x := hx.of_subset hroot hchild
    rw [hparent y (hx'.step (hchild x y hedge))]
    exact h.child x y hx' (hchild x y hedge)

section Attach

variable (hleaf : ∀ y, ¬ g'.child n y)
  (hroot : ∀ m, g'.root = some m → g.root = some m ∨ m = n ∧ g'.parent n = none)
  (hchild : ∀ x y, g'.child x y → g.child x y ∨ y = n ∧ g'.parent n = some x)
include hleaf hroot hchild

/-- Attaching a leaf reaches nothing else that is new. -/
theorem reaches_of_attach (hx : g'.Reaches x) : x = n ∨ g.Reaches x := by
  obtain ⟨as, hpath⟩ := hx
  induction hpath with
  | root hm =>
    obtain hm | ⟨rfl, _⟩ := hroot _ hm
    · exact .inr ⟨[], .root hm⟩
    · exact .inl rfl
  | @step _ x y _ hedge ih =>
    obtain hedge' | ⟨rfl, _⟩ := hchild x y hedge
    · obtain rfl | hx := ih
      · exact absurd hedge (hleaf y)
      · exact .inr (hx.step hedge')
    · exact .inl rfl

/-- Attaching a new leaf that links back keeps the links consistent. -/
theorem attach (h : g.ParentLinks) (hnew : ¬ g.Reaches n)
    (hparent : ∀ x, x ≠ n → g'.parent x = g.parent x) : g'.ParentLinks where
  root m hm := by
    obtain hm | ⟨rfl, hnone⟩ := hroot m hm
    · have hne : m ≠ n := fun heq => hnew (heq ▸ ⟨[], .root hm⟩)
      rw [hparent m hne]
      exact h.root m hm
    · exact hnone
  child x y hx hedge := by
    obtain hedge' | ⟨rfl, hlink⟩ := hchild x y hedge
    · obtain rfl | hx := reaches_of_attach hleaf hroot hchild hx
      · exact absurd hedge (hleaf y)
      · have hne : y ≠ n := fun heq => hnew (heq ▸ hx.step hedge')
        rw [hparent y hne]
        exact h.child x y hx hedge'
    · exact hlink

end Attach

/-- A node that takes the place of another one and links to something below that place makes the
links inconsistent. -/
theorem not_of_displaced (h : g.ParentLinks) (hpath : g.Path as r) (habove : g.Above r y)
    (hroot : as = [] → g'.root = some v)
    (hchild : ∀ q qs, as = q :: qs → g'.root = g.root ∧ g'.child q v ∧
      ∀ x ∈ qs, ∀ z, g.child x z → g'.child x z)
    (hv : g'.parent v = some y) : ¬ g'.ParentLinks := by
  intro h'
  cases hpath with
  | root hr =>
    rw [h'.root v (hroot rfl)] at hv
    cases hv
  | @step qs q _ hq hedge =>
    obtain ⟨hsame, hedge', hkeeps⟩ := hchild q qs rfl
    have hlink := h'.child q v ⟨qs, hq.congr hsame hkeeps⟩ hedge'
    obtain rfl := Option.some.inj (hv.symm.trans hlink)
    exact h.notMem_of_above (hq.step hedge) habove List.mem_cons_self

end ParentLinks

/-- A node with numbers below a bound has fewer ancestors than that. -/
theorem ParentLinks.length_lt {g : Rooted ℕ} {as : List ℕ} {n bound : ℕ} (h : g.ParentLinks)
    (hbound : ∀ x, g.Reaches x → x < bound) (hpath : g.Path as n) : as.length < bound := by
  have hsub : n :: as ⊆ List.range bound := by
    intro x hx
    rw [List.mem_range]
    obtain rfl | hx := List.mem_cons.mp hx
    · exact hbound x ⟨as, hpath⟩
    · obtain ⟨_, cs, _, hcs⟩ := hpath.of_mem hx
      exact hbound x ⟨cs, hcs⟩
  have hlength := ((h.nodup hpath).subperm hsub).length_le
  rwa [List.length_range] at hlength

end Rooted

end Demos.Lib
