import Demos.Algorithm.SearchTree.Model
import Demos.Lib.Run
import Mathlib.Tactic.Common

/-!
# Parent links of a search tree

`Insert` attaches a leaf with its link. `Transplant` puts a node in the place of another one and
leaves its link alone, so that the links stay consistent under `Delete` exactly if nothing takes the
place of the deleted node.
-/

namespace Demos.Algorithm

open Demos.Lib

namespace SearchTree

variable {t t' : SearchTree} {n m r p q fuel bound : ℕ} {v : ℤ} {x : Option ℕ} {as : List ℕ}

/-- The parent links are consistent, and every node of the tree was allocated. -/
structure Linked (t : SearchTree) : Prop where
  links : t.rooted.ParentLinks
  allocated : ∀ n, t.rooted.Reaches n → n < t.fresh

section Insert

/-- The pointer that the loop of `Insert` follows from its last node on. -/
def Slot (t : SearchTree) (v : ℤ) (x : Option ℕ) : Option ℕ → Prop
  | none => t.root = x
  | some p => t.rooted.Reaches p ∧ (if v < t.value p then t.left p else t.right p) = x

/-- What the loop follows is in the tree. -/
theorem Slot.reaches {p : Option ℕ} (h : t.Slot v (some n) p) : t.rooted.Reaches n := by
  cases p with
  | none => exact ⟨[], .root h⟩
  | some p =>
    refine h.1.step ?_
    have hchild := h.2
    split at hchild
    · exact .inl hchild
    · exact .inr hchild

/-- The loop ends at an empty place. -/
theorem slot_of_descend {p p' : Option ℕ} (h : t.descend v fuel p x = some p')
    (hslot : t.Slot v x p) : t.Slot v none p' := by
  induction fuel generalizing p x with
  | zero =>
    cases x with
    | none => exact Option.some.inj h ▸ hslot
    | some n => cases h
  | succ fuel ih =>
    cases x with
    | none => exact Option.some.inj h ▸ hslot
    | some n => exact ih h ⟨hslot.reaches, rfl⟩

/-- The loop ends. -/
theorem isSome_descend {p : Option ℕ} (hlinks : t.rooted.ParentLinks)
    (hbound : ∀ n, t.rooted.Reaches n → n < bound)
    (h : ∀ n, x = some n → ∃ as, t.rooted.Path as n ∧ bound ≤ as.length + fuel) :
    (t.descend v fuel p x).isSome := by
  induction fuel generalizing p x with
  | zero =>
    cases x with
    | none => rfl
    | some n =>
      obtain ⟨as, hpath, hle⟩ := h n rfl
      exact absurd (hlinks.length_lt hbound hpath) (by omega)
  | succ fuel ih =>
    cases x with
    | none => rfl
    | some n =>
      obtain ⟨as, hpath, hle⟩ := h n rfl
      refine ih fun m hm => ⟨n :: as, hpath.step ?_, ?_⟩
      · split at hm
        · exact .inl hm
        · exact .inr hm
      · rw [List.length_cons]
        omega

/-- Allocating a node changes nothing in the tree. -/
theorem Linked.alloc (h : t.Linked) (v : ℤ) :
    (t.alloc v).rooted.ParentLinks ∧ ∀ n, (t.alloc v).rooted.Reaches n → n < t.fresh := by
  have hchild : ∀ x y, (t.alloc v).rooted.child x y → t.rooted.child x y := by
    intro x y hxy
    by_cases hx : x = t.fresh
    · simp [rooted, hx] at hxy
    · simpa [rooted, hx] using hxy
  have hroot : ∀ n, (t.alloc v).rooted.root = some n → t.rooted.root = some n := fun _ hn => hn
  refine ⟨h.links.of_subset hroot hchild fun n hn => ?_, fun n hn => ?_⟩
  · simp [rooted, (h.allocated n hn).ne]
  · exact h.allocated n (hn.of_subset hroot hchild)

/-- Attaching the allocated node to an empty place keeps the links consistent. -/
theorem Linked.attach (h : t.Linked) (hfresh : t'.fresh = t.fresh + 1)
    (hleaf : ∀ y, ¬ t'.rooted.child t.fresh y)
    (hroot : ∀ m, t'.rooted.root = some m →
      (t.alloc v).rooted.root = some m ∨ m = t.fresh ∧ t'.rooted.parent t.fresh = none)
    (hchild : ∀ x y, t'.rooted.child x y →
      (t.alloc v).rooted.child x y ∨ y = t.fresh ∧ t'.rooted.parent t.fresh = some x)
    (hparent : ∀ x, x ≠ t.fresh → t'.rooted.parent x = (t.alloc v).rooted.parent x) :
    t'.Linked := by
  obtain ⟨hlinks, hallocated⟩ := h.alloc v
  have hnew : ¬ (t.alloc v).rooted.Reaches t.fresh := fun hn => (hallocated _ hn).ne rfl
  refine ⟨hlinks.attach hleaf hroot hchild hnew hparent, fun n hn => ?_⟩
  rw [hfresh]
  obtain rfl | hn := Rooted.ParentLinks.reaches_of_attach hleaf hroot hchild hn
  · exact Nat.lt_succ_self _
  · exact (hallocated n hn).trans (Nat.lt_succ_self _)

/-- `Insert` attaches a leaf with its link. -/
theorem Linked.insert (h : t.Linked) (hinsert : t.insert v = some t') : t'.Linked := by
  simp only [SearchTree.insert, Option.bind_eq_bind, Option.bind_eq_some_iff] at hinsert
  obtain ⟨p, hdescend, hinsert⟩ := hinsert
  have hslot := slot_of_descend hdescend rfl
  cases p with
  | none =>
    cases hinsert
    refine h.attach (v := v) rfl (by simp [rooted, left, right, SearchTree.alloc]) ?_
      (fun _ _ hedge => .inl hedge) fun _ _ => rfl
    intro m hm
    have hnone : (t.alloc v).parent t.fresh = none := by simp
    exact .inr ⟨(Option.some.inj hm).symm, hnone⟩
  | some p =>
    have hp : p ≠ t.fresh := ((h.alloc v).2 p hslot.1).ne
    dsimp only at hinsert
    split at hinsert
    · cases hinsert
      refine h.attach (v := v) rfl (by simp [rooted, hp.symm]) (fun _ hm => .inl hm) ?_
        fun x hx => by simp [rooted, hx]
      intro x y hedge
      simp only [rooted, left_setParent, left_setLeft, right_setParent, right_setLeft] at hedge
      rcases hedge with hleft | hright
      · split at hleft
        · next hx => exact .inr ⟨(Option.some.inj hleft).symm, by simp [rooted, hx]⟩
        · exact .inl (.inl hleft)
      · exact .inl (.inr hright)
    · cases hinsert
      refine h.attach (v := v) rfl (by simp [rooted, hp.symm]) (fun _ hm => .inl hm) ?_
        fun x hx => by simp [rooted, hx]
      intro x y hedge
      simp only [rooted, left_setParent, left_setRight, right_setParent, right_setRight] at hedge
      rcases hedge with hleft | hright
      · exact .inl (.inl hleft)
      · split at hright
        · next hx => exact .inr ⟨(Option.some.inj hright).symm, by simp [rooted, hx]⟩
        · exact .inl (.inr hright)

/-- `Insert` returns. -/
theorem Linked.isSome_insert (h : t.Linked) (v : ℤ) : (t.insert v).isSome := by
  obtain ⟨hlinks, hallocated⟩ := h.alloc v
  have hdescend : ((t.alloc v).descend v t.fresh none t.root).isSome := by
    refine isSome_descend hlinks hallocated fun n hn => ⟨[], .root hn, by simp⟩
  obtain ⟨p, hp⟩ := Option.isSome_iff_exists.mp hdescend
  simp only [SearchTree.insert, root_alloc, hp, Option.bind_eq_bind, Option.bind_some]
  cases p with
  | none => rfl
  | some p =>
    dsimp only
    split <;> rfl

end Insert

section Transplant

@[simp]
theorem parent_transplant : (t.transplant n x).parent m = t.parent m := by
  unfold transplant
  split
  · rfl
  · split <;> simp

@[simp]
theorem fresh_transplant : (t.transplant n x).fresh = t.fresh := by
  unfold transplant
  split
  · rfl
  · split <;> rfl

/-- `Transplant` changes the children of the parent only. -/
theorem left_transplant (h : t.parent n ≠ some m) : (t.transplant n x).left m = t.left m := by
  unfold transplant
  split
  · rfl
  · next p hp =>
    have hne : m ≠ p := fun heq => h (heq ▸ hp)
    split <;> simp [hne]

theorem right_transplant (h : t.parent n ≠ some m) : (t.transplant n x).right m = t.right m := by
  unfold transplant
  split
  · rfl
  · next p hp =>
    have hne : m ≠ p := fun heq => h (heq ▸ hp)
    split <;> simp [hne]

/-- Below a parent, `Transplant` makes the node a child. -/
theorem child_transplant (h : t.parent n = some p) :
    (t.transplant n (some m)).rooted.child p m := by
  simp only [transplant, h]
  split
  · exact .inl (by simp)
  · exact .inr (by simp)

/-- Below a parent, `Transplant` keeps the root. -/
theorem root_transplant (h : t.parent n = some p) : (t.transplant n x).root = t.root := by
  simp only [transplant, h]
  split <;> rfl

/-- Without a parent, `Transplant` makes the node the root. -/
theorem root_transplant_of_none (h : t.parent n = none) : (t.transplant n x).root = x := by
  simp only [transplant, h]

/-- Putting nothing in the place of a node keeps the links consistent. -/
theorem Linked.transplant_none (h : t.Linked) (n : ℕ) : (t.transplant n none).Linked := by
  have hroot : ∀ m, (t.transplant n none).rooted.root = some m → t.rooted.root = some m := by
    intro m hm
    cases hparent : t.parent n with
    | none => exact absurd ((root_transplant_of_none hparent).symm.trans hm) (by simp)
    | some p => exact (root_transplant hparent).symm.trans hm
  have hchild : ∀ x y, (t.transplant n none).rooted.child x y → t.rooted.child x y := by
    intro x y hedge
    simp only [rooted, transplant] at hedge
    split at hedge
    · exact hedge
    · split at hedge
      · simp only [left_setLeft, right_setLeft] at hedge
        exact hedge.imp_left fun hleft => by
          split at hleft
          · cases hleft
          · exact hleft
      · simp only [left_setRight, right_setRight] at hedge
        exact hedge.imp_right fun hright => by
          split at hright
          · cases hright
          · exact hright
  refine ⟨h.links.of_subset hroot hchild fun m _ => by simp [rooted], fun m hm => ?_⟩
  rw [fresh_transplant]
  exact h.allocated m (hm.of_subset hroot hchild)

end Transplant

section Delete

/-- `Min` ends below the node where it starts. -/
theorem path_of_minLoop (hpath : t.rooted.Path as n) (h : t.minLoop fuel n = some p) :
    ∃ ps, t.rooted.Path ps p ∧ as ⊆ ps := by
  induction fuel generalizing as n with
  | zero => cases h
  | succ fuel ih =>
    rw [minLoop] at h
    split at h
    · cases h
      exact ⟨as, hpath, List.Subset.refl as⟩
    · next left hleft =>
      obtain ⟨ps, hps, hsub⟩ := ih (hpath.step (.inl hleft)) h
      exact ⟨ps, hps, fun x hx => hsub (List.mem_cons_of_mem n hx)⟩

/-- `Min` returns. -/
theorem isSome_minLoop (h : t.Linked) (hpath : t.rooted.Path as n)
    (hfuel : t.fresh ≤ as.length + fuel) : (t.minLoop fuel n).isSome := by
  induction fuel generalizing as n with
  | zero => exact absurd (h.links.length_lt h.allocated hpath) (by omega)
  | succ fuel ih =>
    rw [minLoop]
    split
    · rfl
    · next left hleft =>
      refine ih (hpath.step (.inl hleft)) ?_
      rw [List.length_cons]
      omega

/-- What taking the minimum out of a subtree changes. -/
structure Detached (t t' : SearchTree) (r p : ℕ) : Prop where
  root : t'.root = t.root
  parent : ∀ m, t'.parent m = t.parent m ∨ t'.parent m = some p ∧ t.right r = some m
  left : ∀ m, m ≠ p → t.parent p ≠ some m → t'.left m = t.left m
  right : ∀ m, m ≠ p → t.parent p ≠ some m → t'.right m = t.right m
  leftRoot : t'.left r = t.left r

/-- The minimum that is taken out is not the root of the tree, so the root stays. -/
theorem detached_of_detachMin (hparent : t.parent p = some q) (h : t.detachMin r p = some t') :
    t.Detached t' r p := by
  unfold detachMin at h
  split at h
  · next hne =>
    simp only [Option.bind_eq_bind, Option.bind_eq_some_iff] at h
    obtain ⟨w, hw, h⟩ := h
    cases h
    simp only [right_setRight, if_true, right_transplant hne] at hw
    refine ⟨?_, ?_, ?_, ?_, ?_⟩
    · simp [root_transplant hparent]
    · intro m
      by_cases hm : m = w
      · exact .inr ⟨by simp [hm], hm ▸ hw⟩
      · exact .inl (by simp [hm])
    · intro m _ hm
      simp [left_transplant hm]
    · intro m hmp hm
      simp [right_transplant hm, hmp]
    · simp [left_transplant hne]
  · cases h
    exact ⟨rfl, fun _ => .inl rfl, fun _ _ _ => rfl, fun _ _ _ => rfl, rfl⟩

/-- The deleted node is not the one that gets a new link. -/
theorem Detached.parent_root (hdetached : t.Detached t' r p) (h : t.rooted.ParentLinks)
    (hpath : t.rooted.Path as r) : t'.parent r = t.parent r := by
  refine (hdetached.parent r).resolve_right ?_
  rintro ⟨-, hself⟩
  exact h.notMem (hpath.step (.inr hself)) List.mem_cons_self

/-- Taking the minimum out of a right subtree that is there follows no null pointer. -/
theorem isSome_detachMin (hright : t.right r = some n) : (t.detachMin r p).isSome := by
  unfold detachMin
  split
  · next hne => simp [right_transplant hne, hright]
  · rfl

/-- A leaf that is deleted leaves an empty place. -/
theorem delete_of_leaf (hleft : t.left r = none) (hright : t.right r = none) :
    t.delete r = some (t.transplant r none) := by
  simp only [delete, hleft, hright]

section Broken

variable {t₁ t₂ : SearchTree} {y : ℕ}

/-- The two stores have the same children in these nodes. -/
def SameChildren (t t' : SearchTree) (l : List ℕ) : Prop :=
  ∀ m ∈ l, t'.left m = t.left m ∧ t'.right m = t.right m

/-- A node that `Transplant` puts in the place of another one, and that links to something below
that place, makes the links inconsistent; what else changes below the place does not matter. -/
theorem not_parentLinks_of_transplant (h : t.rooted.ParentLinks) (hpath : t.rooted.Path as r)
    (habove : t.rooted.Above r y) (hroot₁ : t₁.root = t.root) (hparent₁ : t₁.parent r = t.parent r)
    (hsame₁ : t.SameChildren t₁ as) (hroot₂ : t₂.root = (t₁.transplant r (some p)).root)
    (hsame₂ : (t₁.transplant r (some p)).SameChildren t₂ as) (hp : t₂.parent p = some y) :
    ¬ t₂.rooted.ParentLinks := by
  have hparent : t₁.parent r = as.head? := hparent₁.trans (h.parent_eq_head? hpath)
  refine h.not_of_displaced hpath habove ?_ ?_ hp
  · rintro rfl
    exact hroot₂.trans (root_transplant_of_none hparent)
  · rintro q qs rfl
    refine ⟨hroot₂.trans ((root_transplant hparent).trans hroot₁), ?_, ?_⟩
    · obtain ⟨hleft, hright⟩ := hsame₂ q List.mem_cons_self
      have hedge := child_transplant (m := p) hparent
      simp only [rooted] at hedge ⊢
      rwa [hleft, hright]
    · intro x hx z hedge
      have hq : q ≠ x := by
        rintro rfl
        exact (List.nodup_cons.mp (List.nodup_cons.mp (h.nodup hpath)).2).1 hx
      have hne : t₁.parent r ≠ some x := by
        rw [hparent]
        simpa using hq
      obtain ⟨hleft₁, hright₁⟩ := hsame₁ x (List.mem_cons_of_mem q hx)
      obtain ⟨hleft₂, hright₂⟩ := hsame₂ x (List.mem_cons_of_mem q hx)
      simp only [rooted] at hedge ⊢
      rwa [hleft₂, hright₂, left_transplant hne, right_transplant hne, hleft₁, hright₁]

/-- A child that takes the place of its deleted parent keeps its link. -/
theorem not_parentLinks_of_child (h : t.rooted.ParentLinks) (hpath : t.rooted.Path as r)
    (hchild : t.rooted.child r p) : ¬ (t.transplant r (some p)).rooted.ParentLinks := by
  have hparent : t.parent p = some r := h.child r p ⟨as, hpath⟩ hchild
  exact not_parentLinks_of_transplant h hpath ⟨as, hpath, List.mem_cons_self⟩ rfl rfl
    (fun _ _ => ⟨rfl, rfl⟩) rfl (fun _ _ => ⟨rfl, rfl⟩) (by simpa using hparent)

/-- A minimum that takes the place of a deleted node keeps a link into the right subtree. -/
theorem not_parentLinks_of_min {n l : ℕ} (h : t.rooted.ParentLinks) (hpath : t.rooted.Path as r)
    (hright : t.right r = some n) (hmin : t.min n = some p) (hdetach : t.detachMin r p = some t₁)
    (x : Option ℕ) :
    ¬ (((t₁.transplant r (some p)).setLeft p x).setParent l (some p)).rooted.ParentLinks := by
  obtain ⟨ps, hps, hsub⟩ := path_of_minLoop (hpath.step (.inr hright)) hmin
  have hr : r ∈ ps := hsub List.mem_cons_self
  obtain ⟨q, hq, habove⟩ := h.above_parent hps hr
  have hbelow : t.rooted.Above r p := ⟨ps, hps, List.mem_cons_of_mem p hr⟩
  have hdetached := detached_of_detachMin hq hdetach
  have hp : ∀ m ∈ as, m ≠ p := by
    rintro m hm rfl
    exact h.notMem_of_above hpath hbelow hm
  have hqs : ∀ m ∈ as, t.parent p ≠ some m := by
    intro m hm heq
    obtain rfl := Option.some.inj (hq.symm.trans heq)
    exact h.notMem_of_above hpath habove hm
  -- The minimum links to itself if it was one of the two nodes that got a new link.
  obtain ⟨y, hy, hlink⟩ : ∃ y, t.rooted.Above r y ∧
      (((t₁.transplant r (some p)).setLeft p x).setParent l (some p)).parent p = some y := by
    simp only [parent_setParent, parent_setLeft, parent_transplant]
    split
    · exact ⟨p, hbelow, rfl⟩
    · obtain hsame | ⟨hself, -⟩ := hdetached.parent p
      · exact ⟨q, habove, hsame.trans hq⟩
      · exact ⟨p, hbelow, hself⟩
  refine not_parentLinks_of_transplant h hpath hy hdetached.root
    (hdetached.parent_root h hpath) ?_ rfl ?_ hlink
  · intro m hm
    exact ⟨hdetached.left m (hp m hm) (hqs m hm), hdetached.right m (hp m hm) (hqs m hm)⟩
  · intro m hm
    simp [hp m hm]

end Broken

/-- A node that takes the place of a deleted one keeps its link. -/
theorem not_parentLinks_of_delete (h : t.rooted.ParentLinks) (hr : t.rooted.Reaches r)
    (hdelete : t.delete r = some t') (hchild : t.left r ≠ none ∨ t.right r ≠ none) :
    ¬ t'.rooted.ParentLinks := by
  obtain ⟨as, hpath⟩ := hr
  unfold delete at hdelete
  split at hdelete
  · next hleft =>
    cases hdelete
    obtain ⟨n, hright⟩ := Option.ne_none_iff_exists'.mp (hchild.resolve_left (absurd hleft))
    rw [hright]
    exact not_parentLinks_of_child h hpath (.inr hright)
  · next l hleft =>
    split at hdelete
    · cases hdelete
      exact not_parentLinks_of_child h hpath (.inl hleft)
    · next n hright =>
      simp only [Option.bind_eq_bind, Option.bind_eq_some_iff] at hdelete
      obtain ⟨p, hmin, t₁, hdetach, l', _, hresult⟩ := hdelete
      cases hresult
      exact not_parentLinks_of_min h hpath hright hmin hdetach _

end Delete

/-- `Delete` of a node of the tree returns. -/
theorem Linked.isSome_delete (h : t.Linked) (hr : t.rooted.Reaches r) : (t.delete r).isSome := by
  obtain ⟨as, hpath⟩ := hr
  unfold delete
  split
  · rfl
  · next l hleft =>
    split
    · rfl
    · next n hright =>
      have hmin : (t.min n).isSome :=
        isSome_minLoop h (hpath.step (.inr hright)) (Nat.le_add_left t.fresh _)
      obtain ⟨p, hp⟩ := Option.isSome_iff_exists.mp hmin
      obtain ⟨t₁, ht₁⟩ := Option.isSome_iff_exists.mp (isSome_detachMin (p := p) hright)
      obtain ⟨ps, hps, hsub⟩ := path_of_minLoop (hpath.step (.inr hright)) hp
      obtain ⟨q, hq, -⟩ := h.links.above_parent hps (hsub List.mem_cons_self)
      have hdetached := detached_of_detachMin hq ht₁
      have hself : t₁.parent r ≠ some r := by
        rw [hdetached.parent_root h.links hpath]
        intro heq
        exact h.links.notMem hpath
          (List.mem_of_mem_head? ((h.links.parent_eq_head? hpath).symm.trans heq))
      have hleft₁ : (t₁.transplant r (some p)).left r = some l := by
        rw [left_transplant hself, hdetached.leftRoot, hleft]
      simp [hp, ht₁, hleft₁]

end SearchTree

/-- Only leaves are deleted. -/
def DeletesLeaf (t : SearchTree) : TreeOp → Prop
  | .insert _ => True
  | .delete r => t.left r = none ∧ t.right r = none

namespace SearchTree

variable {t t' : SearchTree} {op : TreeOp}

/-- The null tree is linked. -/
theorem linked_empty : empty.Linked := by
  have hnone : ∀ n, ¬ empty.rooted.Reaches n := by
    rintro n ⟨as, hpath⟩
    induction hpath with
    | root hn => cases hn
    | step _ _ ih => exact ih
  exact ⟨⟨fun _ hn => (by cases hn), fun x _ hx => absurd hx (hnone x)⟩,
    fun n hn => absurd hn (hnone n)⟩

/-- A step that deletes only leaves keeps the tree linked. -/
theorem Linked.step (h : t.Linked) (hstep : TreeStep t op t') (hleaf : DeletesLeaf t op) :
    t'.Linked := by
  cases op with
  | insert v => exact h.insert hstep
  | delete r =>
    obtain ⟨_, hdelete⟩ := hstep
    rw [delete_of_leaf hleaf.1 hleaf.2] at hdelete
    exact Option.some.inj hdelete ▸ h.transplant_none r

/-- A step that keeps the links consistent deletes only leaves. -/
theorem Linked.deletesLeaf (h : t.Linked) (hstep : TreeStep t op t')
    (h' : t'.rooted.ParentLinks) : DeletesLeaf t op := by
  cases op with
  | insert v => trivial
  | delete r =>
    obtain ⟨hr, hdelete⟩ := hstep
    by_contra hinner
    refine not_parentLinks_of_delete h.links hr hdelete ?_ h'
    by_contra hnone
    rw [not_or, not_not, not_not] at hnone
    exact hinner hnone

/-- A tree is linked after every run that deletes only leaves. -/
theorem linked_of_run {ops : List TreeOp} (hrun : Run (Guarded TreeStep DeletesLeaf) empty ops t) :
    t.Linked := by
  refine hrun.invariant (I := fun _ t => t.Linked) linked_empty ?_
  rintro _ t op t' h ⟨hstep, hleaf⟩
  exact h.step hstep hleaf

end SearchTree

/-- After every run that deletes only leaves, the parent links are consistent and both operations
return; the next operation keeps the links consistent exactly if it, too, deletes only a leaf. -/
theorem parentLinks_iff_deletesLeaf (ops : List TreeOp) (t : SearchTree)
    (hrun : Run (Guarded TreeStep DeletesLeaf) .empty ops t) :
    t.rooted.ParentLinks ∧
      (∀ v, (t.insert v).isSome) ∧ (∀ r, t.rooted.Reaches r → (t.delete r).isSome) ∧
      ∀ op t', TreeStep t op t' → (t'.rooted.ParentLinks ↔ DeletesLeaf t op) := by
  have h := SearchTree.linked_of_run hrun
  refine ⟨h.links, h.isSome_insert, fun r hr => h.isSome_delete hr, fun op t' hstep => ?_⟩
  exact ⟨h.deletesLeaf hstep, fun hleaf => (h.step hstep hleaf).links⟩

/-- The tree after the given values were inserted, if the program is still running. -/
def SearchTree.ofValues (values : List ℤ) : SearchTree :=
  (values.foldlM SearchTree.insert SearchTree.empty).getD .empty

/-- A root and its right child are inserted. -/
theorem treeStep_twoNodes :
    TreeStep .empty (.insert 1) (.ofValues [1]) ∧
      TreeStep (.ofValues [1]) (.insert 2) (.ofValues [1, 2]) := ⟨rfl, rfl⟩

/-- After two insertions the links are consistent, and deleting the second node keeps them so. -/
theorem parentLinks_iff_deletesLeaf_twoNodes :
    (SearchTree.ofValues [1, 2]).rooted.ParentLinks ∧
      ∀ t', TreeStep (.ofValues [1, 2]) (.delete 1) t' →
        (t'.rooted.ParentLinks ↔ DeletesLeaf (.ofValues [1, 2]) (.delete 1)) := by
  have hrun : Run (Guarded TreeStep DeletesLeaf) .empty ([.insert 1] ++ [.insert 2])
      (.ofValues [1, 2]) :=
    .snoc (.single ⟨treeStep_twoNodes.1, trivial⟩) ⟨treeStep_twoNodes.2, trivial⟩
  obtain ⟨hlinks, -, -, hiff⟩ := parentLinks_iff_deletesLeaf _ _ hrun
  exact ⟨hlinks, hiff (.delete 1)⟩

/-- The child that takes the place of a deleted root still links to that root. -/
theorem parentLinks_fails_when_root_deleted :
    ¬ ∀ (ops : List TreeOp) (t : SearchTree), Run TreeStep .empty ops t →
      t.rooted.ParentLinks := by
  intro hall
  have hroot : (SearchTree.ofValues [1, 2]).rooted.Reaches 0 := ⟨[], .root rfl⟩
  have hrun : Run TreeStep .empty ([.insert 1] ++ [.insert 2] ++ [.delete 0])
      ((SearchTree.ofValues [1, 2]).transplant 0 (some 1)) :=
    .snoc (.snoc (.single treeStep_twoNodes.1) treeStep_twoNodes.2) ⟨hroot, rfl⟩
  have hnone := (hall _ _ hrun).root 1 rfl
  exact absurd hnone (by decide)

end Demos.Algorithm
