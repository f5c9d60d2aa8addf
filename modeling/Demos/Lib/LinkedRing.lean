import Mathlib.Data.List.Chain
import Mathlib.Logic.Function.Basic

/-!
# Circular doubly linked lists

A store of links gives every node a successor and a predecessor. A ring is a head and a list of
other nodes: the links run from the head through the list and back to the head, in both
directions. An edit sets single links between two nodes; the parts of a ring that lie on either
side of an edit are paths, which an edit elsewhere leaves alone.
-/

namespace Demos.Lib

/-- The successor and the predecessor of every node. -/
structure Links (N : Type*) where
  next : N → N
  prev : N → N

variable {N : Type*} {s : Links N} {h a b n t : N} {xs pre post l : List N}

/-- The nodes are linked both ways. -/
def Links.Edge (s : Links N) (a b : N) : Prop := s.next a = b ∧ s.prev b = a

/-- Neighbours in the list are linked both ways. -/
def Links.Path (s : Links N) (l : List N) : Prop := l.IsChain s.Edge

/-- The links run from the head through the list and back, and no node occurs twice. -/
structure Links.IsRing (s : Links N) (h : N) (xs : List N) : Prop where
  nodup : (h :: xs).Nodup
  path : s.Path (h :: xs ++ [h])

instance [DecidableEq N] (s : Links N) (a b : N) : Decidable (s.Edge a b) :=
  inferInstanceAs (Decidable (_ ∧ _))

instance [DecidableEq N] (s : Links N) (h : N) (xs : List N) : Decidable (s.IsRing h xs) :=
  decidable_of_iff ((h :: xs).Nodup ∧ (h :: xs ++ [h]).IsChain s.Edge)
    ⟨fun hring => ⟨hring.1, hring.2⟩, fun hring => ⟨hring.nodup, hring.path⟩⟩

/-- The nodes that a loop visits from a node on until it meets the head; it may never meet it. -/
def walk [DecidableEq N] (step : N → N) (h : N) : ℕ → N → Option (List N)
  | 0, _ => none
  | fuel + 1, n => if n = h then some [] else (walk step h fuel (step n)).map (n :: ·)

theorem Links.path_append_cons :
    s.Path (pre ++ a :: b :: post) ↔ s.Path (pre ++ [a]) ∧ s.Edge a b ∧ s.Path (b :: post) :=
  List.isChain_append_cons_cons

/-- A path depends on the links of its nodes only. -/
theorem Links.Path.congr {s' : Links N} (hpath : s.Path l)
    (hsame : ∀ a ∈ l, s'.next a = s.next a ∧ s'.prev a = s.prev a) : s'.Path l := by
  refine List.IsChain.imp_of_mem_imp ?_ hpath
  rintro a b ha hb ⟨hnext, hprev⟩
  exact ⟨(hsame a ha).1.trans hnext, (hsame b hb).2.trans hprev⟩

/-- A ring depends on the links of its nodes only. -/
theorem Links.IsRing.congr {s' : Links N} (hring : s.IsRing h xs)
    (hsame : ∀ a ∈ h :: xs, s'.next a = s.next a ∧ s'.prev a = s.prev a) : s'.IsRing h xs := by
  refine ⟨hring.nodup, hring.path.congr fun a ha => hsame a ?_⟩
  simpa [or_comm, or_assoc] using ha

/-- A node of a ring is linked with its neighbours. -/
theorem Links.IsRing.edge (hring : s.IsRing h xs)
    (hsplit : h :: xs ++ [h] = pre ++ a :: b :: post) : s.Edge a b := by
  have hpath := hring.path
  rw [hsplit, Links.path_append_cons] at hpath
  exact hpath.2.1

/-- The neighbours of a place in a ring. -/
theorem exists_neighbours (h : N) (pre post : List N) :
    ∃ front a b back, h :: pre = front ++ [a] ∧ post ++ [h] = b :: back := by
  obtain ⟨front, a, hfront⟩ := List.eq_nil_or_concat' (h :: pre) |>.resolve_left (by simp)
  obtain ⟨b, back, hback⟩ := List.exists_cons_of_ne_nil (by simp : post ++ [h] ≠ [])
  exact ⟨front, a, b, back, hfront, hback⟩

/-- Following a ring visits its nodes, in order, and ends. -/
theorem walk_eq_some [DecidableEq N] {step : N → N} {fuel : ℕ} (hfuel : xs.length < fuel)
    (hhead : h ∉ xs) (hchain : (n :: xs ++ [h]).IsChain fun a b => step a = b) :
    walk step h fuel (step n) = some xs := by
  induction xs generalizing n fuel with
  | nil =>
    obtain ⟨fuel, rfl⟩ := Nat.exists_eq_succ_of_ne_zero (by omega : fuel ≠ 0)
    have hend : step n = h := by simpa using hchain
    rw [walk, if_pos hend]
  | cons x xs ih =>
    obtain ⟨fuel, rfl⟩ := Nat.exists_eq_succ_of_ne_zero (by omega : fuel ≠ 0)
    rw [List.cons_append, List.cons_append, List.isChain_cons_cons] at hchain
    obtain ⟨rfl, hchain⟩ := hchain
    rw [List.mem_cons, not_or] at hhead
    rw [walk, if_neg (Ne.symm hhead.1), ih (Nat.lt_of_succ_lt_succ hfuel) hhead.2 hchain]
    rfl

theorem Links.IsRing.walk_next [DecidableEq N] (hring : s.IsRing h xs) {fuel : ℕ}
    (hfuel : xs.length < fuel) : walk s.next h fuel (s.next h) = some xs :=
  walk_eq_some hfuel (List.nodup_cons.mp hring.nodup).1 (hring.path.imp fun _ _ hedge => hedge.1)

/-- The backward walk around a ring. -/
theorem Links.IsRing.walk_prev [DecidableEq N] (hring : s.IsRing h xs) {fuel : ℕ}
    (hfuel : xs.length < fuel) : walk s.prev h fuel (s.prev h) = some xs.reverse := by
  refine walk_eq_some (by simpa using hfuel) ?_ ?_
  · simpa using (List.nodup_cons.mp hring.nodup).1
  · have hreverse : h :: xs.reverse ++ [h] = (h :: xs ++ [h]).reverse := by simp
    rw [hreverse, List.isChain_reverse]
    exact hring.path.imp fun _ _ hedge => hedge.2

/-- A walk that cannot leave some nodes does not meet a head outside them. -/
theorem walk_eq_none [DecidableEq N] {step : N → N} {l : List N} (hhead : h ∉ l)
    (hclosed : ∀ a ∈ l, step a ∈ l) (hn : n ∈ l) (fuel : ℕ) : walk step h fuel n = none := by
  induction fuel generalizing n with
  | zero => rfl
  | succ fuel ih =>
    have hne : n ≠ h := fun heq => hhead (heq ▸ hn)
    rw [walk, if_neg hne, ih (hclosed n hn), Option.map_none]

/-- A node of a ring has a successor in it. -/
theorem Links.IsRing.exists_next (hring : s.IsRing h xs) (ha : a ∈ h :: xs) :
    ∃ b ∈ h :: xs, s.Edge a b := by
  obtain ⟨pre, post, hsplit⟩ := List.append_of_mem ha
  obtain ⟨b, back, hback⟩ := List.exists_cons_of_ne_nil (by simp : post ++ [h] ≠ [])
  have hb : b ∈ post ++ [h] := hback ▸ List.mem_cons_self
  have hplace : h :: xs ++ [h] = pre ++ a :: b :: back := by
    rw [hsplit, List.append_assoc, List.cons_append, hback]
  refine ⟨b, ?_, hring.edge hplace⟩
  rw [hsplit]
  have hhead : h ∈ pre ++ a :: post := hsplit ▸ List.mem_cons_self
  grind

/-- A node of a ring has a predecessor in it. -/
theorem Links.IsRing.exists_prev (hring : s.IsRing h xs) (ha : a ∈ h :: xs) :
    ∃ c ∈ h :: xs, s.Edge c a := by
  have ha' : a ∈ xs ++ [h] := by simpa [or_comm] using ha
  obtain ⟨pre, post, hsplit⟩ := List.append_of_mem ha'
  obtain ⟨front, c, hfront⟩ := List.eq_nil_or_concat' (h :: pre) |>.resolve_left (by simp)
  have hc : c ∈ h :: pre := hfront ▸ by simp
  have hplace : h :: xs ++ [h] = front ++ c :: a :: post := by
    rw [List.cons_append, hsplit, ← List.cons_append, hfront]
    simp
  refine ⟨c, ?_, hring.edge hplace⟩
  have hpre : ∀ x ∈ pre, x ∈ xs ++ [h] := fun x hx => hsplit ▸ List.mem_append_left _ hx
  grind

/-- The links undo each other on a ring. -/
theorem Links.IsRing.inverse (hring : s.IsRing h xs) (ha : a ∈ h :: xs) :
    s.prev (s.next a) = a ∧ s.next (s.prev a) = a := by
  obtain ⟨b, -, hnext, hprev⟩ := hring.exists_next ha
  obtain ⟨c, -, hnext', hprev'⟩ := hring.exists_prev ha
  exact ⟨by rw [hnext, hprev], by rw [hprev', hnext']⟩

/-- Every node of a path is reached from its first node. -/
theorem Links.Path.reachable (hpath : s.Path (h :: l)) (ha : a ∈ h :: l) :
    ∃ k, s.next^[k] h = a := by
  induction l generalizing h with
  | nil => exact ⟨0, (List.mem_singleton.mp ha).symm⟩
  | cons x l ih =>
    rw [Links.Path, List.isChain_cons_cons] at hpath
    obtain rfl | ha := List.mem_cons.mp ha
    · exact ⟨0, rfl⟩
    · obtain ⟨k, hk⟩ := ih hpath.2 ha
      exact ⟨k + 1, by rw [Function.iterate_succ_apply, hpath.1.1, hk]⟩

/-- Every node of a ring is reached from the head. -/
theorem Links.IsRing.reachable (hring : s.IsRing h xs) (ha : a ∈ h :: xs) :
    ∃ k, s.next^[k] h = a :=
  hring.path.reachable (List.mem_append_left [h] ha)

section Edit

variable {front back : List N}

/-- The last node of a list without duplicates is none of the others. -/
theorem mem_of_concat (hnodup : l.Nodup) (hl : l = front ++ [a]) :
    a ∈ l ∧ a ∉ front ∧ ∀ x ∈ front, x ∈ l := by
  subst hl
  refine ⟨by simp, fun hfront => ?_, fun x hx => List.mem_append_left _ hx⟩
  exact (List.nodup_append.mp hnodup).2.2 a hfront a List.mem_cons_self rfl

section Place

variable (hfront : h :: pre = front ++ [a]) (hback : post ++ [h] = b :: back)
include hfront hback

/-- A ring consists of the two paths on either side of a place and the link between them. -/
theorem Links.isRing_append_iff :
    s.IsRing h (pre ++ post) ↔ (h :: (pre ++ post)).Nodup ∧ s.Path (h :: pre) ∧ s.Edge a b ∧
      s.Path (post ++ [h]) := by
  have hsplit : h :: (pre ++ post) ++ [h] = front ++ a :: b :: back := by
    calc h :: (pre ++ post) ++ [h] = (h :: pre) ++ (post ++ [h]) := by simp
      _ = (front ++ [a]) ++ (b :: back) := by rw [hfront, hback]
      _ = front ++ a :: b :: back := by simp
  constructor
  · rintro ⟨hnodup, hpath⟩
    rw [hsplit, Links.path_append_cons, ← hfront, ← hback] at hpath
    exact ⟨hnodup, hpath⟩
  · rintro ⟨hnodup, hpath⟩
    refine ⟨hnodup, ?_⟩
    rw [hsplit, Links.path_append_cons, ← hfront, ← hback]
    exact hpath

/-- The neighbours of a place occur on their own side only, and once. -/
theorem neighbours_notMem (hnodup : (h :: (pre ++ post)).Nodup) :
    a ∉ front ∧ a ∉ post ∧ b ∉ pre ∧ b ∉ back := by
  have hleft : ((front ++ [a]) ++ post).Nodup := hfront ▸ hnodup
  have hright : (pre ++ (b :: back)).Nodup := by
    rw [← hback, ← List.append_assoc]
    exact (List.perm_append_singleton h (pre ++ post)).nodup_iff.mpr hnodup
  simp only [List.nodup_append, List.nodup_cons] at hleft hright
  grind

/-- The neighbours of a node of a ring. -/
theorem Links.IsRing.neighbours (hring : s.IsRing h (pre ++ n :: post)) :
    s.Edge a n ∧ s.Edge n b := by
  obtain ⟨-, -, hedge, hpost⟩ := (Links.isRing_append_iff hfront rfl).mp hring
  rw [List.cons_append, hback] at hpost
  exact ⟨hedge, (List.isChain_cons_cons.mp hpost).1⟩

end Place

variable [DecidableEq N]

/-- Link two nodes both ways. -/
def Links.link (s : Links N) (a b : N) : Links N where
  next := Function.update s.next a b
  prev := Function.update s.prev b a

theorem Links.edge_link (s : Links N) (a b : N) : (s.link a b).Edge a b :=
  ⟨Function.update_self .., Function.update_self ..⟩

theorem Links.Edge.link {c d : N} (hedge : s.Edge c d) (hc : c ≠ a) (hd : d ≠ b) :
    (s.link a b).Edge c d :=
  ⟨(Function.update_of_ne hc ..).trans hedge.1, (Function.update_of_ne hd ..).trans hedge.2⟩

/-- A link leaves a path that does not leave the one node nor enter the other. -/
theorem Links.Path.link (hpath : s.Path l) (ha : a ∉ l.dropLast) (hb : b ∉ l.tail) :
    (s.link a b).Path l := by
  induction l with
  | nil => exact List.isChain_nil
  | cons x l ih =>
    cases l with
    | nil => exact List.isChain_singleton x
    | cons y l =>
      rw [Links.Path, List.isChain_cons_cons] at hpath ⊢
      rw [List.dropLast_cons_cons, List.mem_cons, not_or] at ha
      rw [List.tail_cons, List.mem_cons, not_or] at hb
      exact ⟨hpath.1.link (Ne.symm ha.1) (Ne.symm hb.1), ih hpath.2 ha.2 hb.2⟩

/-- A link leaves a path from a head to a last node that it does not leave before the last one nor
enter behind the head. -/
theorem Links.Path.link_ends {c d : N} (hpath : s.Path (h :: pre))
    (hfront : h :: pre = front ++ [a]) (hc : c ∉ front) (hd : d ∉ pre) :
    (s.link c d).Path (h :: pre) := by
  refine hpath.link ?_ hd
  rw [hfront, List.dropLast_concat]
  exact hc

/-- A link between two other nodes leaves a ring. -/
theorem Links.IsRing.link (hring : s.IsRing h xs) (ha : a ∉ h :: xs) (hb : b ∉ h :: xs) :
    (s.link a b).IsRing h xs := by
  refine hring.congr fun c hc => ⟨Function.update_of_ne ?_ .., Function.update_of_ne ?_ ..⟩
  · exact fun heq => ha (heq ▸ hc)
  · exact fun heq => hb (heq ▸ hc)

section Place

variable (hfront : h :: pre = front ++ [a]) (hback : post ++ [h] = b :: back)
include hfront hback

/-- A link keeps the paths on either side of a place if it does not start in the one nor end in
the other. -/
theorem Links.Path.link_sides {c d : N} (hpre : s.Path (h :: pre)) (hpost : s.Path (post ++ [h]))
    (hc : c ∉ front ∧ c ∉ post) (hd : d ∉ pre ∧ d ∉ back) :
    (s.link c d).Path (h :: pre) ∧ (s.link c d).Path (post ++ [h]) := by
  refine ⟨hpre.link_ends hfront hc.1 hd.1, hpost.link ?_ ?_⟩
  · rw [List.dropLast_concat]
    exact hc.2
  · rw [hback]
    exact hd.2

/-- Linking a node between two neighbours inserts it. -/
theorem Links.IsRing.insert (hring : s.IsRing h (pre ++ post)) (hn : n ∉ h :: (pre ++ post)) :
    ((s.link n b).link a n).IsRing h (pre ++ n :: post) := by
  obtain ⟨hnodup, hpre, -, hpost⟩ := (Links.isRing_append_iff hfront hback).mp hring
  obtain ⟨ha, ha', hb, hb'⟩ := neighbours_notMem hfront hback hnodup
  have hnpre : ∀ x ∈ h :: pre, x ≠ n := fun x hx heq => hn (heq ▸ List.mem_append_left _ hx)
  have hnpost : ∀ x ∈ post ++ [h], x ≠ n := by
    intro x hx heq
    rw [List.mem_append, List.mem_singleton] at hx
    exact hn (heq ▸ hx.elim (List.mem_append_right (h :: pre)) fun hxh => hxh ▸ List.mem_cons_self)
  have hnfront : n ∉ front ∧ n ∉ post :=
    ⟨fun hx => hnpre n (hfront ▸ List.mem_append_left _ hx) rfl,
      fun hx => hnpost n (List.mem_append_left _ hx) rfl⟩
  have hnback : n ∉ pre ∧ n ∉ back :=
    ⟨fun hx => hnpre n (.tail h hx) rfl, fun hx => hnpost n (hback ▸ .tail b hx) rfl⟩
  obtain ⟨hpre, hpost⟩ := hpre.link_sides hfront hback hpost hnfront ⟨hb, hb'⟩
  obtain ⟨hpre, hpost⟩ := hpre.link_sides hfront hback hpost ⟨ha, ha'⟩ hnback
  have hna : n ≠ a := (hnpre a (hfront ▸ by simp)).symm
  have hbn : b ≠ n := hnpost b (hback ▸ List.mem_cons_self)
  refine (Links.isRing_append_iff hfront rfl).mpr ⟨?_, hpre, Links.edge_link .., ?_⟩
  · exact (@List.perm_middle _ n (h :: pre) post).nodup_iff.mpr
      (List.nodup_cons.mpr ⟨hn, hnodup⟩)
  · rw [List.cons_append, hback]
    rw [hback] at hpost
    exact List.isChain_cons_cons.mpr ⟨(Links.edge_link s n b).link hna hbn, hpost⟩

/-- Linking the neighbours of a node removes it. -/
theorem Links.IsRing.erase (hring : s.IsRing h (pre ++ n :: post)) :
    (s.link a b).IsRing h (pre ++ post) := by
  obtain ⟨hnodup, hpre, -, hpost⟩ := (Links.isRing_append_iff hfront rfl).mp hring
  have hnodup' : (h :: (pre ++ post)).Nodup :=
    (List.nodup_cons.mp ((@List.perm_middle _ n (h :: pre) post).nodup_iff.mp hnodup)).2
  obtain ⟨ha, ha', hb, hb'⟩ := neighbours_notMem hfront hback hnodup'
  obtain ⟨hpre, hpost⟩ := hpre.link_sides hfront hback hpost.tail ⟨ha, ha'⟩ ⟨hb, hb'⟩
  exact (Links.isRing_append_iff hfront hback).mpr ⟨hnodup', hpre, Links.edge_link .., hpost⟩

end Place

/-- Linking a new head around the end of a ring splits it there. -/
theorem Links.IsRing.split {mid : List N} {z : N} (hring : s.IsRing h (pre ++ n :: post))
    (hfront : h :: pre = front ++ [a]) (hmid : n :: post = mid ++ [z])
    (ht : t ∉ h :: (pre ++ n :: post)) :
    (((s.link z t).link t n).link a h).IsRing h pre ∧
      (((s.link z t).link t n).link a h).IsRing t (n :: post) := by
  obtain ⟨hnodup, hpre, -, hpost⟩ := (Links.isRing_append_iff hfront rfl).mp hring
  have hparts : ((h :: pre) ++ n :: post).Nodup := hnodup
  obtain ⟨hheads, htails, hapart⟩ := List.nodup_append.mp hparts
  obtain ⟨ha, halast, hfronts⟩ := mem_of_concat hheads hfront
  obtain ⟨hz, hzlast, hmids⟩ := mem_of_concat htails hmid
  have htpre : ∀ x ∈ h :: pre, x ≠ t := fun x hx heq => ht (heq ▸ List.mem_append_left _ hx)
  have htpost : ∀ x ∈ n :: post, x ≠ t :=
    fun x hx heq => ht (heq ▸ List.mem_append_right (h :: pre) hx)
  have hhn : h ≠ n := hapart h List.mem_cons_self n List.mem_cons_self
  constructor
  · -- the links only leave the nodes before the last one where they enter none behind the head
    have hpre₁ := hpre.link_ends (c := z) (d := t) hfront
      (fun hx => hapart z (hfronts z hx) z hz rfl) fun hx => htpre t (.tail h hx) rfl
    have hpre₂ := hpre₁.link_ends (c := t) (d := n) hfront
      (fun hx => htpre t (hfronts t hx) rfl)
      fun hx => hapart n (.tail h hx) n List.mem_cons_self rfl
    have hpre₃ := hpre₂.link_ends (c := a) (d := h) hfront halast (List.nodup_cons.mp hheads).1
    rw [← List.append_nil pre]
    exact (Links.isRing_append_iff hfront rfl).mpr
      ⟨by simpa using hheads, hpre₃, Links.edge_link .., List.isChain_singleton h⟩
  · have hpost' : s.Path (n :: post) := List.IsChain.left_of_append hpost
    have hpost₁ := hpost'.link_ends (c := z) (d := t) hmid hzlast
      fun hx => htpost t (.tail n hx) rfl
    have hpost₂ := hpost₁.link_ends (c := t) (d := n) hmid
      (fun hx => htpost t (hmids t hx) rfl) (List.nodup_cons.mp htails).1
    have hpost₃ := hpost₂.link_ends (c := a) (d := h) hmid
      (fun hx => hapart a ha a (hmids a hx) rfl)
      fun hx => hapart h List.mem_cons_self h (.tail n hx) rfl
    have hedge : (((s.link z t).link t n).link a h).Edge t n :=
      (Links.edge_link _ t n).link (htpre a ha).symm hhn.symm
    have hedge' : (((s.link z t).link t n).link a h).Edge z t :=
      ((Links.edge_link s z t).link (htpost z hz) (htpost n List.mem_cons_self).symm).link
        (hapart a ha z hz).symm (htpre h List.mem_cons_self).symm
    have hlast : t :: n :: post = (t :: mid) ++ [z] := by rw [hmid, List.cons_append]
    have hnodup' : (t :: n :: post).Nodup :=
      List.nodup_cons.mpr ⟨fun hx => htpost t hx rfl, htails⟩
    rw [← List.append_nil (n :: post)]
    exact (Links.isRing_append_iff hlast rfl).mpr ⟨by simpa using hnodup',
      List.isChain_cons_cons.mpr ⟨hedge, hpost₃⟩, hedge', List.isChain_singleton t⟩

end Edit

end Demos.Lib
