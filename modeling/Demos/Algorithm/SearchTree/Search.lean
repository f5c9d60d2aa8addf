import Demos.Algorithm.SearchTree.Order

/-!
# The two variants of `Search`

With `USE_RECURSION`, `Search` calls itself with a child, and each call first asserts that its node
is not null; without it, a loop goes down to the null pointer. Both find a value that is in an
ordered tree. A value that is not there ends the recursive variant at the assertion, where the loop
returns null.
-/

namespace Demos.Algorithm

open Demos.Lib

/-- How a call of `Search` ends. -/
inductive SearchEnd where
  /-- A pointer is returned. -/
  | returns (node : Option ℕ)
  /-- The assertion `!Empty(node)` fails. -/
  | fails
  /-- The call never ends. -/
  | loops
deriving DecidableEq, Repr

namespace SearchTree

variable {t : SearchTree} {fuel : ℕ} {s : BinaryTree ℕ} {v : ℤ}

/-- `Search` with `USE_RECURSION`, where each call asserts that its node is not null. -/
def searchRecursive (t : SearchTree) (value : ℤ) : ℕ → Option ℕ → SearchEnd
  | _, none => .fails
  | 0, some _ => .loops
  | fuel + 1, some node =>
    if t.value node = value then .returns (some node)
    else if value < t.value node then searchRecursive t value fuel (t.left node)
    else searchRecursive t value fuel (t.right node)

/-- The loop of `Search` without `USE_RECURSION`. -/
def searchLoop (t : SearchTree) (value : ℤ) : ℕ → Option ℕ → SearchEnd
  | _, none => .returns none
  | 0, some _ => .loops
  | fuel + 1, some node =>
    if t.value node ≠ value then
      searchLoop t value fuel (if value < t.value node then t.left node else t.right node)
    else .returns (some node)

/-- `Search` without `USE_RECURSION`. -/
def searchIterative (t : SearchTree) (value : ℤ) (fuel : ℕ) (node : Option ℕ) : SearchEnd :=
  if node = none then .fails else t.searchLoop value fuel node

/-- `Search` of the root, where the macro selects one of the variants. -/
def search (t : SearchTree) (useRecursion : Bool) (value : ℤ) : SearchEnd :=
  if useRecursion then t.searchRecursive value t.fresh t.root
  else t.searchIterative value t.fresh t.root

/-- A node that holds the value is returned, or there is none and null is returned. -/
def Finds (t : SearchTree) (value : ℤ) (e : SearchEnd) : Prop :=
  (∃ n, e = .returns (some n) ∧ t.rooted.Reaches n ∧ t.value n = value) ∨
    e = .returns none ∧ ∀ n, t.rooted.Reaches n → t.value n ≠ value

/-- The two variants end in the same way, which is the right one. -/
structure SearchesAlike (t : SearchTree) (value : ℤ) : Prop where
  same : t.search true value = t.search false value
  finds : ∀ useRecursion, t.Finds value (t.search useRecursion value)

/-- Both variants go to a node with the value, or both go to a null pointer below the tree. -/
theorem Shape.search (h : t.Shape s) (hord : Ordered t.value s) (hfuel : s.height ≤ fuel) :
    (∃ n ∈ inorder s, t.value n = v ∧ t.searchLoop v fuel (top s) = .returns (some n) ∧
      t.searchRecursive v fuel (top s) = .returns (some n)) ∨
    (∀ n ∈ inorder s, t.value n ≠ v) ∧ t.searchLoop v fuel (top s) = .returns none ∧
      t.searchRecursive v fuel (top s) = .fails := by
  induction s generalizing fuel with
  | nil => exact .inr (by cases fuel <;> simp [inorder, top, searchLoop, searchRecursive])
  | node n l r ihl ihr =>
    obtain ⟨hleft, hright, hshapel, hshaper⟩ := h
    obtain ⟨hl, hr, hordl, hordr⟩ := ordered_node.mp hord
    obtain ⟨fuel, rfl, hfuell, hfuelr⟩ := exists_of_height_node_le hfuel
    simp only [top_node, searchLoop, searchRecursive, inorder, hleft, hright, List.mem_append,
      List.mem_cons]
    obtain hlt | heq | hgt := lt_trichotomy v (t.value n)
    · -- the value is not in the right subtree
      simp only [hlt, hlt.ne', ne_eq, not_false_eq_true, if_true, if_false]
      obtain ⟨m, hm, hfound⟩ | ⟨habsent, hends⟩ := ihl hshapel hordl hfuell
      · exact .inl ⟨m, .inl hm, hfound⟩
      · refine .inr ⟨fun m hm => ?_, hends⟩
        obtain hm | rfl | hm := hm
        · exact habsent m hm
        · exact hlt.ne'
        · exact (hlt.trans_le (hr m hm)).ne'
    · exact .inl ⟨n, .inr (.inl rfl), heq.symm, by simp [heq], by simp [heq]⟩
    · -- the value is not in the left subtree
      simp only [hgt.not_gt, hgt.ne, ne_eq, not_false_eq_true, if_true, if_false]
      obtain ⟨m, hm, hfound⟩ | ⟨habsent, hends⟩ := ihr hshaper hordr hfuelr
      · exact .inl ⟨m, .inr (.inr hm), hfound⟩
      · refine .inr ⟨fun m hm => ?_, hends⟩
        obtain hm | rfl | hm := hm
        · exact ((hl m hm).trans hgt).ne
        · exact hgt.ne
        · exact habsent m hm

/-- In an ordered tree, both variants return the same node with the value, or there is none, and the
assertion fails in the recursive variant only. -/
theorem IsOrdered.search (h : t.IsOrdered) (hroot : t.root ≠ none) (v : ℤ) :
    (∃ n, t.rooted.Reaches n ∧ t.value n = v ∧
      ∀ useRecursion, t.search useRecursion v = .returns (some n)) ∨
    (∀ n, t.rooted.Reaches n → t.value n ≠ v) ∧ t.search false v = .returns none ∧
      t.search true v = .fails := by
  obtain ⟨s, htree, hord⟩ := h
  have hiterative : t.search false v = t.searchLoop v t.fresh (top s) := by
    rw [← htree.root]
    exact if_neg hroot
  have hrecursive : t.search true v = t.searchRecursive v t.fresh (top s) := by
    rw [← htree.root]
    rfl
  rw [hiterative, hrecursive]
  obtain ⟨n, hn, hv, hloop, hcall⟩ | ⟨habsent, hends⟩ :=
    htree.shape.search (v := v) hord (htree.height_le (c := []))
  · refine .inl ⟨n, htree.mem_iff.mp hn, hv, fun useRecursion => ?_⟩
    cases useRecursion with
    | false => exact hiterative.trans hloop
    | true => exact hrecursive.trans hcall
  · exact .inr ⟨fun n hn => habsent n (htree.mem_iff.mpr hn), hends⟩

/-- In an ordered tree that is not empty, the two variants of `Search` end in the same way, with a
node that holds the value or with null if there is none, exactly if the tree holds the value. -/
theorem searchesAlike_iff (t : SearchTree) (v : ℤ) (h : t.IsOrdered) (hroot : t.root ≠ none) :
    t.SearchesAlike v ↔ ∃ n, t.rooted.Reaches n ∧ t.value n = v := by
  obtain ⟨n, hn, hv, hsearch⟩ | ⟨habsent, hiterative, hrecursive⟩ := h.search hroot v
  · refine iff_of_true ⟨?_, fun useRecursion => ?_⟩ ⟨n, hn, hv⟩
    · rw [hsearch, hsearch]
    · exact .inl ⟨n, hsearch useRecursion, hn, hv⟩
  · refine iff_of_false (fun halike => ?_) fun ⟨n, hn, hv⟩ => habsent n hn hv
    have hsame := halike.same
    rw [hiterative, hrecursive] at hsame
    cases hsame

/-- A value that was inserted is found by both variants. -/
theorem searchesAlike_root :
    (ofValues [12]).IsOrdered ∧ (ofValues [12]).root ≠ none ∧ (ofValues [12]).SearchesAlike 12 := by
  obtain ⟨-, hord, -⟩ := ofValues_spec [12]
  have hroot : (ofValues [12]).root ≠ none := by decide
  exact ⟨hord, hroot, (searchesAlike_iff _ 12 hord hroot).mpr ⟨0, ⟨[], .root rfl⟩, rfl⟩⟩

/-- In a tree of one node with the value `12`, the recursive variant fails its assertion for `5`,
where the other one returns null. -/
theorem searchesAlike_fails :
    (ofValues [12]).search true 5 = .fails ∧ (ofValues [12]).search false 5 = .returns none ∧
      ¬ ∀ (t : SearchTree) (v : ℤ), t.IsOrdered → t.root ≠ none → t.SearchesAlike v := by
  refine ⟨by decide, by decide, fun hall => ?_⟩
  have hsame := (hall (ofValues [12]) 5 (ofValues_spec [12]).2.1 (by decide)).same
  exact absurd hsame (by decide)

end SearchTree

end Demos.Algorithm
