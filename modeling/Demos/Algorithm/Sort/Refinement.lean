import Demos.Algorithm.Sort.Model
import Demos.Lib.StableSort
import Mathlib.Data.List.Induction

/-!
# The two sorts sort

`Merge` fills its buffer with the merging of the two halves and copies it back, so that `MergeSort`
merges from short lists. A round of `InsertSort` puts an element behind those that are not larger.
Both are the stable sorting where the comparison prefers the element that stands first, and
therefore the same array.
-/

namespace Demos.Algorithm

open Demos.Lib

variable {α : Type*} {compare : α → α → Bool} {x : α}
  {a done l old post pre s xs ys zs : List α} {rest : List (Option α)}
  {base b e i m mid n stop : ℕ}

section Array

theorem write_append {β : Type*} {l r : List β} {x y : β} (hi : i = l.length) :
    write (l ++ x :: r) i y = some (l ++ y :: r) := by
  subst hi
  simp [write]

/-- The element at the start of a part of an array, and the part behind it. -/
theorem getElem?_of_prefix_drop (h : x :: xs <+: a.drop i) :
    a[i]? = some x ∧ xs <+: a.drop (i + 1) := by
  obtain ⟨t, ht⟩ := h
  constructor
  · have hhead : (a.drop i)[0]? = some x := by simp [← ht]
    rwa [List.getElem?_drop, Nat.add_zero] at hhead
  · refine ⟨t, ?_⟩
    rw [← List.tail_drop, ← ht]
    rfl

/-- Writing the first cell of the buffer that is not filled. -/
theorem write_tmp (done : List α) (x : α) (hrest : 0 < rest.length) :
    ∃ rest', rest'.length + 1 = rest.length ∧
      write (done.map some ++ rest) done.length (some x) =
        some ((done ++ [x]).map some ++ rest') := by
  obtain ⟨cell, rest', rfl⟩ := List.exists_cons_of_length_pos hrest
  exact ⟨rest', rfl, by rw [write_append (by simp)]; simp⟩

end Array

section Merge

/-- The loop that moves the rest of a half fills as many cells. -/
theorem drainLoop_spec (done : List α) (hxs : xs <+: a.drop (base + i))
    (hstop : i + xs.length = stop) (hrest : xs.length ≤ rest.length) :
    ∃ rest', rest'.length + xs.length = rest.length ∧
      drainLoop a base stop i done.length (done.map some ++ rest) =
        some ((done ++ xs).length, (done ++ xs).map some ++ rest') := by
  induction xs generalizing i done rest with
  | nil =>
    refine ⟨rest, rfl, ?_⟩
    rw [drainLoop, if_neg (by simpa using hstop.ge), List.append_nil]
  | cons x xs ih =>
    rw [List.length_cons] at hstop hrest
    obtain ⟨hx, hxs⟩ := getElem?_of_prefix_drop hxs
    have hpos : 0 < rest.length := by omega
    obtain ⟨rest₁, hlength, hwrite⟩ := write_tmp done x hpos
    have hroom : xs.length ≤ rest₁.length := by omega
    obtain ⟨rest', hrest', hloop⟩ := @ih rest₁ (i + 1) (done ++ [x]) hxs (by omega) hroom
    refine ⟨rest', by rw [List.length_cons]; omega, ?_⟩
    rw [drainLoop, if_pos (by omega), hx]
    simp only [Option.bind_eq_bind, Option.bind_some, hwrite]
    simpa using hloop

/-- The two loops that move the rests fill what is left of the buffer. -/
theorem drainLoops_spec (hxs : xs <+: a.drop (base + b)) (hm : b + xs.length = m)
    (hys : ys <+: a.drop (base + mid)) (he : mid + ys.length = e)
    (hrest : rest.length = xs.length + ys.length) :
    (do
      let (ptr, tmp) ← drainLoop a base m b done.length (done.map some ++ rest)
      let (_, tmp) ← drainLoop a base e mid ptr tmp
      return tmp) = some ((done ++ (xs ++ ys)).map some) := by
  obtain ⟨rest₁, hlength, hfirst⟩ := drainLoop_spec done hxs hm (by omega : xs.length ≤ rest.length)
  have hleft : ys.length ≤ rest₁.length := by omega
  obtain ⟨rest', hrest', hsecond⟩ := drainLoop_spec (done ++ xs) hys he hleft
  obtain rfl : rest' = [] := List.length_eq_zero_iff.mp (by omega)
  simp only [Option.bind_eq_bind, hfirst, Option.bind_some, hsecond]
  simp

/-- The loops that fill the buffer, one round at a time. -/
theorem fillTmp_eq {ptr : ℕ} : fillTmp compare a base m e b mid ptr tmp =
    if b < m ∧ mid < e then do
      let x ← a[base + b]?
      let y ← a[base + mid]?
      if compare x y then
        let tmp ← write tmp ptr (some x)
        fillTmp compare a base m e (b + 1) mid (ptr + 1) tmp
      else
        let tmp ← write tmp ptr (some y)
        fillTmp compare a base m e b (mid + 1) (ptr + 1) tmp
    else do
      let (ptr, tmp) ← drainLoop a base m b ptr tmp
      let (_, tmp) ← drainLoop a base e mid ptr tmp
      return tmp := by
  rw [fillTmp, mergeLoop]
  split
  next =>
    simp only [fillTmp, Option.bind_eq_bind, Option.bind_assoc]
    congr 1
    funext x
    congr 1
    funext y
    split <;> exact Option.bind_assoc ..
  next => rfl

/-- The buffer is filled with the merging of the two halves. -/
theorem fillTmp_spec (hxs : xs <+: a.drop (base + b)) (hm : b + xs.length = m)
    (hys : ys <+: a.drop (base + mid)) (he : mid + ys.length = e)
    (hrest : rest.length = xs.length + ys.length) :
    fillTmp compare a base m e b mid done.length (done.map some ++ rest) =
      some ((done ++ xs.merge ys compare).map some) := by
  fun_induction List.merge xs ys compare generalizing b mid done rest with
  | case1 ys =>
    rw [fillTmp_eq, if_neg (by simp at hm; omega)]
    exact drainLoops_spec hxs hm hys he hrest
  | case2 xs =>
    rw [fillTmp_eq, if_neg (by simp at he; omega), ← List.append_nil xs]
    exact drainLoops_spec hxs hm hys he hrest
  | case3 x xs y ys hcmp ih =>
    obtain ⟨hx, hxs'⟩ := getElem?_of_prefix_drop hxs
    obtain ⟨hy, -⟩ := getElem?_of_prefix_drop hys
    simp only [List.length_cons] at hm he hrest
    have hpos : 0 < rest.length := by omega
    obtain ⟨rest', hlength, hwrite⟩ := write_tmp done x hpos
    have hnext := @ih (done ++ [x]) rest' (b + 1) mid hxs' (by omega) hys (by simp; omega)
      (by simp; omega)
    rw [fillTmp_eq, if_pos (by omega), hx, hy]
    simp only [Option.bind_eq_bind, Option.bind_some, hcmp, if_true, hwrite]
    simpa using hnext
  | case4 x xs y ys hcmp ih =>
    obtain ⟨hx, -⟩ := getElem?_of_prefix_drop hxs
    obtain ⟨hy, hys'⟩ := getElem?_of_prefix_drop hys
    simp only [List.length_cons] at hm he hrest
    have hpos : 0 < rest.length := by omega
    obtain ⟨rest', hlength, hwrite⟩ := write_tmp done y hpos
    have hnext := @ih (done ++ [y]) rest' b (mid + 1) hxs (by simp; omega) hys' (by omega)
      (by simp; omega)
    rw [fillTmp_eq, if_pos (by omega), hx, hy]
    simp only [Option.bind_eq_bind, Option.bind_some, if_neg hcmp, hwrite]
    simpa using hnext

/-- The buffer is copied over the elements it was filled from. -/
theorem copyLoop_spec (done : List α) (hold : old.length = zs.length)
    (hn : n = done.length + zs.length) :
    copyLoop ((done ++ zs).map some) pre.length n done.length (pre ++ (done ++ old) ++ post) =
      some (pre ++ (done ++ zs) ++ post) := by
  induction zs generalizing done old with
  | nil =>
    obtain rfl : old = [] := List.length_eq_zero_iff.mp hold
    rw [copyLoop, if_neg (by simp [hn])]
  | cons z zs ih =>
    obtain ⟨o, old, rfl⟩ := List.exists_cons_of_length_eq_add_one hold
    rw [List.length_cons] at hn
    have hcell : ((done ++ z :: zs).map some)[done.length]? = some (some z) := by simp
    have hwrite : write (pre ++ (done ++ o :: old) ++ post) (pre.length + done.length) z =
        some (pre ++ ((done ++ [z]) ++ old) ++ post) := by
      have hsplit : pre ++ (done ++ o :: old) ++ post = (pre ++ done) ++ o :: (old ++ post) := by
        simp
      rw [hsplit, write_append (by simp)]
      simp
    have hnext := @ih old (done ++ [z]) (by simpa using hold) (by simp; omega)
    rw [copyLoop, if_pos (by omega), hcell]
    simp only [Option.bind_eq_bind, Option.bind_some, hwrite]
    simpa using hnext

/-- `Merge` copies the merging of two segments to the start of its array, wherever they stand. -/
theorem merge_eq (pre skip xs ys post : List α) :
    merge compare (pre ++ (skip ++ (xs ++ ys)) ++ post) pre.length skip.length
        (skip.length + xs.length) (skip.length + xs.length + ys.length) =
      some (pre ++ (xs.merge ys compare ++ (skip ++ (xs ++ ys)).drop (xs.length + ys.length)) ++
        post) := by
  have hlength := List.length_merge compare xs ys
  have hcount : skip.length + xs.length + ys.length - skip.length = xs.length + ys.length := by
    omega
  have hfill : fillTmp compare (pre ++ (skip ++ (xs ++ ys)) ++ post) pre.length
      (skip.length + xs.length) (skip.length + xs.length + ys.length) skip.length
      (skip.length + xs.length) 0 (List.replicate (xs.length + ys.length) none) =
        some ((xs.merge ys compare).map some) := by
    refine @fillTmp_spec α compare _ [] xs ys _ _ _ _ _ _ ?_ rfl ?_ rfl (by simp)
    · have hcut : pre ++ (skip ++ (xs ++ ys)) ++ post = (pre ++ skip) ++ (xs ++ (ys ++ post)) := by
        simp
      rw [hcut, ← List.length_append, List.drop_left]
      exact List.prefix_append xs (ys ++ post)
    · have hcut : pre ++ (skip ++ (xs ++ ys)) ++ post = (pre ++ (skip ++ xs)) ++ (ys ++ post) := by
        simp
      rw [hcut, ← List.length_append, ← List.length_append, List.drop_left]
      exact List.prefix_append ys post
  have hcopy := @copyLoop_spec α ((skip ++ (xs ++ ys)).take (xs.length + ys.length))
    ((skip ++ (xs ++ ys)).drop (xs.length + ys.length) ++ post) pre (xs.merge ys compare)
    (xs.length + ys.length) [] (by simp [hlength]) (by simp [hlength])
  simp only [List.nil_append, List.length_nil, List.append_assoc, List.take_append_drop,
    ← List.append_assoc (List.take _ _)] at hcopy
  simp only [merge, hcount, hfill, Option.bind_eq_bind, Option.bind_some]
  simpa using hcopy

/-- `Merge` replaces two halves by their merging. -/
theorem merge_spec : merge compare (pre ++ (xs ++ ys) ++ post) pre.length 0 xs.length
    (xs.length + ys.length) = some (pre ++ xs.merge ys compare ++ post) := by
  have hmerge := @merge_eq α compare pre [] xs ys post
  simpa using hmerge

/-- `MergeSort` replaces a part of the array by a merge sorting of it. -/
theorem mergeSort_spec (xs : List α) (pre post : List α) :
    ∃ s, MergeSorts compare xs s ∧
      mergeSort compare (pre ++ xs ++ post) pre.length xs.length = some (pre ++ s ++ post) := by
  induction h : xs.length using Nat.strong_induction_on generalizing xs pre post with
  | _ n ih =>
    subst h
    by_cases hshort : xs.length < 2
    · exact ⟨xs, .short hshort, by rw [mergeSort, if_pos hshort]⟩
    · obtain ⟨l, r, rfl, hl⟩ : ∃ l r, xs = l ++ r ∧ l.length = xs.length / 2 :=
        ⟨_, _, (xs.take_append_drop (xs.length / 2)).symm, by rw [List.length_take]; omega⟩
      have hr : r.length = (l ++ r).length - (l ++ r).length / 2 := by
        rw [← hl, List.length_append]
        omega
      obtain ⟨s₁, hs₁, hfirst⟩ := ih _ (by omega) l pre (r ++ post) hl
      obtain ⟨s₂, hs₂, hsecond⟩ := ih _ (by omega) r (pre ++ s₁) post hr
      refine ⟨s₁.merge s₂ compare, hs₁.merge hs₂, ?_⟩
      have hmerge := @merge_spec α compare post pre s₁ s₂
      rw [List.length_append, hs₁.perm.length_eq] at hsecond
      rw [hs₁.perm.length_eq, hs₂.perm.length_eq, ← List.length_append] at hmerge
      rw [mergeSort, if_neg hshort]
      simp only [List.append_assoc, hl] at hfirst hsecond hmerge ⊢
      simp only [hfirst, hsecond, hmerge, Option.bind_eq_bind, Option.bind_some]

end Merge

section Insert

/-- The inner loop moves an element down to the first that it does not have to pass. -/
theorem insertLoop_spec (l r : List α) (x : α) :
    ∃ l₁ l₂, l = l₁ ++ l₂ ∧ (∀ y ∈ l₁.getLast?, compare x y = false) ∧
      (∀ y ∈ l₂, compare x y = true) ∧
      insertLoop compare l.length (l ++ x :: r) = some (l₁ ++ x :: l₂ ++ r) := by
  induction l using List.reverseRecOn generalizing r with
  | nil => exact ⟨[], [], rfl, by simp, by simp, by simp [insertLoop]⟩
  | append_singleton l y ih =>
    have hx : (l ++ [y] ++ x :: r)[l.length + 1]? = some x := by
      rw [List.getElem?_append_right (by simp)]
      simp
    have hy : (l ++ [y] ++ x :: r)[l.length]? = some y := by simp
    rw [List.length_append, List.length_singleton, insertLoop, hx, hy]
    simp only [Option.bind_eq_bind, Option.bind_some]
    split
    next hpass =>
      have hup : write (l ++ [y] ++ x :: r) (l.length + 1) y = some (l ++ [y] ++ y :: r) :=
        write_append (by simp)
      have hdown : write (l ++ [y] ++ y :: r) l.length x = some (l ++ x :: y :: r) := by
        rw [List.append_assoc]
        exact write_append rfl
      obtain ⟨l₁, l₂, rfl, hlast, hpassed, hloop⟩ := ih (y :: r)
      refine ⟨l₁, l₂ ++ [y], by simp, hlast, ?_, ?_⟩
      · intro z hz
        rcases List.mem_append.mp hz with hz | hz
        · exact hpassed z hz
        · rwa [List.mem_singleton.mp hz]
      · simp only [hup, hdown, Option.bind_some, hloop]
        simp
    next hstop =>
      refine ⟨l ++ [y], [], by simp, ?_, by simp, by simp⟩
      simpa using hstop

variable {le : α → α → Bool}

/-- The outer loop extends a stable sorting by the elements that follow. -/
theorem insertRounds_spec (hle : IsPreorder le) (r : List α) (h : IsStableSort le l s) :
    ∃ s', IsStableSort le (l ++ r) s' ∧
      insertRounds (fun x y => !le y x) r.length s.length (s ++ r) = some s' := by
  induction r generalizing l s with
  | nil => exact ⟨s, by simpa using h, by simp [insertRounds]⟩
  | cons x r ih =>
    obtain ⟨l₁, l₂, rfl, hlast, hpassed, hloop⟩ :=
      @insertLoop_spec α (fun x y => !le y x) s r x
    have hordered : InOrder le l₁ := (List.pairwise_append.mp h.ordered).1
    have hbefore : ∀ y ∈ l₁, le y x = true :=
      hordered.le_of_getLast? hle fun y hy => by simpa using hlast y hy
    have hnext := h.insert hle hbefore fun y hy => by simpa using hpassed y hy
    obtain ⟨s', hs', hrounds⟩ := ih hnext
    refine ⟨s', by simpa using hs', ?_⟩
    simp only [List.length_cons, insertRounds, hloop, Option.bind_eq_bind, Option.bind_some]
    rw [← hrounds]
    simp [Nat.add_assoc]

/-- `InsertSort` with the strict comparison is the stable sorting. -/
theorem insertSort_spec (hle : IsPreorder le) (a : List α) :
    ∃ s, IsStableSort le a s ∧ insertSort (fun x y => !le y x) a = some s := by
  cases a with
  | nil => exact ⟨[], ⟨.rfl, .nil, fun _ => rfl⟩, rfl⟩
  | cons x r =>
    have hfirst : IsStableSort le [x] [x] := (MergeSorts.short (by simp)).isStableSort hle
    exact insertRounds_spec hle r hfirst

end Insert

section Agreement

variable {κ : Type*}

/-- On a whole array `MergeSort` merges from short lists. -/
theorem mergeSort_whole (compare : α → α → Bool) (a : List α) :
    ∃ s, MergeSorts compare a s ∧ mergeSort compare a 0 a.length = some s := by
  obtain ⟨s, hs, hsort⟩ := @mergeSort_spec α compare a [] []
  exact ⟨s, hs, by simpa using hsort⟩

/-- `MergeSort` with the non-strict comparison of keys and `InsertSort` with the strict one return
the stable sorting of the array, the same for both. `MergeSort` with the strict comparison returns
the elements in order, with tied elements exchanged perhaps. No call leaves the array or the buffer,
as it has a result. -/
theorem mergeSort_eq_insertSort (key : α → κ) (le : κ → κ → Bool) (hle : IsPreorder le)
    (a : List α) :
    (∃ s, IsStableSort (fun x y => le (key x) (key y)) a s ∧
      mergeSort (fun x y => le (key x) (key y)) a 0 a.length = some s ∧
      insertSort (fun x y => !le (key y) (key x)) a = some s) ∧
    ∃ s, s.Perm a ∧ InOrder (fun x y => le (key x) (key y)) s ∧
      mergeSort (fun x y => !le (key y) (key x)) a 0 a.length = some s := by
  have hkey := hle.comap key
  constructor
  · obtain ⟨s, hmerges, hmerge⟩ := mergeSort_whole (fun x y => le (key x) (key y)) a
    obtain ⟨s', hs', hinsert⟩ := insertSort_spec hkey a
    have hs := hmerges.isStableSort hkey
    obtain rfl := hs.unique hkey hs'
    exact ⟨s, hs, hmerge, hinsert⟩
  · obtain ⟨s, hmerges, hmerge⟩ := mergeSort_whole (fun x y => !le (key y) (key x)) a
    refine ⟨s, hmerges.perm, hmerges.ordered hkey (fun x y hlt => ?_) (fun x y hge => ?_), hmerge⟩
    · -- an element that is strictly smaller is not larger
      exact (hle.total (key x) (key y)).resolve_right (by simpa using hlt)
    · simpa using hge

/-- Pairs that are ordered by their first component, with ties. -/
theorem mergeSort_eq_insertSort_pairs :
    ∃ s, IsStableSort (fun x y : ℕ × ℕ => decide (x.1 ≤ y.1)) [(2, 0), (1, 1), (2, 2), (1, 3)] s ∧
      mergeSort (fun x y : ℕ × ℕ => decide (x.1 ≤ y.1)) [(2, 0), (1, 1), (2, 2), (1, 3)] 0 4 =
        some s ∧
      insertSort (fun x y : ℕ × ℕ => !decide (y.1 ≤ x.1)) [(2, 0), (1, 1), (2, 2), (1, 3)] =
        some s :=
  (mergeSort_eq_insertSort Prod.fst (fun i j : ℕ => decide (i ≤ j)) .nat_le _).1

end Agreement

end Demos.Algorithm
