import Mathlib.Data.List.Nodup
import Mathlib.Data.Set.Insert
import Mathlib.Logic.Function.Basic

/-!
# Items that pass through places

Every place holds a list of items, the oldest first. An item enters at the end of the list of a
place and passes from the front of one list to the end of another; it may change on the way, but not
its key. Two things follow whatever the places are and in whatever order items pass. An item that
entered is at one place and only once there. And along a route, a list of places each of which takes
what is counted from the next one only, the items stay in the order in which they entered the route.
-/

namespace Demos.Lib

variable {N α κ ρ : Type*}

/-- What happens to the items: nothing, an item enters, or one passes and becomes another. -/
inductive Passage (N α : Type*) where
  | rest
  | enter (n : N) (x : α)
  | pass (a b : N) (x y : α)

/-- The lists before and after a passage. -/
inductive Passes (held held' : N → List α) : Passage N α → Prop
  | rest (hframe : ∀ n, held' n = held n) : Passes held held' .rest
  | enter {n : N} {x : α} (hto : held' n = held n ++ [x]) (hframe : ∀ m, m ≠ n → held' m = held m) :
      Passes held held' (.enter n x)
  | pass {a b : N} {x y : α} (hne : a ≠ b) (hfrom : held a = x :: held' a)
      (hto : held' b = held b ++ [y]) (hframe : ∀ m, m ≠ a → m ≠ b → held' m = held m) :
      Passes held held' (.pass a b x y)

section Update

variable [DecidableEq N] {held held' : N → List α} {passage : Passage N α}

/-- An item enters where a list is extended. -/
theorem passes_enter (held : N → List α) (n : N) (x : α) :
    Passes held (Function.update held n (held n ++ [x])) (.enter n x) :=
  .enter (Function.update_self ..) fun _ hm => Function.update_of_ne hm ..

/-- An item passes from where a list loses its front to where one is extended. -/
theorem passes_pass {a b : N} {x : α} {rest : List α} (hne : a ≠ b) (hfrom : held a = x :: rest)
    (y : α) :
    Passes held (Function.update (Function.update held a rest) b (held b ++ [y]))
      (.pass a b x y) := by
  refine .pass hne ?_ (Function.update_self ..) ?_
  · rw [Function.update_of_ne hne, Function.update_self, hfrom]
  · intro m hma hmb
    rw [Function.update_of_ne hmb, Function.update_of_ne hma]

/-- A property of the items by place is kept if the item that comes to a place has it there. -/
theorem Passes.forall_mem {T : N → α → Prop} (hpasses : Passes held held' passage)
    (hall : ∀ n, ∀ x ∈ held n, T n x)
    (hnew : ∀ n x, passage = .enter n x → T n x)
    (hpassed : ∀ a b x y, passage = .pass a b x y → x ∈ held a → T b y) :
    ∀ n, ∀ x ∈ held' n, T n x := by
  intro n x hx
  cases hpasses with
  | rest hframe => exact hall n x (hframe n ▸ hx)
  | @enter m y hto hframe =>
    by_cases hn : n = m
    · subst hn
      rw [hto, List.mem_append, List.mem_singleton] at hx
      obtain hx | rfl := hx
      · exact hall n x hx
      · exact hnew n x rfl
    · exact hall n x (hframe n hn ▸ hx)
  | @pass a b z y hne hfrom hto hframe =>
    by_cases hna : n = a
    · subst hna
      exact hall n x (hfrom ▸ List.mem_cons_of_mem z hx)
    by_cases hnb : n = b
    · subst hnb
      rw [hto, List.mem_append, List.mem_singleton] at hx
      obtain hx | rfl := hx
      · exact hall n x hx
      · exact hpassed a n z x rfl (hfrom ▸ List.mem_cons_self)
    · exact hall n x (hframe n hna hnb ▸ hx)

end Update

section Once

/-- The keys of the items are those that were issued, each at one place and once there. -/
structure Placed (key : α → κ) (held : N → List α) (issued : Set κ) : Prop where
  nodup (n : N) : ((held n).map key).Nodup
  unique {n m : N} {k : κ} : k ∈ (held n).map key → k ∈ (held m).map key → n = m
  mem_iff {k : κ} : k ∈ issued ↔ ∃ n, k ∈ (held n).map key

/-- The keys that a passage issues. -/
def Passage.issues (key : α → κ) : Passage N α → Set κ
  | .enter _ x => {key x}
  | _ => ∅

/-- The item that enters is new, and one that passes keeps its key. -/
def Passage.Fair (key : α → κ) (issued : Set κ) : Passage N α → Prop
  | .rest => True
  | .enter _ x => key x ∉ issued
  | .pass _ _ x y => key y = key x

variable {key : α → κ} {held held' : N → List α} {issued : Set κ} {passage : Passage N α}

theorem placed_nil (key : α → κ) : Placed key (fun _ : N => []) ∅ where
  nodup _ := List.nodup_nil
  unique hn := absurd hn List.not_mem_nil
  mem_iff := by simp

/-- An item that enters is at the end of one place. -/
theorem Placed.enter {n : N} {x : α} (h : Placed key held issued) (hnew : key x ∉ issued)
    (hto : held' n = held n ++ [x]) (hframe : ∀ m, m ≠ n → held' m = held m) :
    Placed key held' ({key x} ∪ issued) := by
  have hmem : ∀ {m k}, k ∈ (held' m).map key ↔ k ∈ (held m).map key ∨ m = n ∧ k = key x := by
    intro m k
    by_cases hm : m = n
    · subst hm
      simp [hto]
    · simp [hframe m hm, hm]
  have habsent : ∀ m, key x ∉ (held m).map key := fun m hm => hnew (h.mem_iff.mpr ⟨m, hm⟩)
  refine ⟨?_, ?_, ?_⟩
  · intro m
    by_cases hm : m = n
    · subst hm
      rw [hto, List.map_append, List.map_singleton, ← List.concat_eq_append]
      exact (List.nodup_concat ..).mpr ⟨habsent m, h.nodup m⟩
    · rw [hframe m hm]
      exact h.nodup m
  · intro m m' k hk hk'
    rcases hmem.mp hk with hk | ⟨rfl, rfl⟩ <;> rcases hmem.mp hk' with hk' | ⟨rfl, heq⟩
    · exact h.unique hk hk'
    · exact absurd (heq ▸ hk) (habsent m)
    · exact absurd hk' (habsent m')
    · rfl
  · intro k
    simp only [hmem, exists_or, exists_eq_left, Set.mem_union, Set.mem_singleton_iff, h.mem_iff]
    exact or_comm

/-- An item that passes leaves its place for the other. -/
theorem Placed.pass {a b : N} {x y : α} (h : Placed key held issued) (hkey : key y = key x)
    (hne : a ≠ b) (hfrom : held a = x :: held' a) (hto : held' b = held b ++ [y])
    (hframe : ∀ m, m ≠ a → m ≠ b → held' m = held m) : Placed key held' issued := by
  have hx : key x ∈ (held a).map key := by simp [hfrom]
  have hcons : (key x :: (held' a).map key).Nodup := by
    have ha := h.nodup a
    rwa [hfrom] at ha
  have hgone : key x ∉ (held' a).map key := (List.nodup_cons.mp hcons).1
  have habsent : key x ∉ (held b).map key := fun hb => hne (h.unique hx hb)
  -- where a key is now, it was before, and the key that passed is at its new place
  have hmem : ∀ {m k}, k ∈ (held' m).map key ↔
      (k ≠ key x ∧ k ∈ (held m).map key) ∨ (m = b ∧ k = key x) := by
    intro m k
    by_cases hma : m = a
    · subst hma
      rw [hfrom]
      by_cases hk : k = key x
      · subst hk
        simp [hne, hgone]
      · simp [hk]
    by_cases hmb : m = b
    · subst hmb
      rw [hto, List.map_append, List.map_singleton, hkey]
      by_cases hk : k = key x
      · subst hk
        simp
      · simp [hk]
    · rw [hframe m hma hmb]
      have hother : k ∈ (held m).map key → k ≠ key x := by
        rintro hk rfl
        exact hma (h.unique hk hx)
      simp only [hmb, false_and, or_false]
      exact ⟨fun hk => ⟨hother hk, hk⟩, And.right⟩
  refine ⟨?_, ?_, ?_⟩
  · intro m
    by_cases hma : m = a
    · subst hma
      exact (List.nodup_cons.mp hcons).2
    by_cases hmb : m = b
    · subst hmb
      rw [hto, List.map_append, List.map_singleton, ← List.concat_eq_append, hkey]
      exact (List.nodup_concat ..).mpr ⟨habsent, h.nodup m⟩
    · rw [hframe m hma hmb]
      exact h.nodup m
  · intro m m' k hk hk'
    rcases hmem.mp hk with ⟨hkx, hk⟩ | ⟨rfl, rfl⟩ <;>
      rcases hmem.mp hk' with ⟨hkx', hk'⟩ | ⟨rfl, heq⟩
    · exact h.unique hk hk'
    · exact absurd heq hkx
    · exact absurd rfl hkx'
    · rfl
  · intro k
    rw [h.mem_iff]
    simp only [hmem, exists_or, exists_and_left, exists_eq_left]
    constructor
    · rintro ⟨m, hm⟩
      by_cases hk : k = key x
      · exact .inr hk
      · exact .inl ⟨hk, m, hm⟩
    · rintro (⟨-, hm⟩ | rfl)
      · exact hm
      · exact ⟨a, hx⟩

/-- A fair passage keeps every issued item at one place. -/
theorem Passes.placed (hpasses : Passes held held' passage) (hfair : passage.Fair key issued)
    (h : Placed key held issued) : Placed key held' (passage.issues key ∪ issued) := by
  cases hpasses with
  | rest hframe =>
    obtain rfl : held' = held := funext hframe
    simpa [Passage.issues] using h
  | enter hto hframe => exact h.enter hfair hto hframe
  | pass hne hfrom hto hframe => simpa [Passage.issues] using h.pass hfair hne hfrom hto hframe

end Once

section Order

variable {rank : α → ρ} {counts : N → α → Bool} {held held' : N → List α} {passage : Passage N α}

/-- The counted items along a route, from its end to its start. -/
def along (counts : N → α → Bool) (held : N → List α) (route : List N) : List α :=
  route.flatMap fun n => (held n).filter (counts n)

/-- What is counted enters at the start of the route only, and passes only from a place of the route
to the one behind it, where it was counted before. -/
def Passage.Follows (rank : α → ρ) (counts : N → α → Bool) (route : List N) : Passage N α → Prop
  | .rest => True
  | .enter n x => n ∈ route → counts n x = true → ∃ before, route = before ++ [n]
  | .pass a b x y => b ∈ route → counts b y = true →
      rank y = rank x ∧ counts a x = true ∧ ∃ before after, route = before ++ b :: a :: after

theorem along_append (held : N → List α) (route route' : List N) :
    along counts held (route ++ route') = along counts held route ++ along counts held route' :=
  List.flatMap_append

theorem along_cons (held : N → List α) (n : N) (route : List N) :
    along counts held (n :: route) = (held n).filter (counts n) ++ along counts held route :=
  List.flatMap_cons

/-- A route whose places hold no more than before holds no more than before. -/
theorem along_sublist {route : List N}
    (h : ∀ n ∈ route, ((held' n).filter (counts n)).Sublist ((held n).filter (counts n))) :
    (along counts held' route).Sublist (along counts held route) := by
  induction route with
  | nil => exact List.Sublist.refl _
  | cons n route ih =>
    rw [along_cons, along_cons]
    exact (h n List.mem_cons_self).append (ih fun m hm => h m (List.mem_cons_of_mem n hm))

/-- A route whose places hold what they held holds what it held. -/
theorem along_congr {route : List N} (h : ∀ n ∈ route, held' n = held n) :
    along counts held' route = along counts held route :=
  List.flatMap_congr fun n hn => by rw [h n hn]

/-- An item that enters a route comes last on it. -/
theorem along_enter {n : N} {x : α} {before : List N} (hnodup : (before ++ [n]).Nodup)
    (hx : counts n x = true) (hto : held' n = held n ++ [x])
    (hframe : ∀ m, m ≠ n → held' m = held m) :
    along counts held' (before ++ [n]) = along counts held (before ++ [n]) ++ [x] := by
  have hbefore : ∀ m ∈ before, held' m = held m := by
    intro m hm
    apply hframe
    rintro rfl
    exact List.disjoint_of_nodup_append hnodup hm (List.mem_singleton_self m)
  rw [along_append, along_append, along_congr hbefore, along_cons, along_cons, hto,
    List.filter_append]
  simp [along, hx]

/-- An item that passes from a place of the route to the one behind it keeps its rank there. -/
theorem along_pass {a b : N} {x y : α} {before after : List N}
    (hnodup : (before ++ b :: a :: after).Nodup) (hrank : rank y = rank x)
    (hx : counts a x = true) (hy : counts b y = true) (hfrom : held a = x :: held' a)
    (hto : held' b = held b ++ [y]) (hframe : ∀ m, m ≠ a → m ≠ b → held' m = held m) :
    (along counts held' (before ++ b :: a :: after)).map rank =
      (along counts held (before ++ b :: a :: after)).map rank := by
  have hdisjoint := List.disjoint_of_nodup_append hnodup
  have htail := List.nodup_cons.mp (List.Nodup.of_append_right hnodup)
  have hafter : ∀ m ∈ after, held' m = held m := by
    intro m hm
    apply hframe
    · rintro rfl
      exact (List.nodup_cons.mp htail.2).1 hm
    · rintro rfl
      exact htail.1 (List.mem_cons_of_mem a hm)
  have hbefore : ∀ m ∈ before, held' m = held m := by
    intro m hm
    apply hframe
    · rintro rfl
      exact hdisjoint hm (by simp)
    · rintro rfl
      exact hdisjoint hm (by simp)
  simp only [along_append, along_cons, along_congr hbefore, along_congr hafter, hto, hfrom,
    List.filter_append, List.filter_cons_of_pos hx, List.filter_cons_of_pos hy, List.filter_nil,
    List.map_append, List.map_cons, hrank, List.append_assoc, List.cons_append,
    List.nil_append]

/-- A passage that follows the route leaves the ranks along it, takes some away, or adds one at the
end. -/
theorem Passes.along (hpasses : Passes held held' passage) {route : List N} (hnodup : route.Nodup)
    (hfollows : passage.Follows rank counts route) :
    ((along counts held' route).map rank).Sublist ((along counts held route).map rank) ∨
      ∃ n x, passage = .enter n x ∧ counts n x = true ∧
        (along counts held' route).map rank = (along counts held route).map rank ++ [rank x] := by
  cases hpasses with
  | rest hframe =>
    obtain rfl : held' = held := funext hframe
    exact .inl (List.Sublist.refl _)
  | @enter n x hto hframe =>
    by_cases hcounted : n ∈ route ∧ counts n x = true
    · obtain ⟨before, rfl⟩ := hfollows hcounted.1 hcounted.2
      refine .inr ⟨n, x, rfl, hcounted.2, ?_⟩
      rw [along_enter hnodup hcounted.2 hto hframe, List.map_append, List.map_singleton]
    · refine .inl ((along_sublist fun m hm => ?_).map rank)
      by_cases hmn : m = n
      · subst hmn
        have hx : ¬ counts m x = true := fun hx => hcounted ⟨hm, hx⟩
        rw [hto, List.filter_append, List.filter_cons_of_neg hx, List.filter_nil, List.append_nil]
      · rw [hframe m hmn]
  | @pass a b x y hne hfrom hto hframe =>
    by_cases hcounted : b ∈ route ∧ counts b y = true
    · obtain ⟨hrank, hx, before, after, rfl⟩ := hfollows hcounted.1 hcounted.2
      refine .inl ?_
      rw [along_pass hnodup hrank hx hcounted.2 hfrom hto hframe]
    · refine .inl ((along_sublist fun m hm => ?_).map rank)
      by_cases hma : m = a
      · subst hma
        rw [hfrom]
        exact (List.sublist_cons_self x _).filter _
      by_cases hmb : m = b
      · subst hmb
        have hy : ¬ counts m y = true := fun hy => hcounted ⟨hm, hy⟩
        rw [hto, List.filter_append, List.filter_cons_of_neg hy, List.filter_nil, List.append_nil]
      · rw [hframe m hma hmb]

/-- If what enters ranks above everything on the route, the ranks along it stay in order. -/
theorem Passes.pairwise {r : ρ → ρ → Prop} (hpasses : Passes held held' passage) {route : List N}
    (hnodup : route.Nodup) (hfollows : passage.Follows rank counts route)
    (hnew : ∀ n x, passage = .enter n x → counts n x = true →
      ∀ y ∈ Lib.along counts held route, r (rank y) (rank x))
    (h : ((Lib.along counts held route).map rank).Pairwise r) :
    ((Lib.along counts held' route).map rank).Pairwise r := by
  obtain hsub | ⟨n, x, hpassage, hcounted, heq⟩ := hpasses.along hnodup hfollows
  · exact h.sublist hsub
  · rw [heq, List.pairwise_append]
    refine ⟨h, List.pairwise_singleton _ _, ?_⟩
    intro k hk k' hk'
    obtain ⟨y, hy, rfl⟩ := List.mem_map.mp hk
    obtain rfl := List.mem_singleton.mp hk'
    exact hnew n x hpassage hcounted y hy

end Order

end Demos.Lib
