import Std.Data.ExtTreeMap

/-!
# Maps from lists of pairs

A map that is filled from a list of pairs holds pairs of the list only, the last one of each key.
With distinct keys it holds all of them, so that a map is filled again from its own list. When the
list is changed pair by pair before, in a way that a second time has no effect, the map comes back
exactly if no pair changes.
-/

namespace Demos.Lib

open Std

/-- A key has a last pair in a list, or none. -/
theorem exists_last_or_forall_ne {α β : Type} (l : List (α × β)) (k : α) :
    (∃ v before after, l = before ++ (k, v) :: after ∧ ∀ pair ∈ after, pair.1 ≠ k) ∨
      ∀ pair ∈ l, pair.1 ≠ k := by
  induction l with
  | nil => exact .inr nofun
  | cons pair l ih =>
    obtain ⟨v, before, after, rfl, hafter⟩ | hnone := ih
    · exact .inl ⟨v, pair :: before, after, rfl, hafter⟩
    · by_cases hkey : pair.1 = k
      · exact .inl ⟨pair.2, [], l, by simp [← hkey], hnone⟩
      · exact .inr (List.forall_mem_cons.mpr ⟨hkey, hnone⟩)

variable {α β : Type} {cmp : α → α → Ordering} [TransCmp cmp] [LawfulEqCmp cmp]
  {t : ExtTreeMap α β cmp} {l : List (α × β)} {k : α} {v : β}

/-- What holds of all pairs after one has been put in. -/
theorem forall_getElem?_insert {P : α → β → Prop} :
    (∀ key value, (t.insert k v)[key]? = some value → P key value) ↔
      P k v ∧ ∀ key value, key ≠ k → t[key]? = some value → P key value := by
  have hcmp : ∀ key, cmp k key = .eq ↔ key = k :=
    fun key => LawfulEqCmp.compare_eq_iff_eq.trans eq_comm
  constructor
  · intro hall
    refine ⟨hall k v ExtTreeMap.getElem?_insert_self, fun key value hne hvalue => ?_⟩
    refine hall key value ?_
    rw [ExtTreeMap.getElem?_insert, if_neg ((not_congr (hcmp key)).mpr hne), hvalue]
  · rintro ⟨hself, hother⟩ key value hvalue
    rw [ExtTreeMap.getElem?_insert] at hvalue
    split at hvalue
    next heq =>
      rw [(hcmp key).mp heq, ← Option.some.inj hvalue]
      exact hself
    next hne => exact hother key value ((not_congr (hcmp key)).mp hne) hvalue

/-- After pairs are inserted a map holds, for a key, the last of them that has it, and what was
there before if none has. -/
theorem getElem?_insertMany_eq_some_iff : (t.insertMany l)[k]? = some v ↔
    (∃ before after, l = before ++ (k, v) :: after ∧ ∀ pair ∈ after, pair.1 ≠ k) ∨
      (t[k]? = some v ∧ ∀ pair ∈ l, pair.1 ≠ k) := by
  induction l generalizing t with
  | nil => simp
  | cons pair l ih =>
    rw [ExtTreeMap.insertMany_cons, ih]
    constructor
    · rintro (⟨before, after, rfl, hafter⟩ | ⟨hinsert, hnone⟩)
      · exact .inl ⟨pair :: before, after, rfl, hafter⟩
      · rw [ExtTreeMap.getElem?_insert] at hinsert
        split at hinsert
        next heq =>
          have hkey : pair.1 = k := LawfulEqCmp.eq_of_compare heq
          have hval : pair.2 = v := Option.some.inj hinsert
          exact .inl ⟨[], l, by simp [← hkey, ← hval], hnone⟩
        next hne =>
          have hkey : pair.1 ≠ k := fun heq => hne (heq ▸ ReflCmp.compare_self)
          exact .inr ⟨hinsert, List.forall_mem_cons.mpr ⟨hkey, hnone⟩⟩
    · rintro (⟨before, after, hl, hafter⟩ | ⟨hold, hnone⟩)
      · cases before with
        | nil =>
          -- the pair is the one just inserted
          obtain ⟨rfl, rfl⟩ := List.cons.inj hl
          exact .inr ⟨ExtTreeMap.getElem?_insert_self, hafter⟩
        | cons head before =>
          obtain ⟨rfl, rfl⟩ := List.cons.inj hl
          exact .inl ⟨before, after, rfl, hafter⟩
      · obtain ⟨hpair, hrest⟩ := List.forall_mem_cons.mp hnone
        refine .inr ⟨?_, hrest⟩
        rw [ExtTreeMap.getElem?_insert, if_neg fun heq => hpair (LawfulEqCmp.eq_of_compare heq),
          hold]

/-- What a map holds after pairs are inserted is one of them or was there before. -/
theorem getElem?_insertMany_eq_some (hget : (t.insertMany l)[k]? = some v) :
    (k, v) ∈ l ∨ t[k]? = some v := by
  obtain ⟨before, after, rfl, -⟩ | ⟨hold, -⟩ := getElem?_insertMany_eq_some_iff.mp hget
  · exact .inl (by simp)
  · exact .inr hold

/-- A map from a list holds pairs of the list. -/
theorem mem_of_getElem?_ofList (hget : (ExtTreeMap.ofList l cmp)[k]? = some v) : (k, v) ∈ l := by
  rw [ExtTreeMap.ofList_eq_insertMany_empty] at hget
  obtain hmem | hempty := getElem?_insertMany_eq_some hget
  · exact hmem
  · simp at hempty

/-- With distinct keys it holds all of them. -/
theorem getElem?_ofList_eq_some_iff
    (hdistinct : l.Pairwise fun a b => ¬ cmp a.1 b.1 = .eq) :
    (ExtTreeMap.ofList l cmp)[k]? = some v ↔ (k, v) ∈ l :=
  ⟨mem_of_getElem?_ofList,
    fun hmem => ExtTreeMap.getElem?_ofList_of_mem ReflCmp.compare_self hdistinct hmem⟩

/-- A map is filled from its own list. -/
theorem ofList_toList : ExtTreeMap.ofList t.toList cmp = t := by
  apply ExtTreeMap.ext_getElem?
  intro k
  ext v
  rw [getElem?_ofList_eq_some_iff ExtTreeMap.distinct_keys_toList,
    ExtTreeMap.mem_toList_iff_getElem?_eq_some]

/-- A map comes back from a changed list exactly if no pair changes, if changing a pair again has no
effect. -/
theorem ofList_map_toList_eq_iff {f : α → α} {g : β → β} (hf : ∀ k, f (f k) = f k)
    (hg : ∀ v, g (g v) = g v) :
    ExtTreeMap.ofList (t.toList.map (Prod.map f g)) cmp = t ↔
      ∀ pair ∈ t.toList, f pair.1 = pair.1 ∧ g pair.2 = pair.2 := by
  constructor
  · intro heq pair hmem
    have hget : t[pair.1]? = some pair.2 := ExtTreeMap.mem_toList_iff_getElem?_eq_some.mp hmem
    rw [← heq] at hget
    obtain ⟨old, -, hold⟩ := List.mem_map.mp (mem_of_getElem?_ofList hget)
    have hpair : pair = (f old.1, g old.2) := hold.symm
    rw [hpair]
    exact ⟨hf old.1, hg old.2⟩
  · intro hsame
    have hmap : t.toList.map (Prod.map f g) = t.toList := by
      calc t.toList.map (Prod.map f g) = t.toList.map id := by
            apply List.map_congr_left
            intro pair hmem
            exact Prod.ext (hsame pair hmem).1 (hsame pair hmem).2
        _ = t.toList := t.toList.map_id
    rw [hmap, ofList_toList]

end Demos.Lib
