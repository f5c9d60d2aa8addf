import Demos.Lib.Ownership

/-!
# Ledgers of objects

A ledger numbers objects in the order in which they are constructed. It knows the values of those
that are alive and lists the calls of destructors. The objects are owned by a family of holders if
every live object has one holder and every other object that was constructed has been destroyed
once. Constructing, destroying, handing over and overwriting an object keep it so.
-/

namespace Demos.Lib

/-- The live objects with their values, the number of the next object, and the destructions. -/
structure Ledger (V : Type*) where
  live : ℕ → Option V
  next : ℕ
  destroyed : List ℕ

namespace Ledger

variable {V N : Type*} {l : Ledger V} {held : N → Option (ℕ × V)} {n m : N} {obj : ℕ} {v w : V}

/-- Nothing has been constructed. -/
def empty : Ledger V where
  live _ := none
  next := 0
  destroyed := []

/-- Construct an object. -/
def create (l : Ledger V) (v : V) : Ledger V where
  live := Function.update l.live l.next (some v)
  next := l.next + 1
  destroyed := l.destroyed

/-- Call the destructor of an object. -/
def destroy (l : Ledger V) (obj : ℕ) : Ledger V where
  live := Function.update l.live obj none
  next := l.next
  destroyed := obj :: l.destroyed

/-- Overwrite an object. -/
def write (l : Ledger V) (obj : ℕ) (v : V) : Ledger V where
  live := Function.update l.live obj (some v)
  next := l.next
  destroyed := l.destroyed

/-- The live objects. -/
def alive (l : Ledger V) : Set ℕ := {obj | (l.live obj).isSome}

theorem alive_create (l : Ledger V) (v : V) : (l.create v).alive = insert l.next l.alive := by
  ext obj
  by_cases hobj : obj = l.next <;> simp [alive, create, hobj]

theorem alive_destroy (l : Ledger V) (obj : ℕ) : (l.destroy obj).alive = l.alive \ {obj} := by
  ext o
  by_cases ho : o = obj <;> simp [alive, destroy, ho]

/-- An overwritten object stays alive. -/
theorem alive_write (h : obj ∈ l.alive) (v : V) : (l.write obj v).alive = l.alive := by
  ext o
  by_cases ho : o = obj
  · subst ho
    exact iff_of_true (by simp [alive, write]) h
  · simp [alive, write, ho]

/-- The objects that the holders hold. -/
def objects (held : N → Option (ℕ × V)) (n : N) : Option ℕ := (held n).map Prod.fst

/-- Every live object has one holder, which knows its value, and every other object that was
constructed has been destroyed once. -/
structure Owned (l : Ledger V) (held : N → Option (ℕ × V)) : Prop where
  exact : Exact (objects held) l.alive
  value {n : N} {obj : ℕ} {v : V} : held n = some (obj, v) → l.live obj = some v
  lt_of_alive {obj : ℕ} : obj ∈ l.alive → obj < l.next
  lt_of_destroyed {obj : ℕ} : obj ∈ l.destroyed → obj < l.next
  alive_notMem {obj : ℕ} : obj ∈ l.alive → obj ∉ l.destroyed
  once {obj : ℕ} : obj < l.next → obj ∉ l.alive → l.destroyed.count obj = 1

/-- A ledger without objects is owned by nobody. -/
theorem owned_empty : (empty : Ledger V).Owned (fun _ : N => none) where
  exact := ⟨⟨by simp [objects], by simp [objects]⟩, by simp [alive, empty]⟩
  value := by simp
  lt_of_alive := by simp [alive, empty]
  lt_of_destroyed := by simp [empty]
  alive_notMem := by simp [empty]
  once := by simp [empty]

theorem Owned.mem_alive (h : l.Owned held) (hn : held n = some (obj, v)) : obj ∈ l.alive := by
  simp [alive, h.value hn]

theorem Owned.ne_of_ne (h : l.Owned held) {obj' : ℕ} {v' : V} (hne : m ≠ n)
    (hm : held m = some (obj, v)) (hn : held n = some (obj', v')) : obj ≠ obj' := by
  rintro rfl
  have hm' : objects held m = some obj := by simp [objects, hm]
  have hn' : objects held n = some obj := by simp [objects, hn]
  exact hne (h.exact.unique hm' hn')

variable [DecidableEq N]

/-- The objects after one holder got another one. -/
theorem objects_update (x : Option (ℕ × V)) :
    objects (Function.update held n x) = Function.update (objects held) n (x.map Prod.fst) := by
  funext k
  by_cases hk : k = n
  · subst hk
    simp [objects]
  · simp [objects, hk]

/-- The values of the objects after one holder got another one. -/
theorem value_update {x : Option (ℕ × V)} {live' : ℕ → Option V}
    (hn : ∀ obj v, x = some (obj, v) → live' obj = some v)
    (hother : ∀ k obj v, k ≠ n → held k = some (obj, v) → live' obj = some v) {k : N}
    (h : Function.update held n x k = some (obj, v)) : live' obj = some v := by
  by_cases hk : k = n
  · subst hk
    rw [Function.update_self] at h
    exact hn obj v h
  · rw [Function.update_of_ne hk] at h
    exact hother k obj v hk h

/-- A constructed object goes to a holder that held nothing. -/
theorem Owned.create (h : l.Owned held) (hn : held n = none) (v : V) :
    (l.create v).Owned (Function.update held n (some (l.next, v))) := by
  have hfresh : l.next ∉ l.alive := fun hlive => (h.lt_of_alive hlive).ne rfl
  refine ⟨?_, ?_, ?_, ?_, ?_, ?_⟩
  · rw [objects_update, alive_create]
    exact (h.exact.acquire_iff hfresh).mpr (by simp [objects, hn])
  · refine value_update ?_ ?_
    · rintro obj w hsome
      cases hsome
      simp [Ledger.create]
    · intro k obj w _ hk
      have hne : obj ≠ l.next := fun heq => hfresh (heq ▸ h.mem_alive hk)
      simp [Ledger.create, hne, h.value hk]
  · rw [alive_create]
    rintro obj (rfl | hobj)
    · exact Nat.lt_succ_self _
    · exact (h.lt_of_alive hobj).trans (Nat.lt_succ_self _)
  · intro obj hobj
    exact (h.lt_of_destroyed hobj).trans (Nat.lt_succ_self _)
  · rw [alive_create]
    rintro obj (rfl | hobj) hdestroyed
    · exact (h.lt_of_destroyed hdestroyed).ne rfl
    · exact h.alive_notMem hobj hdestroyed
  · intro obj hnext hobj
    rw [alive_create, Set.mem_insert_iff, not_or] at hobj
    exact h.once (Nat.lt_of_le_of_ne (Nat.le_of_lt_succ hnext) hobj.1) hobj.2

/-- A holder destroys what it holds. -/
theorem Owned.destroy (h : l.Owned held) (hn : held n = some (obj, v)) :
    (l.destroy obj).Owned (Function.update held n none) := by
  have hheld : heldBy (objects held) n = {obj} := by
    ext o
    simp [heldBy, objects, hn, eq_comm]
  refine ⟨?_, ?_, ?_, ?_, ?_, ?_⟩
  · rw [objects_update, alive_destroy, ← hheld]
    exact h.exact.release
  · refine value_update (by simp) ?_
    intro k o w hk hheld
    simp [Ledger.destroy, h.ne_of_ne hk hheld hn, h.value hheld]
  · rw [alive_destroy]
    intro o ho
    exact h.lt_of_alive ho.1
  · intro o ho
    obtain rfl | ho := List.mem_cons.mp ho
    · exact h.lt_of_alive (h.mem_alive hn)
    · exact h.lt_of_destroyed ho
  · rw [alive_destroy]
    intro o ho hdestroyed
    obtain rfl | hdestroyed := List.mem_cons.mp hdestroyed
    · exact ho.2 rfl
    · exact h.alive_notMem ho.1 hdestroyed
  · intro o hnext ho
    by_cases hobj : o = obj
    · subst hobj
      have hzero := List.count_eq_zero.mpr (h.alive_notMem (h.mem_alive hn))
      simp [Ledger.destroy, hzero]
    · have hdead : o ∉ l.alive := by
        rw [alive_destroy] at ho
        exact fun hlive => ho ⟨hlive, hobj⟩
      simp [Ledger.destroy, Ne.symm hobj, h.once hnext hdead]

/-- A holder hands over what it holds to one that holds nothing. -/
theorem Owned.transfer (h : l.Owned held) (hm : held m = none) (hne : m ≠ n) :
    l.Owned (Function.update (Function.update held m (held n)) n none) where
  exact := by
    rw [objects_update, objects_update]
    exact h.exact.transfer (by simp [objects, hm]) hne
  value := by
    refine value_update (by simp) ?_
    intro k obj v _ hk
    refine value_update ?_ ?_ hk
    · exact fun _ _ => h.value
    · exact fun _ _ _ _ => h.value
  lt_of_alive := h.lt_of_alive
  lt_of_destroyed := h.lt_of_destroyed
  alive_notMem := h.alive_notMem
  once := h.once

/-- A holder overwrites what it holds. -/
theorem Owned.write (h : l.Owned held) (hn : held n = some (obj, v)) (w : V) :
    (l.write obj w).Owned (Function.update held n (some (obj, w))) := by
  have halive : (l.write obj w).alive = l.alive := alive_write (h.mem_alive hn) w
  have hobjects : objects (Function.update held n (some (obj, w))) = objects held := by
    rw [objects_update, Function.update_eq_self_iff]
    simp [objects, hn]
  refine ⟨?_, ?_, ?_, ?_, ?_, ?_⟩
  · rw [hobjects, halive]
    exact h.exact
  · refine value_update ?_ ?_
    · rintro o x hsome
      cases hsome
      simp [Ledger.write]
    · intro k o x hk hheld
      simp [Ledger.write, h.ne_of_ne hk hheld hn, h.value hheld]
  · rw [halive]
    exact fun ho => h.lt_of_alive ho
  · exact fun ho => h.lt_of_destroyed ho
  · rw [halive]
    exact fun ho => h.alive_notMem ho
  · rw [halive]
    exact fun hnext ho => h.once hnext ho

end Ledger

end Demos.Lib
