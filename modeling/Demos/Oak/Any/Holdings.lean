import Demos.Oak.Any.Model

/-!
# What `Any` objects hold

Every `Any` that exists holds nothing or one object, which is alive, has the type of the operator
and is held by no other `Any`; every object that is not held any more has been destroyed once. This
is kept when an object is constructed in an `Any`, destroyed, handed over or overwritten.
-/

namespace Demos.Oak

open Demos.Lib

variable {Name Ty : Type} {Val : Ty → Type}

/-- The objects that exist, with the values they hold. -/
abbrev AnyContents (Name : Type) {Ty : Type} (Val : Ty → Type) :=
  Cell Name → Option (Option (Contained Val))

/-- The objects that exist, with the contained objects they hold. -/
abbrev AnyHoldings (Name : Type) {Ty : Type} (Val : Ty → Type) :=
  Cell Name → Option (Option (ℕ × Contained Val))

/-- What is held, as values. -/
def AnyHoldings.contents (a : AnyHoldings Name Val) : AnyContents Name Val :=
  fun c => (a c).map (Option.map Prod.snd)

/-- What an `Any` is when it is absent, empty, or holds an object. -/
inductive Shows (small : Ty → Bool) :
    Option (AnyObject Ty) → Option (Option (ℕ × Contained Val)) → Prop
  | absent : Shows small none none
  | empty (storage : Storage) : Shows small (some ⟨none, storage⟩) (some none)
  | holding (obj : ℕ) (value : Contained Val) :
      Shows small (some ⟨some value.1, .holding (small value.1) obj⟩) (some (some (obj, value)))

namespace Memory

/-- The objects of the memory hold this, and own all contained objects. -/
structure Rep (small : Ty → Bool) (m : Memory Name Val) (a : AnyHoldings Name Val) : Prop where
  shows : ∀ c, Shows small (m.anys c) (a c)
  owned : m.ledger.Owned fun c => (a c).join

variable {small : Ty → Bool} {m m' : Memory Name Val} {a : AnyHoldings Name Val} {c d : Cell Name}
  {any : AnyObject Ty} {obj : ℕ} {value : Contained Val} {storage : Storage} {op : Option Ty}

namespace Rep

/-- The `Any` that holds an object. -/
theorem anys_eq (h : m.Rep small a) (hc : a c = some (some (obj, value))) :
    m.anys c = some ⟨some value.1, .holding (small value.1) obj⟩ := by
  have hshows := h.shows c
  rw [hc] at hshows
  generalize m.anys c = x at hshows
  cases hshows
  rfl

/-- The `Any` that holds nothing. -/
theorem exists_anys_eq (h : m.Rep small a) (hc : a c = some none) :
    ∃ storage, m.anys c = some ⟨none, storage⟩ := by
  have hshows := h.shows c
  rw [hc] at hshows
  generalize m.anys c = x at hshows
  cases hshows with
  | empty storage => exact ⟨storage, rfl⟩

/-- The `Any` that does not exist. -/
theorem anys_eq_none_iff (h : m.Rep small a) : m.anys c = none ↔ a c = none := by
  have hshows := h.shows c
  generalize m.anys c = x at hshows ⊢
  generalize a c = y at hshows ⊢
  cases hshows <;> simp

/-- An operator stands for the type of the object. -/
theorem operator_eq (h : m.Rep small a) (c : Cell Name) :
    m.operator c = (a c).join.map fun held => held.2.1 := by
  have hshows := h.shows c
  rw [operator]
  generalize m.anys c = x at hshows ⊢
  generalize a c = y at hshows ⊢
  cases hshows <;> rfl

/-- There is a value exactly if an object is held. -/
theorem hasValue_eq (h : m.Rep small a) (c : Cell Name) : m.hasValue c = (a c).join.isSome := by
  rw [hasValue, h.operator_eq, Option.isSome_map]

/-- An operator finds the object that its `Any` holds. -/
theorem target_eq [DecidableEq Ty] (h : m.Rep small a) (c : Cell Name) :
    m.target small c = (a c).join := by
  cases hc : a c with
  | none => simp [target, h.anys_eq_none_iff.mpr hc]
  | some x =>
    cases x with
    | none =>
      obtain ⟨storage, hany⟩ := h.exists_anys_eq hc
      simp [target, hany]
    | some held =>
      obtain ⟨obj, value⟩ := held
      have hheld : (fun d => (a d).join) c = some (obj, value) := by simp [hc]
      have hlive := h.owned.value hheld
      simp [target, h.anys_eq hc, hlive]

end Rep

section Contents

theorem contents_eq_none_iff : a.contents c = none ↔ a c = none := by
  simp [AnyHoldings.contents]

theorem contents_eq_empty_iff : a.contents c = some none ↔ a c = some none := by
  simp [AnyHoldings.contents]

theorem contents_eq_value_iff :
    a.contents c = some (some value) ↔ ∃ obj, a c = some (some (obj, value)) := by
  simp [AnyHoldings.contents]

end Contents

variable [DecidableEq Name]

section Cells

theorem setOperator_eq (h : m.anys c = some any) :
    m.setOperator c op = m.put c { any with operator := op } := by
  simp [setOperator, put, h]

theorem setStorage_eq (h : m.anys c = some any) :
    m.setStorage c storage = m.put c { any with storage := storage } := by
  simp [setStorage, put, h]

@[simp]
theorem anys_put_self : (m.put c any).anys c = some any := by
  simp [put]

theorem anys_put_of_ne (h : d ≠ c) : (m.put c any).anys d = m.anys d := by
  simp [put, h]

theorem put_self (h : m.anys c = some any) : m.put c any = m := by
  rw [put, Function.update_eq_self_iff.mpr h.symm]

@[simp]
theorem put_put {any' : AnyObject Ty} : (m.put c any).put c any' = m.put c any' := by
  simp [put]

@[simp]
theorem discard_put : (m.put c any).discard c = m.discard c := by
  simp [put, discard]

theorem operator_put_of_ne (h : d ≠ c) : (m.put c any).operator d = m.operator d := by
  rw [operator, anys_put_of_ne h, operator]

theorem setOperator_put :
    (m.put c any).setOperator c op = m.put c { any with operator := op } := by
  rw [setOperator_eq anys_put_self, put_put]

end Cells

namespace Rep

/-- What one `Any` shows is changed with what it holds. -/
theorem shows_update (h : m.Rep small a) {x : Option (AnyObject Ty)}
    {y : Option (Option (ℕ × Contained Val))} (hxy : Shows small x y) (d : Cell Name) :
    Shows small (Function.update m.anys c x d) (Function.update a c y d) := by
  by_cases hd : d = c
  · subst hd
    simpa using hxy
  · simpa [hd] using h.shows d

/-- The holders after one of them changed. -/
theorem join_update (a : AnyHoldings Name Val) (y : Option (Option (ℕ × Contained Val))) :
    (fun d => (Function.update a c y d).join) = Function.update (fun d => (a d).join) c y.join := by
  funext d
  by_cases hd : d = c
  · subst hd
    simp
  · simp [hd]

/-- An `Any` that holds nothing may be made empty. -/
theorem put_empty (h : m.Rep small a) (hc : (a c).join = none) (storage : Storage) :
    (m.put c ⟨none, storage⟩).Rep small (Function.update a c (some none)) where
  shows := h.shows_update (.empty storage)
  owned := by
    rw [join_update, Function.update_eq_self_iff.mpr hc.symm]
    exact h.owned

/-- An `Any` that holds nothing may go. -/
theorem discard (h : m.Rep small a) (hc : (a c).join = none) :
    (m.discard c).Rep small (Function.update a c none) where
  shows := h.shows_update .absent
  owned := by
    rw [join_update, Function.update_eq_self_iff.mpr hc.symm]
    exact h.owned

/-- A new object is constructed in an `Any` that held nothing. -/
theorem create (h : m.Rep small a) (hc : (a c).join = none) (value : Contained Val) :
    ({ m with ledger := m.ledger.create value }.put c
      ⟨some value.1, .holding (small value.1) m.ledger.next⟩).Rep small
        (Function.update a c (some (some (m.ledger.next, value)))) where
  shows := h.shows_update (.holding m.ledger.next value)
  owned := by
    rw [join_update]
    exact h.owned.create hc value

/-- The object of an `Any` is destroyed. -/
theorem destroy (h : m.Rep small a) (hc : a c = some (some (obj, value))) (storage : Storage) :
    ({ m with ledger := m.ledger.destroy obj }.put c ⟨none, storage⟩).Rep small
      (Function.update a c (some none)) where
  shows := h.shows_update (.empty storage)
  owned := by
    have hheld : (fun d => (a d).join) c = some (obj, value) := by simp [hc]
    rw [join_update]
    exact h.owned.destroy hheld

/-- The object of an `Any` is handed over to one that held nothing. -/
theorem transfer (h : m.Rep small a) (hc : (a c).join = none) (hne : c ≠ d)
    (hd : a d = some (some (obj, value))) (storage : Storage) :
    ((m.put c ⟨some value.1, .holding (small value.1) obj⟩).put d ⟨none, storage⟩).Rep small
      (Function.update (Function.update a c (a d)) d (some none)) where
  shows k := by
    by_cases hk : k = d
    · subst hk
      simpa using .empty storage
    · rw [anys_put_of_ne hk, Function.update_of_ne hk, hd]
      exact h.shows_update (.holding obj value) k
  owned := by
    rw [join_update, join_update]
    exact h.owned.transfer hc hne

/-- The object of an `Any` is overwritten by one of its type. -/
theorem write (h : m.Rep small a) (hc : a c = some (some (obj, value)))
    {value' : Contained Val} (htype : value'.1 = value.1) :
    ({ m with ledger := m.ledger.write obj value' } : Memory Name Val).Rep small
      (Function.update a c (some (some (obj, value')))) where
  shows k := by
    by_cases hk : k = c
    · subst hk
      have hany := h.anys_eq hc
      rw [← htype] at hany
      change Shows small (m.anys k) _
      rw [hany, Function.update_self]
      exact .holding obj value'
    · rw [Function.update_of_ne hk]
      exact h.shows k
  owned := by
    have hheld : (fun d => (a d).join) c = some (obj, value) := by simp [hc]
    rw [join_update]
    exact h.owned.write hheld value'

end Rep

/-- The values after one `Any` changed. -/
theorem contents_update (a : AnyHoldings Name Val) (y : Option (Option (ℕ × Contained Val))) :
    AnyHoldings.contents (Function.update a c y) =
      Function.update a.contents c (y.map (Option.map Prod.snd)) := by
  funext d
  by_cases hd : d = c
  · subst hd
    simp [AnyHoldings.contents]
  · simp [AnyHoldings.contents, hd]

end Memory

end Demos.Oak
