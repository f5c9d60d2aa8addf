import Mathlib.Data.Set.Card

/-!
# Counting the holders of a resource

A holder has at most one resource at a time. A table counts how often each resource is held: taking
a resource adds one to its count, giving it back takes one away, and two holders that exchange what
they have leave every count as it is.
-/

namespace Demos.Lib

variable {N R : Type*} {held : N → Option R} {count : R → ℕ} {n : N} {r : R}

/-- Those who hold a resource. -/
def holders (held : N → Option R) (r : R) : Set N := {n | held n = some r}

/-- Every resource has as many holders as the table says. -/
def Counted (held : N → Option R) (count : R → ℕ) : Prop :=
  ∀ r, (holders held r).encard = count r

/-- A resource that is held is counted. -/
theorem Counted.pos (h : Counted held count) (hn : held n = some r) : 0 < count r := by
  have hne : (holders held r).Nonempty := ⟨n, hn⟩
  rw [← Set.encard_pos, h r] at hne
  exact_mod_cast hne

/-- Exchanging what the holders have keeps every count. -/
theorem Counted.comp_equiv (h : Counted held count) (e : N ≃ N) : Counted (held ∘ e) count := by
  intro r
  have himage : holders (held ∘ e) r = e.symm '' holders held r := by
    rw [Equiv.image_symm_eq_preimage]
    rfl
  rw [himage, e.symm.injective.encard_image, h r]

section Update

variable [DecidableEq N]

/-- The holders of another resource do not change. -/
theorem holders_update_of_ne {x : Option R} (hold : held n ≠ some r) (hnew : x ≠ some r) :
    holders (Function.update held n x) r = holders held r := by
  ext m
  by_cases hm : m = n
  · subst hm
    simp [holders, hold, hnew]
  · simp [holders, hm]

/-- A holder that had nothing takes a resource. -/
theorem Counted.acquire [DecidableEq R] (h : Counted held count) (hn : held n = none) (r : R) :
    Counted (Function.update held n (some r)) (Function.update count r (count r + 1)) := by
  intro q
  by_cases hq : q = r
  · subst hq
    have hinsert : holders (Function.update held n (some q)) q = insert n (holders held q) := by
      ext m
      by_cases hm : m = n
      · simp [holders, hm]
      · simp [holders, hm]
    have hfresh : n ∉ holders held q := by simp [holders, hn]
    rw [hinsert, Set.encard_insert_of_notMem hfresh, h q, Function.update_self]
    rfl
  · have hnew : some r ≠ some q := fun heq => hq (Option.some.inj heq).symm
    rw [holders_update_of_ne (by simp [hn]) hnew, h q, Function.update_of_ne hq]

/-- A holder gives back what it has. -/
theorem Counted.release [DecidableEq R] (h : Counted held count) (hn : held n = some r) :
    Counted (Function.update held n none) (Function.update count r (count r - 1)) := by
  intro q
  by_cases hq : q = r
  · subst hq
    have hdiff : holders (Function.update held n none) q = holders held q \ {n} := by
      ext m
      by_cases hm : m = n
      · simp [holders, hm]
      · simp [holders, hm]
    have hmem : n ∈ holders held q := hn
    rw [hdiff, Set.encard_sdiff_singleton_of_mem hmem, h q, Function.update_self]
    simp
  · have hold : held n ≠ some q := by
      rw [hn]
      exact fun heq => hq (Option.some.inj heq).symm
    rw [holders_update_of_ne hold (by simp), h q, Function.update_of_ne hq]

/-- The holders that exchange what they have. -/
theorem comp_swap_eq_update {X : Type*} (f : N → X) (m n : N) :
    f ∘ Equiv.swap m n = Function.update (Function.update f n (f m)) m (f n) := by
  funext k
  by_cases hm : k = m
  · simp [hm]
  · by_cases hn : k = n
    · subst hn
      simp [hm]
    · simp [hm, hn, Equiv.swap_apply_of_ne_of_ne hm hn]

end Update

end Demos.Lib
