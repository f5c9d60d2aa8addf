import Mathlib.Data.Nat.ModEq
import Mathlib.Order.Interval.Finset.Nat
import Mathlib.Logic.Function.Basic

/-!
# Tickets drawn from a ring

Holders draw consecutive tickets `tail, tail + 1, …, head - 1` and remember only the ticket
modulo the ring size. As long as fewer than `n` tickets are outstanding the remainder still
identifies the ticket. Drawing the next ticket and returning the oldest one keep the
assignment of holders to tickets one to one, for any type of holders.
-/

namespace Demos.Lib

variable {Holder : Type*}

/-- Tickets within one turn of the ring are determined by their remainder. -/
theorem eq_of_mod_eq {n a i j : ℕ} (hi : a ≤ i) (hi' : i < a + n) (hj : a ≤ j) (hj' : j < a + n)
    (h : i % n = j % n) : i = j :=
  Nat.mod_injOn_Ico a n (by simp [hi, hi']) (by simp [hj, hj']) h

/-- The holders of the outstanding tickets `tail ≤ k < head`, known by `k % n`. -/
structure TicketWindow (n tail head : ℕ) (slot : Holder → Option ℕ) : Prop where
  covered : ∀ t i, slot t = some i → ∃ k, tail ≤ k ∧ k < head ∧ i = k % n
  unique : ∀ t u i, slot t = some i → slot u = some i → t = u
  owned : ∀ k, tail ≤ k → k < head → ∃ t, slot t = some (k % n)

namespace TicketWindow

variable {n tail head : ℕ} {slot : Holder → Option ℕ}

/-- Nobody holds a ticket of an empty window. -/
theorem empty (n k : ℕ) : TicketWindow n k k (fun _ : Holder => none) where
  covered := by simp
  unique := by simp
  owned := by intro i hi hi'; omega

/-- When nobody holds a ticket, none is outstanding. -/
theorem head_le_tail (h : TicketWindow n tail head slot) (hidle : ∀ t, slot t = none) :
    head ≤ tail := by
  by_contra hlt
  obtain ⟨t, ht⟩ := h.owned tail le_rfl (by omega)
  simp [hidle t] at ht

/-- The holder of the oldest ticket is recognised by the remainder of `tail`. -/
theorem ticket_eq_tail (h : TicketWindow n tail head slot) (hroom : head ≤ tail + n) {t : Holder}
    (ht : slot t = some (tail % n)) {k : ℕ} (hk : tail ≤ k) (hk' : k < head)
    (hslot : slot t = some (k % n)) : k = tail := by
  have hmod : k % n = tail % n := by simpa [hslot] using ht
  obtain ⟨_, hlow, hhigh, _⟩ := h.covered t _ ht
  exact eq_of_mod_eq hk (by omega) le_rfl (by omega) hmod

variable [DecidableEq Holder]

/-- Drawing the next ticket while the ring has room for it. -/
theorem acquire (h : TicketWindow n tail head slot) (horder : tail ≤ head)
    (hroom : head < tail + n) {t : Holder} (ht : slot t = none) :
    TicketWindow n tail (head + 1) (Function.update slot t (some (head % n))) where
  covered := by
    intro u i hu
    by_cases hut : u = t
    · subst hut
      simp only [Function.update_self, Option.some.injEq] at hu
      exact ⟨head, horder, by omega, hu.symm⟩
    · rw [Function.update_of_ne hut] at hu
      obtain ⟨k, hk, hk', rfl⟩ := h.covered u i hu
      exact ⟨k, hk, by omega, rfl⟩
  unique := by
    have hfresh : ∀ u, slot u ≠ some (head % n) := by
      intro u hu
      obtain ⟨k, hk, hk', hmod⟩ := h.covered u _ hu
      have := eq_of_mod_eq (n := n) (a := tail) horder hroom hk (by omega) hmod
      omega
    intro u v i hu hv
    by_cases hut : u = t <;> by_cases hvt : v = t
    · rw [hut, hvt]
    · subst hut
      rw [Function.update_self] at hu
      rw [Function.update_of_ne hvt] at hv
      exact absurd (hv.trans hu.symm) (hfresh v)
    · subst hvt
      rw [Function.update_self] at hv
      rw [Function.update_of_ne hut] at hu
      exact absurd (hu.trans hv.symm) (hfresh u)
    · rw [Function.update_of_ne hut] at hu
      rw [Function.update_of_ne hvt] at hv
      exact h.unique u v i hu hv
  owned := by
    intro k hk hk'
    by_cases hlast : k = head
    · exact ⟨t, by rw [Function.update_self, hlast]⟩
    · obtain ⟨u, hu⟩ := h.owned k hk (by omega)
      have hut : u ≠ t := by
        rintro rfl
        simp [ht] at hu
      exact ⟨u, by rw [Function.update_of_ne hut, hu]⟩

/-- Returning the oldest ticket. -/
theorem release (h : TicketWindow n tail head slot) (hroom : head ≤ tail + n) {t : Holder}
    (ht : slot t = some (tail % n)) :
    TicketWindow n (tail + 1) head (Function.update slot t none) where
  covered := by
    intro u i hu
    by_cases hut : u = t
    · subst hut
      simp at hu
    · rw [Function.update_of_ne hut] at hu
      obtain ⟨k, hk, hk', rfl⟩ := h.covered u i hu
      have hne : k ≠ tail := by
        rintro rfl
        exact hut (h.unique u t _ hu ht)
      exact ⟨k, by omega, hk', rfl⟩
  unique := by
    intro u v i hu hv
    by_cases hut : u = t
    · subst hut
      simp at hu
    · by_cases hvt : v = t
      · subst hvt
        simp at hv
      · rw [Function.update_of_ne hut] at hu
        rw [Function.update_of_ne hvt] at hv
        exact h.unique u v i hu hv
  owned := by
    intro k hk hk'
    obtain ⟨u, hu⟩ := h.owned k (by omega) hk'
    have hut : u ≠ t := by
      rintro rfl
      have := h.ticket_eq_tail hroom ht (by omega : tail ≤ k) hk' hu
      omega
    exact ⟨u, by rw [Function.update_of_ne hut, hu]⟩

end TicketWindow

end Demos.Lib
