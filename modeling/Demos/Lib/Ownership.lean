import Mathlib.Data.Set.Insert
import Mathlib.Logic.Function.Basic

/-!
# Exclusive ownership

Names hold at most one resource each, out of a set of live resources. Ownership is exclusive when
every held resource is live and has a single holder, and exact when in addition no live resource
is without a holder. The changes of ownership that a program makes all keep it exclusive; each
comes with the condition under which it also keeps it exact. Replacing what a name holds behind
the back of the live set keeps exactness only if nothing is replaced.
-/

namespace Demos.Lib

variable {N R : Type*} {holds : N → Option R} {live : Set R}

/-- Every held resource is live and has a single holder. -/
structure Exclusive (holds : N → Option R) (live : Set R) : Prop where
  mem_live {n : N} {r : R} : holds n = some r → r ∈ live
  unique {n m : N} {r : R} : holds n = some r → holds m = some r → n = m

/-- Ownership is exclusive and every live resource has a holder. -/
structure Exact (holds : N → Option R) (live : Set R) : Prop extends Exclusive holds live where
  complete {r : R} : r ∈ live → ∃ n, holds n = some r

/-- What a name holds, as a set. -/
def heldBy (holds : N → Option R) (n : N) : Set R := {r | holds n = some r}

variable [DecidableEq N] {n m : N} {r : R}

/-- A name that holds what an update gave it is the updated one, or held it before. -/
theorem update_eq_some_iff {x : Option R} :
    Function.update holds n x m = some r ↔ m = n ∧ x = some r ∨ m ≠ n ∧ holds m = some r := by
  by_cases hm : m = n
  · subst hm
    simp
  · simp [hm]

/-- A name may forget what it holds. -/
theorem Exclusive.forget (h : Exclusive holds live) :
    Exclusive (Function.update holds n none) live where
  mem_live hr := by
    obtain ⟨-, hnone⟩ | ⟨-, hr⟩ := update_eq_some_iff.mp hr
    · simp at hnone
    · exact h.mem_live hr
  unique hr hr' := by
    obtain ⟨-, hnone⟩ | ⟨-, hr⟩ := update_eq_some_iff.mp hr
    · simp at hnone
    obtain ⟨-, hnone⟩ | ⟨-, hr'⟩ := update_eq_some_iff.mp hr'
    · simp at hnone
    exact h.unique hr hr'

/-- Releasing what a name holds keeps the ownership of the rest exclusive. -/
theorem Exclusive.release (h : Exclusive holds live) :
    Exclusive (Function.update holds n none) (live \ heldBy holds n) where
  mem_live {m r} hr := by
    have hlive := h.forget.mem_live hr
    obtain ⟨-, hnone⟩ | ⟨hm, hr⟩ := update_eq_some_iff.mp hr
    · simp at hnone
    · exact ⟨hlive, fun hheld => hm (h.unique hr hheld)⟩
  unique := h.forget.unique

/-- Acquiring a resource that was not live keeps ownership exclusive. -/
theorem Exclusive.acquire (h : Exclusive holds live) (hfresh : r ∉ live) :
    Exclusive (Function.update holds n (some r)) (insert r live) where
  mem_live {m q} hq := by
    obtain ⟨-, hsome⟩ | ⟨-, hq⟩ := update_eq_some_iff.mp hq
    · exact .inl (Option.some.inj hsome).symm
    · exact .inr (h.mem_live hq)
  unique {m m' q} hq hq' := by
    obtain ⟨hm, hsome⟩ | ⟨-, hq⟩ := update_eq_some_iff.mp hq <;>
      obtain ⟨hm', hsome'⟩ | ⟨-, hq'⟩ := update_eq_some_iff.mp hq'
    · exact hm.trans hm'.symm
    · exact absurd (h.mem_live hq') (Option.some.inj hsome ▸ hfresh)
    · exact absurd (h.mem_live hq) (Option.some.inj hsome' ▸ hfresh)
    · exact h.unique hq hq'

/-- Handing a resource over to another name keeps ownership exclusive. -/
theorem Exclusive.transfer (h : Exclusive holds live) :
    Exclusive (Function.update (Function.update holds m (holds n)) n none) live := by
  have hback : ∀ k r, Function.update (Function.update holds m (holds n)) n none k = some r →
      k = m ∧ holds n = some r ∨ k ≠ n ∧ holds k = some r := by
    intro k r hk
    obtain ⟨-, hnone⟩ | ⟨hkn, hk⟩ := update_eq_some_iff.mp hk
    · simp at hnone
    obtain ⟨hkm, hr⟩ | ⟨-, hr⟩ := update_eq_some_iff.mp hk
    · exact .inl ⟨hkm, hr⟩
    · exact .inr ⟨hkn, hr⟩
  constructor
  · intro k r hk
    obtain ⟨-, hr⟩ | ⟨-, hr⟩ := hback k r hk
    · exact h.mem_live hr
    · exact h.mem_live hr
  · intro k k' r hk hk'
    obtain ⟨hkm, hr⟩ | ⟨hkn, hr⟩ := hback k r hk <;>
      obtain ⟨hkm', hr'⟩ | ⟨hkn', hr'⟩ := hback k' r hk'
    · exact hkm.trans hkm'.symm
    · exact absurd (h.unique hr' hr) hkn'
    · exact absurd (h.unique hr hr') hkn
    · exact h.unique hr hr'

/-- Releasing what a name holds keeps ownership exact. -/
theorem Exact.release (h : Exact holds live) :
    Exact (Function.update holds n none) (live \ heldBy holds n) where
  toExclusive := h.toExclusive.release
  complete {r} hr := by
    obtain ⟨m, hm⟩ := h.complete hr.1
    have hne : m ≠ n := by
      rintro rfl
      exact hr.2 hm
    exact ⟨m, by rw [Function.update_of_ne hne, hm]⟩

/-- Handing a resource over to a name that holds nothing keeps ownership exact. -/
theorem Exact.transfer (h : Exact holds live) (hm : holds m = none) (hne : m ≠ n) :
    Exact (Function.update (Function.update holds m (holds n)) n none) live where
  toExclusive := h.toExclusive.transfer
  complete {r} hr := by
    obtain ⟨k, hk⟩ := h.complete hr
    by_cases hkn : k = n
    · subst hkn
      exact ⟨m, by rw [Function.update_of_ne hne, Function.update_self, hk]⟩
    · have hkm : k ≠ m := by
        rintro rfl
        simp [hm] at hk
      exact ⟨k, by rw [Function.update_of_ne hkn, Function.update_of_ne hkm, hk]⟩

/-- Acquiring a fresh resource keeps ownership exact for a name that held nothing, and only then. -/
theorem Exact.acquire_iff (h : Exact holds live) (hfresh : r ∉ live) :
    Exact (Function.update holds n (some r)) (insert r live) ↔ holds n = none := by
  constructor
  · intro hexact
    by_contra hsome
    obtain ⟨q, hq⟩ := Option.ne_none_iff_exists'.mp hsome
    have hlive := h.mem_live hq
    obtain ⟨m, hm⟩ := hexact.complete (.inr hlive)
    obtain ⟨-, hr⟩ | ⟨hmn, hm⟩ := update_eq_some_iff.mp hm
    · exact hfresh (Option.some.inj hr ▸ hlive)
    · exact hmn (h.unique hm hq)
  · intro hnone
    refine ⟨h.toExclusive.acquire hfresh, fun {q} hq => ?_⟩
    obtain rfl | hq := hq
    · exact ⟨n, Function.update_self ..⟩
    · obtain ⟨m, hm⟩ := h.complete hq
      have hne : m ≠ n := by
        rintro rfl
        simp [hnone] at hm
      exact ⟨m, by rw [Function.update_of_ne hne, hm]⟩

/-- Replacing what a name holds keeps ownership exact only if nothing changes. -/
theorem Exact.update_iff (h : Exact holds live) {x : Option R} :
    Exact (Function.update holds n x) live ↔ x = holds n := by
  constructor
  · intro hexact
    cases hn : holds n with
    | some r =>
      obtain ⟨m, hm⟩ := hexact.complete (h.mem_live hn)
      obtain ⟨-, hx⟩ | ⟨hmn, hm⟩ := update_eq_some_iff.mp hm
      · exact hx
      · exact absurd (h.unique hm hn) hmn
    | none =>
      cases x with
      | none => rfl
      | some q =>
        have hq : Function.update holds n (some q) n = some q := Function.update_self ..
        obtain ⟨m, hm⟩ := h.complete (hexact.mem_live hq)
        have hmn : m ≠ n := by
          rintro rfl
          simp [hn] at hm
        exact absurd (hexact.unique (by rw [Function.update_of_ne hmn, hm]) hq) hmn
  · rintro rfl
    rwa [Function.update_eq_self]

/-- The changes of ownership, each with the condition under which it keeps ownership exact. -/
inductive OwnershipChange (holds : N → Option R) (live : Set R) :
    Prop → (N → Option R) → Set R → Prop
  | keep : OwnershipChange holds live True holds live
  | forget (n : N) :
      OwnershipChange holds live (holds n = none) (Function.update holds n none) live
  | acquire (n : N) {r : R} (hfresh : r ∉ live) :
      OwnershipChange holds live (holds n = none) (Function.update holds n (some r)) (insert r live)
  | release (n : N) :
      OwnershipChange holds live True (Function.update holds n none) (live \ heldBy holds n)
  | exchange (n : N) {r : R} (hfresh : r ∉ live \ heldBy holds n) :
      OwnershipChange holds live True
        (Function.update (Function.update holds n none) n (some r))
        (insert r (live \ heldBy holds n))
  | takeOver (m n : N) :
      OwnershipChange holds live True
        (Function.update
          (Function.update (Function.update holds m none) m (Function.update holds m none n))
          n none)
        (live \ heldBy holds m)

/-- Every change keeps ownership exclusive. -/
theorem OwnershipChange.exclusive {safe : Prop} {holds' : N → Option R} {live' : Set R}
    (h : OwnershipChange holds live safe holds' live') (hexclusive : Exclusive holds live) :
    Exclusive holds' live' := by
  cases h with
  | keep => exact hexclusive
  | forget n => exact hexclusive.forget
  | acquire n hfresh => exact hexclusive.acquire hfresh
  | release n => exact hexclusive.release
  | exchange n hfresh => exact hexclusive.release.acquire hfresh
  | takeOver m n => exact hexclusive.release.transfer

/-- A change keeps ownership exact exactly under its condition. -/
theorem OwnershipChange.exact_iff {safe : Prop} {holds' : N → Option R} {live' : Set R}
    (h : OwnershipChange holds live safe holds' live') (hexact : Exact holds live) :
    Exact holds' live' ↔ safe := by
  cases h with
  | keep => exact iff_of_true hexact trivial
  | forget n => exact hexact.update_iff.trans eq_comm
  | acquire n hfresh => exact hexact.acquire_iff hfresh
  | release n => exact iff_of_true hexact.release trivial
  | exchange n hfresh =>
    exact iff_of_true ((hexact.release.acquire_iff hfresh).mpr (Function.update_self ..)) trivial
  | takeOver m n =>
    refine iff_of_true ?_ trivial
    by_cases hne : m = n
    · subst hne
      simpa using hexact.release
    · exact hexact.release.transfer (Function.update_self ..) hne

end Demos.Lib
