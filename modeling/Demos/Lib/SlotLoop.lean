import Mathlib.Data.List.Basic
import Mathlib.Logic.Function.Basic

/-!
# Loops that fill slots

A loop over keys whose body may fail and, for its key, writes one slot of a state. The slot of a
key that occurs holds what the body computes for that key, the slot of any other key holds its
initial value, and the loop returns as soon as every body does. A loop over indices that cannot fail
changes the slots below its bound.
-/

namespace Demos.Lib

variable {ε S K A : Type} {body : S → K → Except ε S} {keys : List K} {s s' : S}

/-- A sequence of two fallible calls returns exactly when both return. -/
theorem bind_eq_ok_iff {B C : Type} {call : Except ε B} {next : B → Except ε C} {c : C} :
    (call >>= next) = .ok c ↔ ∃ b, call = .ok b ∧ next b = .ok c := by
  cases call with
  | error | ok => simp [bind, Except.bind]

/-- A call whose result is converted returns exactly when the call does. -/
theorem map_eq_ok_iff {B C : Type} {call : Except ε B} {f : B → C} {c : C} :
    call.map f = .ok c ↔ ∃ b, call = .ok b ∧ f b = c := by
  cases call with
  | error | ok => simp [Except.map]

/-- What every body keeps, the loop keeps. -/
theorem foldlM_keeps (slot : S → A)
    (hbody : ∀ k ∈ keys, ∀ s s', body s k = .ok s' → slot s' = slot s)
    (h : keys.foldlM body s = .ok s') : slot s' = slot s := by
  induction keys generalizing s with
  | nil =>
    cases h
    rfl
  | cons k rest ih =>
    rw [List.foldlM_cons, bind_eq_ok_iff] at h
    obtain ⟨next, hnext, hrest⟩ := h
    have hfirst := hbody k (by simp) s next hnext
    have hlater := ih (fun k' hk' => hbody k' (by simp [hk'])) hrest
    rw [hlater, hfirst]

/-- The slot of a key that occurs holds what the body computes for it. -/
theorem foldlM_slot (slot : S → A) {key : K} {read : Except ε A}
    (hread : ∀ s s', body s key = .ok s' → read = .ok (slot s'))
    (hkeep : ∀ k ∈ keys, k ≠ key → ∀ s s', body s k = .ok s' → slot s' = slot s)
    (hmem : key ∈ keys) (h : keys.foldlM body s = .ok s') : read = .ok (slot s') := by
  induction keys generalizing s with
  | nil => simp at hmem
  | cons k rest ih =>
    rw [List.foldlM_cons, bind_eq_ok_iff] at h
    obtain ⟨next, hnext, hrest⟩ := h
    have hkeep' : ∀ k' ∈ rest, k' ≠ key → ∀ s s', body s k' = .ok s' → slot s' = slot s :=
      fun k' hk' => hkeep k' (by simp [hk'])
    by_cases hlater : key ∈ rest
    · exact ih hkeep' hlater hrest
    · obtain rfl : key = k := by simpa [hlater] using hmem
      have hsame : slot s' = slot next :=
        foldlM_keeps slot (fun k' hk' => hkeep' k' hk' fun heq => hlater (heq ▸ hk')) hrest
      rw [hsame]
      exact hread s next hnext

/-- A loop that returns has run the body of each key in some state, and the rest from there on. -/
theorem foldlM_append_cons_eq_ok {before after : List K} {key : K}
    (h : (before ++ key :: after).foldlM body s = .ok s') :
    ∃ t t', body t key = .ok t' ∧ after.foldlM body t' = .ok s' := by
  rw [List.foldlM_append, bind_eq_ok_iff] at h
  obtain ⟨t, -, hrest⟩ := h
  rw [List.foldlM_cons, bind_eq_ok_iff] at hrest
  obtain ⟨t', ht', hafter⟩ := hrest
  exact ⟨t, t', ht', hafter⟩

/-- A slot that the bodies behind one of them keep is the one that this body leaves. -/
theorem foldlM_last (slot : S → A) {before after : List K} {key : K}
    (hkeep : ∀ k ∈ after, ∀ s s', body s k = .ok s' → slot s' = slot s)
    (h : (before ++ key :: after).foldlM body s = .ok s') :
    ∃ t t', body t key = .ok t' ∧ slot s' = slot t' := by
  obtain ⟨t, t', ht', hafter⟩ := foldlM_append_cons_eq_ok h
  exact ⟨t, t', ht', foldlM_keeps slot hkeep hafter⟩

/-- A loop that returns has run each of its bodies. -/
theorem exists_body_eq_ok {key : K} (h : keys.foldlM body s = .ok s') (hmem : key ∈ keys) :
    ∃ t t', body t key = .ok t' := by
  obtain ⟨before, after, rfl⟩ := List.append_of_mem hmem
  obtain ⟨t, t', ht', -⟩ := foldlM_append_cons_eq_ok h
  exact ⟨t, t', ht'⟩

/-- The loop returns if every body does. -/
theorem exists_foldlM_eq_ok (hbody : ∀ k ∈ keys, ∀ s, ∃ s', body s k = .ok s') (s : S) :
    ∃ s', keys.foldlM body s = .ok s' := by
  induction keys generalizing s with
  | nil => exact ⟨s, rfl⟩
  | cons k rest ih =>
    obtain ⟨next, hnext⟩ := hbody k (by simp) s
    obtain ⟨s', hrest⟩ := ih (fun k' hk' => hbody k' (by simp [hk'])) next
    exact ⟨s', by rw [List.foldlM_cons, bind_eq_ok_iff]; exact ⟨next, hnext, hrest⟩⟩

/-- A loop over indices that changes each slot by itself. -/
theorem foldl_update {B : Type*} (f : ℕ → B → B) (size : ℕ) (table : ℕ → B) :
    (List.range size).foldl (fun table i => Function.update table i (f i (table i))) table =
      fun i => if i < size then f i (table i) else table i := by
  induction size with
  | zero => simp
  | succ size ih =>
    rw [List.range_succ, List.foldl_append, ih]
    funext i
    rcases Nat.lt_trichotomy i size with hlt | rfl | hgt
    · simp [hlt, Nat.ne_of_lt hlt, Nat.lt_succ_of_lt hlt]
    · simp
    · simp [Nat.ne_of_gt hgt, Nat.not_lt_of_gt hgt, Nat.not_lt_of_ge (Nat.succ_le_of_lt hgt)]

end Demos.Lib
