import Mathlib.Data.Option.Basic
import Mathlib.Tactic.Common

/-!
# Patches of a record

A computation that only overwrites fields of a record, and decides when to give up without looking
at the record, comes down to a script: which fields it overwrites with what, and whether it gives
up after that. Two records that a patch is applied to end up equal exactly if they agree on the
fields it leaves alone, and a patch changes nothing exactly if the record already has its values.
-/

namespace Demos.Lib

variable {S K E : Type*} {V : K → Type*}

/-- New values for some fields. -/
def Patch (V : K → Type*) := (k : K) → Option (V k)

namespace Patch

/-- No new value. -/
def empty : Patch V := fun _ => none

/-- A new value for one field. -/
def single [DecidableEq K] (k : K) (v : V k) : Patch V :=
  fun k' => if h : k = k' then some (h ▸ v) else none

/-- The second patch after the first one. -/
def andThen (p q : Patch V) : Patch V := fun k => (q k).or (p k)

@[simp]
theorem single_self [DecidableEq K] (k : K) (v : V k) : single k v k = some v := by
  simp [single]

theorem single_of_ne [DecidableEq K] {k k' : K} (v : V k) (h : k ≠ k') : single k v k' = none :=
  dif_neg h

end Patch

/-- A record that is given by its fields and can be patched. -/
structure Fields (S : Type*) {K : Type*} (V : K → Type*) where
  get : S → (k : K) → V k
  patch : Patch V → S → S
  ext : ∀ s t, (∀ k, get s k = get t k) → s = t
  get_patch : ∀ p s k, get (patch p s) k = (p k).getD (get s k)

namespace Fields

variable (F : Fields S V) {p q : Patch V} {s t : S}

@[simp]
theorem patch_empty (s : S) : F.patch Patch.empty s = s :=
  F.ext _ _ fun k => F.get_patch _ s k

/-- Patches compose. -/
theorem patch_andThen (p q : Patch V) (s : S) :
    F.patch (p.andThen q) s = F.patch q (F.patch p s) := by
  refine F.ext _ _ fun k => ?_
  rw [F.get_patch, F.get_patch, F.get_patch, Patch.andThen]
  cases q k <;> rfl

/-- A patch changes nothing exactly if the record already has its values. -/
theorem patch_eq_self_iff : F.patch p s = s ↔ ∀ k v, p k = some v → F.get s k = v := by
  constructor
  · intro hsame k v hv
    have hget := F.get_patch p s k
    rw [hsame, hv] at hget
    exact hget
  · intro hhas
    refine F.ext _ _ fun k => ?_
    rw [F.get_patch]
    cases hv : p k with
    | none => rfl
    | some v => exact (hhas k v hv).symm

/-- Two records are patched alike exactly if they agree on the fields that are left alone. -/
theorem patch_eq_patch_iff :
    F.patch p s = F.patch p t ↔ ∀ k, p k = none → F.get s k = F.get t k := by
  constructor
  · intro hsame k hnone
    have hs := F.get_patch p s k
    have ht := F.get_patch p t k
    rw [hnone] at hs ht
    exact hs.symm.trans ((congrArg (F.get · k) hsame).trans ht)
  · intro hagree
    refine F.ext _ _ fun k => ?_
    rw [F.get_patch, F.get_patch]
    cases hv : p k with
    | none => exact hagree k hv
    | some v => rfl

end Fields

/-- What a computation overwrites, and whether it gives up then. -/
structure Script {K : Type*} (V : K → Type*) (E : Type*) where
  writes : Patch V
  stop : Option E

namespace Script

/-- Do nothing. -/
def skip : Script V E := ⟨Patch.empty, none⟩

/-- Give up. -/
def fail (e : E) : Script V E := ⟨Patch.empty, some e⟩

/-- Overwrite fields. -/
def put (p : Patch V) : Script V E := ⟨p, none⟩

/-- The second script after the first one, unless that gives up. -/
def andThen (a b : Script V E) : Script V E :=
  match a.stop with
  | none => ⟨a.writes.andThen b.writes, b.stop⟩
  | some _ => a

/-- Follow a script; a record that is given up keeps what was written. -/
def run (F : Fields S V) (a : Script V E) (s : S) : Except (E × S) S :=
  match a.stop with
  | none => .ok (F.patch a.writes s)
  | some e => .error (e, F.patch a.writes s)

variable (F : Fields S V) {a b : Script V E} {s : S}

@[simp]
theorem run_fail (e : E) (s : S) : (fail e).run F s = .error (e, s) := by
  simp [run, fail]

/-- A script that goes through patches the record. -/
theorem run_eq_ok_iff {s' : S} : a.run F s = .ok s' ↔ a.stop = none ∧ F.patch a.writes s = s' := by
  cases hstop : a.stop <;> simp [run, hstop]

/-- A script that goes through keeps the fields it leaves alone. -/
theorem get_of_run {s' : S} {k : K} (h : a.run F s = .ok s')
    (hnone : a.stop = none → a.writes k = none) : F.get s' k = F.get s k := by
  obtain ⟨hstop, rfl⟩ := (run_eq_ok_iff F).mp h
  rw [F.get_patch, hnone hstop]
  rfl

/-- Following two scripts is following one after the other. -/
theorem run_andThen (a b : Script V E) (s : S) :
    (a.andThen b).run F s = a.run F s >>= b.run F := by
  cases hstop : a.stop with
  | none =>
    simp only [andThen, run, hstop, F.patch_andThen]
    rfl
  | some e =>
    simp only [andThen, run, hstop]
    rfl

@[simp]
theorem andThen_stop_eq_none :
    (a.andThen b).stop = none ↔ a.stop = none ∧ b.stop = none := by
  cases hstop : a.stop <;> simp [andThen, hstop]

/-- A field is left alone by two scripts that go through exactly if each leaves it alone. -/
theorem andThen_writes_eq_none (h : a.stop = none) (k : K) :
    (a.andThen b).writes k = none ↔ a.writes k = none ∧ b.writes k = none := by
  simp [andThen, h, Patch.andThen, and_comm]

end Script

end Demos.Lib
