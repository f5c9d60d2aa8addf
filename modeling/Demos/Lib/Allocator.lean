import Demos.Lib.Run
import Mathlib.Data.List.Nodup
import Mathlib.Data.Set.Insert

/-!
# Handing out items once

An allocator answers requests. It grants an item that suits the request and that was not granted
before, or refuses the request if there is no such item. Items are not given back.
-/

namespace Demos.Lib.Allocator

variable {Request Item : Type*}

/-- A request is answered. -/
inductive Step (suits : Request → Item → Prop) :
    Set Item → Request × Option Item → Set Item → Prop
  | grant {taken : Set Item} {r : Request} {i : Item} : i ∉ taken → suits r i →
      Step suits taken (r, some i) (insert i taken)
  | refuse {taken : Set Item} {r : Request} : (∀ i, suits r i → i ∈ taken) →
      Step suits taken (r, none) taken

/-- The items that were granted, in order. -/
def granted (answers : List (Request × Option Item)) : List Item := answers.filterMap Prod.snd

variable {suits : Request → Item → Prop} {taken taken' : Set Item} {r : Request} {i : Item}
  {answer : Request × Option Item} {answers before after : List (Request × Option Item)}

/-- What the answers say about the items that are taken. -/
structure Honest (suits : Request → Item → Prop) (answers : List (Request × Option Item))
    (taken : Set Item) : Prop where
  taken_iff (i : Item) : i ∈ taken ↔ i ∈ granted answers
  once : (granted answers).Nodup
  suits_of_grant {r : Request} {i : Item} : (r, some i) ∈ answers → suits r i

/-- An answer keeps the ones before honest. -/
theorem Honest.step (h : Honest suits answers taken) (hstep : Step suits taken answer taken') :
    Honest suits (answers ++ [answer]) taken' := by
  cases hstep with
  | @grant r i hfree hsuits =>
    have hgranted : granted (answers ++ [(r, some i)]) = granted answers ++ [i] := by
      simp [granted]
    refine ⟨?_, ?_, ?_⟩
    · intro j
      rw [hgranted, Set.mem_insert_iff, h.taken_iff, List.mem_append, List.mem_singleton, or_comm]
    · rw [hgranted]
      refine List.nodup_append.mpr ⟨h.once, List.nodup_singleton i, ?_⟩
      rintro j hj k hk rfl
      rw [← h.taken_iff, List.mem_singleton.mp hk] at hj
      exact hfree hj
    · intro r' j hmem
      rcases List.mem_append.mp hmem with hmem | hmem
      · exact h.suits_of_grant hmem
      · simp only [List.mem_singleton, Prod.mk.injEq, Option.some.injEq] at hmem
        obtain ⟨rfl, rfl⟩ := hmem
        exact hsuits
  | @refuse r _ =>
    have hgranted : granted (answers ++ [(r, none)]) = granted answers := by simp [granted]
    refine ⟨fun j => by rw [hgranted, h.taken_iff], by rw [hgranted]; exact h.once, ?_⟩
    intro r' j hmem
    exact h.suits_of_grant (by simpa using hmem)

/-- The answers of every run are honest. -/
theorem Honest.of_run (hrun : Run (Step suits) ∅ answers taken) : Honest suits answers taken := by
  refine hrun.invariant ⟨by simp [granted], List.nodup_nil, by simp⟩ ?_
  intro answers taken answer taken' h hstep
  exact h.step hstep

/-- When a request is refused, all items that suit it were granted before. -/
theorem granted_of_refuse (hrun : Run (Step suits) ∅ (before ++ (r, none) :: after) taken)
    (hsuits : suits r i) : i ∈ granted before := by
  obtain ⟨taken₁, hbefore, hrest⟩ := hrun.split
  obtain ⟨taken₂, hstep, -⟩ := hrest.head
  cases hstep with
  | refuse hall => exact ((Honest.of_run hbefore).taken_iff i).mp (hall i hsuits)

end Demos.Lib.Allocator
