import Demos.Lib.Run
import Demos.Oak.Any.Functions

/-!
# An `Any` is an optional value

The abstract model knows names and optional values only. Every run of the operations does to the
`Any` objects what it does to optional values, whichever constructors throw, and every contained
object is destroyed once, when no `Any` holds it any more.
-/

namespace Demos.Oak

open Demos.Lib

variable {Name Ty : Type} {Val : Ty → Type}

/-- Optional values by their names. -/
abbrev OptionalValues (Name : Type) {Ty : Type} (Val : Ty → Type) :=
  Name → Option (Option (Contained Val))

namespace OptionalValues

/-- The values of named objects, without a temporary. -/
def cells (v : OptionalValues Name Val) : AnyContents Name Val
  | .named name => v name
  | .temporary => none

@[simp]
theorem cells_named (v : OptionalValues Name Val) (name : Name) : v.cells (.named name) = v name :=
  rfl

/-- There is no temporary between two operations. -/
@[simp]
theorem cells_temporary (v : OptionalValues Name Val) : v.cells .temporary = none := rfl

/-- A new value for a name. -/
theorem cells_update [DecidableEq Name] (v : OptionalValues Name Val) (name : Name)
    (x : Option (Option (Contained Val))) :
    cells (Function.update v name x) = Function.update v.cells (.named name) x := by
  funext c
  cases c with
  | temporary => simp
  | named other =>
    by_cases hname : other = name
    · subst hname
      simp
    · simp [hname]

/-- A temporary that comes and goes leaves the named objects. -/
theorem cells_assign [DecidableEq Name] (v : OptionalValues Name Val) (name : Name)
    (x y : Option (Option (Contained Val))) :
    Function.update (Function.update (Function.update v.cells .temporary x) (.named name) y)
      .temporary none = cells (Function.update v name y) := by
  rw [cells_update]
  funext c
  cases c with
  | temporary => simp
  | named other =>
    by_cases hname : other = name
    · subst hname
      simp
    · simp [hname]

end OptionalValues

namespace Memory

section Values

variable [DecidableEq Ty] (small : Ty → Bool)

/-- The values that the named objects hold. -/
def values (m : Memory Name Val) : OptionalValues Name Val :=
  fun name => (m.anys (.named name)).map fun _ => (m.target small (.named name)).map Prod.snd

/-- The contained object that a named object holds. -/
def holds (m : Memory Name Val) (name : Name) : Option ℕ :=
  (m.target small (.named name)).map Prod.fst

/-- An object is alive exactly if a named object holds it, which is then the only one; every other
object that was constructed has been destroyed once, and no live object has been destroyed. -/
structure Accounted (m : Memory Name Val) : Prop where
  held_of_alive {obj : ℕ} : obj ∈ m.ledger.alive → ∃! name, m.holds small name = some obj
  alive_of_held {obj : ℕ} {name : Name} : m.holds small name = some obj → obj ∈ m.ledger.alive
  not_destroyed {obj : ℕ} : obj ∈ m.ledger.alive → m.ledger.destroyed.count obj = 0
  destroyed_once {obj : ℕ} : obj < m.ledger.next → obj ∉ m.ledger.alive →
    m.ledger.destroyed.count obj = 1

variable {small}

/-- A name without an `Any` holds no object. -/
theorem holds_eq_none {m : Memory Name Val} {name : Name} (h : m.values small name = none) :
    m.holds small name = none := by
  have hany : m.anys (.named name) = none := by simpa [values] using h
  simp [holds, target, hany]

end Values

section Represented

variable {small : Ty → Bool} {m : Memory Name Val} {v : OptionalValues Name Val} {name : Name}

/-- The memory holds these values. -/
theorem Represents.values_eq [DecidableEq Ty] (h : m.Represents small v.cells) :
    m.values small = v := by
  obtain ⟨a, hrep, ha⟩ := h
  funext name
  have hname : a.contents (.named name) = v name := congrFun ha (.named name)
  rw [← hname, values, hrep.target_eq, AnyHoldings.contents]
  cases hheld : a (.named name) with
  | none => simp [hrep.anys_eq_none_iff.mpr hheld]
  | some held =>
    cases held with
    | none =>
      obtain ⟨storage, hany⟩ := hrep.exists_anys_eq hheld
      simp [hany]
    | some held => simp [hrep.anys_eq hheld]

/-- The memory accounts for every contained object. -/
theorem Represents.accounted [DecidableEq Ty] (h : m.Represents small v.cells) :
    m.Accounted small := by
  obtain ⟨a, hrep, ha⟩ := h
  have htemporary : a .temporary = none := contents_eq_none_iff.mp (congrFun ha .temporary)
  have hholds : ∀ name, m.holds small name =
      Ledger.objects (fun c => (a c).join) (.named name) := by
    intro name
    rw [holds, hrep.target_eq]
    rfl
  refine ⟨?_, ?_, ?_, hrep.owned.once⟩
  · intro obj halive
    obtain ⟨c, hc⟩ := hrep.owned.exact.complete halive
    cases c with
    | temporary => simp [Ledger.objects, htemporary] at hc
    | named name =>
      refine ⟨name, (hholds name).trans hc, fun other hother => ?_⟩
      exact Cell.named.inj (hrep.owned.exact.unique ((hholds other).symm.trans hother) hc)
  · intro obj name hheld
    exact hrep.owned.exact.mem_live ((hholds name).symm.trans hheld)
  · intro obj halive
    exact List.count_eq_zero.mpr (hrep.owned.alive_notMem halive)

/-- An object that exists has a value, if an empty one. -/
theorem Represents.exists_value (h : m.Represents small v.cells)
    (hname : (m.anys (.named name)).isSome) : ∃ x, v.cells (.named name) = some x := by
  obtain ⟨a, hrep, ha⟩ := h
  rw [← Option.isSome_iff_exists, ← ha]
  have hheld : a (.named name) ≠ none := by
    rw [ne_eq, ← hrep.anys_eq_none_iff]
    exact Option.isSome_iff_ne_none.mp hname
  simpa [AnyHoldings.contents] using Option.isSome_iff_ne_none.mpr hheld

/-- An object that does not exist has no value. -/
theorem Represents.absent (h : m.Represents small v.cells) (hname : m.anys (.named name) = none) :
    v.cells (.named name) = none := by
  obtain ⟨a, hrep, ha⟩ := h
  rw [← ha, contents_eq_none_iff, ← hrep.anys_eq_none_iff, hname]

/-- Before any object exists, no name has a value. -/
theorem represents_initial (small : Ty → Bool) :
    (initial : Memory Name Val).Represents small (OptionalValues.cells fun _ => none) := by
  refine ⟨fun _ => none, ⟨fun _ => .absent, Ledger.owned_empty⟩, ?_⟩
  funext c
  cases c <;> rfl

/-- The function does this to the optional values: it throws, or it returns. -/
def Performs (small : Ty → Bool) (r : Result Name Val) :
    OptionalValues Name Val × Bool → Prop
  | (v, true) => Throws small r v.cells
  | (v, false) => Ends small r v.cells

/-- The memory that such a function leaves, whether it throws or returns. -/
theorem Performs.represents {r : Result Name Val} {out : OptionalValues Name Val × Bool}
    (h : Performs small r out) : ∃ m', r = (if out.2 then .error (.threw, m') else .ok m') ∧
      m'.Represents small out.1.cells := by
  obtain ⟨v, threw⟩ := out
  cases threw with
  | true | false => exact h

/-- A function that throws exactly if the constructor of the new object does. -/
theorem performs_construct (r : Bool → Result Name Val) {v' : OptionalValues Name Val}
    (hthrows : Throws small (r true) v.cells) (hends : Ends small (r false) v'.cells)
    (throws : Bool) : Performs small (r throws) (if throws then (v, true) else (v', false)) := by
  cases throws with
  | true => exact hthrows
  | false => exact hends

/-- A function that copies throws exactly if the copy constructor does and there is a value. -/
theorem performs_copy (r : Bool → Result Name Val) {v' : OptionalValues Name Val}
    {x : Option (Contained Val)} (hx : v.cells (.named name) = some x)
    (hthrows : ∀ value, v.cells (.named name) = some (some value) → Throws small (r true) v.cells)
    (throws : Bool) (hends : (throws = true → x = none) → Ends small (r throws) v'.cells) :
    Performs small (r throws)
      (if throws ∧ (v name).join.isSome then (v, true) else (v', false)) := by
  rw [← v.cells_named name, hx]
  cases x with
  | none =>
    rw [if_neg (by simp)]
    exact hends fun _ => rfl
  | some value =>
    cases throws with
    | true => exact hthrows value hx
    | false => exact hends nofun

end Represented

end Memory

variable [DecidableEq Name] [DecidableEq Ty]

/-- What the operation does to optional values, and whether it throws. -/
def AnyOp.spec (v : OptionalValues Name Val) :
    AnyOp Name Val → OptionalValues Name Val × Bool
  | .defaultConstruct c => (Function.update v c (some none), false)
  | .valueConstruct c value throws =>
    if throws then (v, true) else (Function.update v c (some (some value)), false)
  | .copyConstruct c other throws =>
    if throws ∧ (v other).join.isSome then (v, true)
    else (Function.update v c (v other), false)
  | .moveConstruct c other =>
    (Function.update (Function.update v c (v other)) other (some none), false)
  | .copyAssign this rhs throws =>
    if throws ∧ (v rhs).join.isSome then (v, true)
    else (Function.update v this (v rhs), false)
  | .moveAssign this rhs =>
    if rhs = this then (v, false)
    else (Function.update (Function.update v this (v rhs)) rhs (some none), false)
  | .convertAssign this value throws =>
    if throws then (v, true) else (Function.update v this (some (some value)), false)
  | .emplace c value throws =>
    if throws then (Function.update v c (some none), true)
    else (Function.update v c (some (some value)), false)
  | .reset c => (Function.update v c (some none), false)
  | .swap this other => (Function.update (Function.update v this (v other)) other (v this), false)
  | .destroy c => (Function.update v c none, false)
  | .writeThrough c value =>
    if (v c).join.map Sigma.fst = some value.1 then
      (Function.update v c (some (some value)), false)
    else (v, false)

/-- The optional values after the operations. -/
def valuesAfter (ops : List (AnyOp Name Val)) : OptionalValues Name Val :=
  ops.foldl (fun v op => (op.spec v).1) fun _ => none

theorem valuesAfter_concat (ops : List (AnyOp Name Val)) (op : AnyOp Name Val) :
    valuesAfter (ops ++ [op]) = (op.spec (valuesAfter ops)).1 := by
  simp [valuesAfter]

namespace Memory

variable {small : Ty → Bool} {m m' : Memory Name Val} {v : OptionalValues Name Val}
  {op : AnyOp Name Val} {ops : List (AnyOp Name Val)}

/-- The assignments assign from a temporary. -/
theorem ends_assign {r : Result Name Val} {this : Name} {x y : Option (Contained Val)}
    (hr : Ends small r (Function.update v.cells .temporary (some x)))
    (hthis : v.cells (.named this) = some y) :
    Ends small (r >>= fun m => m.moveAssign small (.named this) .temporary >>= fun m =>
      m.destroy small .temporary) (OptionalValues.cells (Function.update v this (some x))) := by
  rw [← v.cells_assign this (some x)]
  refine hr.bind fun m₁ hm₁ => ?_
  have hthis₁ : Function.update v.cells .temporary (some x) (.named this) = some y := by
    rw [Function.update_of_ne (by simp), hthis]
  exact ends_assignTemporary hm₁ hthis₁ (by simp) (Function.update_self ..)

/-- Every operation does to the `Any` objects what it does to optional values. -/
theorem performs_spec (h : m.Represents small v.cells) (happlies : op.Applies m) :
    Performs small (op.perform small m) (op.spec v) := by
  obtain ⟨huses, hmakes⟩ := happlies
  cases op with
  | defaultConstruct c =>
    have hends := ends_defaultConstruct h (h.absent (hmakes c rfl))
    rwa [← OptionalValues.cells_update] at hends
  | valueConstruct c value throws =>
    have hc := h.absent (hmakes c rfl)
    refine performs_construct (m.valueConstruct small (.named c) value ·)
      (throws_valueConstruct h hc) ?_ throws
    rw [OptionalValues.cells_update]
    exact ends_valueConstruct h hc
  | copyConstruct c other throws =>
    have hc := h.absent (hmakes c rfl)
    obtain ⟨x, hx⟩ := h.exists_value (huses other (by simp [AnyOp.uses]))
    refine performs_copy (m.copyConstruct small (.named c) (.named other) ·) hx
      (fun _ hvalue => throws_copyConstruct h hc hvalue) throws fun hempty => ?_
    rw [OptionalValues.cells_update]
    exact ends_copyConstruct h hc hx hempty
  | moveConstruct c other =>
    obtain ⟨x, hx⟩ := h.exists_value (huses other (by simp [AnyOp.uses]))
    have hends := ends_moveConstruct h (h.absent (hmakes c rfl)) hx
    rwa [← OptionalValues.cells_update, ← OptionalValues.cells_update] at hends
  | copyAssign this rhs throws =>
    obtain ⟨y, hy⟩ := h.exists_value (huses this (by simp [AnyOp.uses]))
    obtain ⟨x, hx⟩ := h.exists_value (huses rhs (by simp [AnyOp.uses]))
    refine performs_copy (m.copyAssign small (.named this) (.named rhs) ·) hx
      (fun _ hvalue => (throws_copyConstruct h v.cells_temporary hvalue).bind) throws
      fun hempty => ?_
    have hcopy := ends_copyConstruct h v.cells_temporary hx hempty
    rw [hx] at hcopy
    rw [← v.cells_named rhs, hx]
    exact ends_assign hcopy hy
  | moveAssign this rhs =>
    obtain ⟨y, hy⟩ := h.exists_value (huses this (by simp [AnyOp.uses]))
    obtain ⟨x, hx⟩ := h.exists_value (huses rhs (by simp [AnyOp.uses]))
    rw [AnyOp.spec]
    split
    next heq =>
      subst heq
      exact ⟨m, moveAssign_self, h⟩
    next hne =>
      have hends := ends_moveAssign h hy hx (by simpa using hne)
      rwa [← OptionalValues.cells_update, ← OptionalValues.cells_update] at hends
  | convertAssign this value throws =>
    obtain ⟨y, hy⟩ := h.exists_value (huses this (by simp [AnyOp.uses]))
    exact performs_construct (m.convertAssign small (.named this) value ·)
      (throws_valueConstruct h v.cells_temporary).bind
      (ends_assign (ends_valueConstruct h v.cells_temporary) hy) throws
  | emplace c value throws =>
    obtain ⟨x, hx⟩ := h.exists_value (huses c (by simp [AnyOp.uses]))
    refine performs_construct (m.emplace small (.named c) value ·) ?_ ?_ throws
    · rw [OptionalValues.cells_update]
      exact throws_emplace h hx
    · rw [OptionalValues.cells_update]
      exact ends_emplace h hx
  | reset c =>
    obtain ⟨x, hx⟩ := h.exists_value (huses c (by simp [AnyOp.uses]))
    have hends := ends_reset h hx
    rwa [← OptionalValues.cells_update] at hends
  | swap this other =>
    obtain ⟨x, hx⟩ := h.exists_value (huses this (by simp [AnyOp.uses]))
    obtain ⟨y, hy⟩ := h.exists_value (huses other (by simp [AnyOp.uses]))
    have hends := ends_swap h hx hy v.cells_temporary
    rwa [← OptionalValues.cells_update, ← OptionalValues.cells_update] at hends
  | destroy c =>
    obtain ⟨x, hx⟩ := h.exists_value (huses c (by simp [AnyOp.uses]))
    have hends := ends_destroy h hx
    rwa [← OptionalValues.cells_update] at hends
  | writeThrough c value =>
    have hends : Ends small (m.writeThrough small (.named c) value) _ := ends_writeThrough h
    rw [← OptionalValues.cells_update, OptionalValues.cells_named] at hends
    rw [AnyOp.spec]
    split
    next htype => rwa [if_pos htype] at hends
    next htype => rwa [if_neg htype] at hends

/-- After every run the objects hold what the operations leave of optional values. -/
theorem represents_valuesAfter (hrun : Run (AnyStep small) .initial ops m) :
    m.Represents small (valuesAfter ops).cells := by
  refine hrun.invariant (I := fun ops m => m.Represents small (valuesAfter ops).cells)
    (represents_initial small) ?_
  rintro ops m op m' hm ⟨happlies, hstep⟩
  obtain ⟨m'', hm'', hrep⟩ := (performs_spec hm happlies).represents
  rw [valuesAfter_concat]
  have heq : m'' = m' := by
    rw [hm''] at hstep
    split at hstep <;> simpa using hstep
  rwa [← heq]

/-- Every run of the operations, whichever constructors throw, does to the `Any` objects what it
does to optional values, `any_cast` finds a value exactly under its type, and every contained
object is held by one `Any` until it is destroyed, once. No operation misuses an operator. -/
theorem any_refines_optional (small : Ty → Bool) (ops : List (AnyOp Name Val))
    (m : Memory Name Val) (hrun : Run (AnyStep small) .initial ops m) :
    m.values small = valuesAfter ops ∧
      (∀ name ty, m.anyCast small ty (.named name) =
        .ok ((valuesAfter ops name).join.bind (Contained.as ty))) ∧
      m.Accounted small ∧
      ((∀ name, valuesAfter ops name = none) →
        ∀ obj < m.ledger.next, m.ledger.destroyed.count obj = 1) ∧
      ∀ op : AnyOp Name Val, op.Applies m → ∃ m',
        op.perform small m =
          (if (op.spec (valuesAfter ops)).2 then .error (.threw, m') else .ok m') ∧
        m'.values small = (op.spec (valuesAfter ops)).1 := by
  have hrep := represents_valuesAfter hrun
  have haccounted := hrep.accounted
  refine ⟨hrep.values_eq, fun name ty => anyCast_eq hrep ty (.named name), haccounted, ?_, ?_⟩
  · intro hgone obj hobj
    refine haccounted.destroyed_once hobj fun halive => ?_
    obtain ⟨name, hname, -⟩ := haccounted.held_of_alive halive
    rw [holds_eq_none ((congrFun hrep.values_eq name).trans (hgone name))] at hname
    simp at hname
  · intro op happlies
    obtain ⟨m', hm', hrep'⟩ := (performs_spec hrep happlies).represents
    exact ⟨m', hm', hrep'.values_eq⟩

/-- A heap object is copied, the copy is exchanged for a small object, and an `emplace` throws. -/
theorem any_refines_optional_swap : ∃ m : Memory Bool fun _ : Bool => ℕ,
    Run (AnyStep id) .initial [.valueConstruct true ⟨false, 7⟩ false,
      .copyConstruct false true false, .convertAssign true ⟨true, 3⟩ false, .swap true false,
      .emplace false ⟨false, 5⟩ true] m ∧
    m.values id true = some (some ⟨false, 7⟩) ∧ m.values id false = some none := by
  have hrun : ∃ m : Memory Bool fun _ : Bool => ℕ, Run (AnyStep id) .initial
      [.valueConstruct true ⟨false, 7⟩ false, .copyConstruct false true false,
        .convertAssign true ⟨true, 3⟩ false, .swap true false,
        .emplace false ⟨false, 5⟩ true] m := by
    refine ⟨_, .snoc (.snoc (.snoc (.snoc (.snoc .nil ⟨?_, .inl rfl⟩) ⟨?_, .inl rfl⟩)
      ⟨?_, .inl rfl⟩) ⟨?_, .inl rfl⟩) ⟨?_, .inr rfl⟩⟩
    all_goals
      constructor
      · decide
      · decide
  obtain ⟨m, hrun⟩ := hrun
  have hvalues := (any_refines_optional id _ m hrun).1
  refine ⟨m, hrun, ?_⟩
  rw [hvalues]
  exact ⟨rfl, rfl⟩

end Memory

end Demos.Oak
