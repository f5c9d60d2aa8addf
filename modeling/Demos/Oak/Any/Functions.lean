import Demos.Oak.Any.Holdings

/-!
# What the functions of `Any` do

Each function is described by the values that the `Any` objects hold when it returns, or when it
throws. No operator is misused on the way.
-/

namespace Demos.Oak

open Demos.Lib

namespace Memory

variable {Name Ty : Type} {Val : Ty → Type} {small : Ty → Bool} {m m' : Memory Name Val}
  {a : AnyHoldings Name Val} {c d : Cell Name} {any : AnyObject Ty} {obj : ℕ}
  {value : Contained Val} {storage : Storage} {op : Option Ty}

/-- The objects of the memory hold these values, and own all contained objects. -/
def Represents (small : Ty → Bool) (m : Memory Name Val) (s : AnyContents Name Val) : Prop :=
  ∃ a : AnyHoldings Name Val, m.Rep small a ∧ a.contents = s

/-- The function returns, and the objects then hold these values. -/
def Ends (small : Ty → Bool) (r : Result Name Val) (s : AnyContents Name Val) : Prop :=
  ∃ m, r = .ok m ∧ m.Represents small s

/-- The function throws, and the objects then hold these values. -/
def Throws (small : Ty → Bool) (r : Result Name Val) (s : AnyContents Name Val) : Prop :=
  ∃ m, r = .error (.threw, m) ∧ m.Represents small s

variable {s s' : AnyContents Name Val} {r : Result Name Val}
  {f : Memory Name Val → Result Name Val}

/-- One function after another. -/
theorem Ends.bind (h : Ends small r s) (hf : ∀ m, m.Represents small s → Ends small (f m) s') :
    Ends small (r >>= f) s' := by
  obtain ⟨m, rfl, hm⟩ := h
  exact hf m hm

/-- A function that throws ends the one that calls it. -/
theorem Throws.bind (h : Throws small r s) : Throws small (r >>= f) s := by
  obtain ⟨m, rfl, hm⟩ := h
  exact ⟨m, rfl, hm⟩

/-- A function may throw after another one has returned. -/
theorem Ends.bind_throws (h : Ends small r s)
    (hf : ∀ m, m.Represents small s → Throws small (f m) s') : Throws small (r >>= f) s' := by
  obtain ⟨m, rfl, hm⟩ := h
  exact hf m hm

section Contents

/-- There is a value exactly if the contents have one. -/
theorem Represents.hasValue_eq (h : m.Represents small s) (c : Cell Name) :
    m.hasValue c = (s c).join.isSome := by
  obtain ⟨a, hrep, rfl⟩ := h
  rw [hrep.hasValue_eq]
  cases ha : a c with
  | none => simp [AnyHoldings.contents, ha]
  | some held => cases held <;> simp [AnyHoldings.contents, ha]

/-- An operator stands for the type of the value. -/
theorem Represents.operator_eq (h : m.Represents small s) (c : Cell Name) :
    m.operator c = (s c).join.map Sigma.fst := by
  obtain ⟨a, hrep, rfl⟩ := h
  rw [hrep.operator_eq]
  cases ha : a c with
  | none => simp [AnyHoldings.contents, ha]
  | some held => cases held <;> simp [AnyHoldings.contents, ha]

/-- `any_cast` finds the value exactly if it has the type. -/
theorem anyCast_eq [DecidableEq Ty] (h : m.Represents small s) (ty : Ty) (c : Cell Name) :
    m.anyCast small ty c = .ok ((s c).join.bind (Contained.as ty)) := by
  rw [anyCast, h.operator_eq]
  obtain ⟨a, hrep, rfl⟩ := h
  rw [hrep.target_eq]
  cases ha : a c with
  | none => simp [AnyHoldings.contents, ha]
  | some held =>
    cases held with
    | none => simp [AnyHoldings.contents, ha]
    | some held =>
      by_cases hty : held.2.1 = ty
      · simp [AnyHoldings.contents, ha, hty]
      · simp [AnyHoldings.contents, ha, hty, Contained.as]

/-- An `Any` without a value holds no object. -/
theorem Represents.exists_rep_empty (h : m.Represents small s) (hc : s c = some none) :
    ∃ a : AnyHoldings Name Val, m.Rep small a ∧ a.contents = s ∧ a c = some none := by
  obtain ⟨a, hrep, rfl⟩ := h
  exact ⟨a, hrep, rfl, contents_eq_empty_iff.mp hc⟩

/-- An `Any` that is constructed is not one that exists. -/
theorem ne_of_absent {x : Option (Contained Val)} (hc : s c = none) (hd : s d = some x) :
    d ≠ c := by
  rintro rfl
  simp [hc] at hd

end Contents

variable [DecidableEq Name]

/-- A constructor whose body returns, returns. -/
theorem Ends.inConstructor (h : Ends small r s) : Ends small (inConstructor c r) s := by
  obtain ⟨m, rfl, hm⟩ := h
  exact ⟨m, rfl, hm⟩

section Functions

/-- Exchanging through a temporary. -/
theorem swap_through_temporary {x : Option (Contained Val)} (hne : d ≠ c) (hc : s c = some x)
    (hd : d ≠ .temporary) (ht : s .temporary = none) :
    let s₁ := Function.update (Function.update s .temporary (s c)) c (some none)
    let s₂ := Function.update (Function.update s₁ c (s d)) d (some none)
    Function.update (Function.update s₂ d (some x)) .temporary none =
      Function.update (Function.update s c (s d)) d (s c) := by
  have hct : c ≠ .temporary := ne_of_absent ht hc
  funext k
  by_cases hk : k = .temporary
  · subst hk
    simp [ht, hct.symm, hd.symm]
  by_cases hkd : k = d
  · subst hkd
    simp [hk, hc]
  by_cases hkc : k = c
  · subst hkc
    simp [hk, hkd]
  · simp [hk, hkd, hkc]

/-- `Any()` makes an empty `Any`. -/
theorem ends_defaultConstruct (h : m.Represents small s) (hc : s c = none) :
    Ends small (m.defaultConstruct c) (Function.update s c (some none)) := by
  obtain ⟨a, hrep, rfl⟩ := h
  have ha : (a c).join = none := by rw [contents_eq_none_iff.mp hc]; rfl
  exact ⟨_, rfl, _, hrep.put_empty ha .raw, contents_update a _⟩

/-- A constructor that throws leaves no `Any`. -/
theorem throws_inConstructor (h : m.Represents small s) (hc : s c = none) :
    Throws small (inConstructor c (.error (.threw, m.put c any))) s := by
  obtain ⟨a, hrep, rfl⟩ := h
  have ha : a c = none := contents_eq_none_iff.mp hc
  have hsame : Function.update a c none = a := Function.update_eq_self_iff.mpr ha.symm
  have hdiscard := hrep.discard (c := c) (by rw [ha]; rfl)
  rw [hsame] at hdiscard
  exact ⟨_, by rw [inConstructor, discard_put], a, hdiscard, rfl⟩

/-- What constructing an object in an `Any` leaves. -/
theorem construct_eq_ok (h : m.anys c = some any) : construct small c value false m =
    .ok ({ m with ledger := m.ledger.create value }.put c
      { any with storage := .holding (small value.1) m.ledger.next }) := by
  simp only [construct, Bool.false_eq_true, if_false, setStorage_eq h]
  rfl

/-- Constructing an object that throws leaves the `Any` without it. -/
theorem construct_eq_threw (small : Ty → Bool) (value : Contained Val)
    (h : m.anys c = some any) :
    ∃ storage, construct small c value true m =
      .error (.threw, m.put c { any with storage := storage }) := by
  simp only [construct, if_true, setStorage_eq h]
  split
  · exact ⟨_, rfl⟩
  · exact ⟨any.storage, by rw [put_self h]⟩

/-- `Any(value)` that returns holds the value. -/
theorem ends_valueConstruct (h : m.Represents small s) (hc : s c = none) :
    Ends small (m.valueConstruct small c value false)
      (Function.update s c (some (some value))) := by
  obtain ⟨a, hrep, rfl⟩ := h
  have ha : (a c).join = none := by rw [contents_eq_none_iff.mp hc]; rfl
  rw [valueConstruct, construct_eq_ok anys_put_self]
  refine ⟨_, congrArg Except.ok ?_, _, hrep.create ha value, contents_update a _⟩
  simp [put]

/-- `Any(value)` that throws leaves no `Any`. -/
theorem throws_valueConstruct (h : m.Represents small s) (hc : s c = none) :
    Throws small (m.valueConstruct small c value true) s := by
  have hany : (m.put c { operator := some value.1 }).anys c =
      some { operator := some value.1 } := anys_put_self
  obtain ⟨storage, hthrows⟩ := construct_eq_threw small value hany
  rw [valueConstruct, hthrows, put_put]
  exact throws_inConstructor h hc

variable [DecidableEq Ty] {x : Option (Contained Val)}

/-- `reset` leaves the `Any` empty. -/
theorem ends_reset (h : m.Represents small s) (hc : s c = some x) :
    Ends small (m.reset small c) (Function.update s c (some none)) := by
  obtain ⟨a, hrep, rfl⟩ := h
  rw [reset, hrep.hasValue_eq]
  cases x with
  | none =>
    rw [contents_eq_empty_iff.mp hc, Function.update_eq_self_iff.mpr hc.symm]
    exact ⟨m, rfl, a, hrep, rfl⟩
  | some value =>
    obtain ⟨obj, ha⟩ := contents_eq_value_iff.mp hc
    have htarget : m.target small c = some (obj, value) := by rw [hrep.target_eq, ha]; rfl
    refine ⟨_, ?_, _, hrep.destroy ha (.holding (small value.1) obj), contents_update a _⟩
    simp only [destructOp, htarget, ha, Option.join_some, Option.isSome_some, if_true]
    exact congrArg Except.ok
      (setOperator_eq (m := { m with ledger := m.ledger.destroy obj }) (hrep.anys_eq ha))

/-- `~Any` leaves no `Any`. -/
theorem ends_destroy (h : m.Represents small s) (hc : s c = some x) :
    Ends small (m.destroy small c) (Function.update s c none) := by
  refine (ends_reset h hc).bind fun m₁ hm₁ => ?_
  obtain ⟨a, hrep, ha, hempty⟩ := hm₁.exists_rep_empty (Function.update_self ..)
  refine ⟨_, rfl, _, hrep.discard (by rw [hempty]; rfl), ?_⟩
  rw [contents_update, ha, Function.update_idem]
  rfl

/-- The copy constructor copies the object of the other `Any`. -/
theorem copyConstruct_of_value {throws : Bool} (h : m.Rep small a) (hc : a c = none)
    (hne : d ≠ c) (hd : a d = some (some (obj, value))) :
    m.copyConstruct small c d throws = inConstructor c
      (construct small c value throws (m.put c { operator := none }) >>= fun m =>
        return m.setOperator c (m.operator d)) := by
  have hrep := h.put_empty (c := c) (by rw [hc]; rfl) .raw
  have hheld : (Function.update a c (some none) d).join = some (obj, value) := by
    rw [Function.update_of_ne hne, hd]
    rfl
  rw [copyConstruct, hrep.hasValue_eq, hheld]
  simp only [copyOp, hrep.target_eq, hheld]
  rfl

/-- The copy constructor that returns holds the same. -/
theorem ends_copyConstruct {throws : Bool} (h : m.Represents small s) (hc : s c = none)
    (hd : s d = some x) (hthrows : throws = true → x = none) :
    Ends small (m.copyConstruct small c d throws) (Function.update s c (s d)) := by
  have hne := ne_of_absent hc hd
  obtain ⟨a, hrep, rfl⟩ := h
  have ha : a c = none := contents_eq_none_iff.mp hc
  have hjoin : (a c).join = none := by rw [ha]; rfl
  rw [hd]
  cases x with
  | none =>
    have hrep₁ := hrep.put_empty hjoin .raw
    rw [copyConstruct, hrep₁.hasValue_eq, Function.update_of_ne hne,
      contents_eq_empty_iff.mp hd, setOperator_put]
    exact ⟨_, rfl, _, hrep₁, contents_update a _⟩
  | some value =>
    obtain ⟨obj, hobj⟩ := contents_eq_value_iff.mp hd
    have hoperator : m.operator d = some value.1 := by
      rw [hrep.operator_eq, hobj]
      rfl
    obtain rfl : throws = false := by simpa using hthrows
    refine ⟨_, ?_, _, hrep.create hjoin value, contents_update a _⟩
    rw [copyConstruct_of_value hrep ha hne hobj, construct_eq_ok anys_put_self]
    change Except.ok (Memory.setOperator _ c (Memory.operator _ d)) = _
    rw [operator_put_of_ne hne]
    change Except.ok (Memory.setOperator _ c ((m.put c _).operator d)) = _
    rw [operator_put_of_ne hne, hoperator, setOperator_put]
    simp [put]

/-- The copy constructor that throws leaves no `Any`. -/
theorem throws_copyConstruct (h : m.Represents small s) (hc : s c = none)
    (hd : s d = some (some value)) : Throws small (m.copyConstruct small c d true) s := by
  have hne := ne_of_absent hc hd
  obtain ⟨a, hrep, hcontents⟩ := id h
  subst hcontents
  obtain ⟨obj, hobj⟩ := contents_eq_value_iff.mp hd
  have hany : (m.put c { operator := none }).anys c = some { operator := none } := anys_put_self
  obtain ⟨storage, hthrows⟩ := construct_eq_threw small value hany
  rw [copyConstruct_of_value hrep (contents_eq_none_iff.mp hc) hne hobj, hthrows, put_put]
  exact throws_inConstructor h hc

/-- What the move of an object does to the two `Any` objects. -/
theorem takeOver_eq {any' : AnyObject Ty} (hmove : m.moveOp small d c = .ok m')
    (hc : m'.anys c = some any) (hd : m'.anys d = some any') (hne : d ≠ c) :
    m.takeOver small c d = .ok ((m'.put c { any with operator := any'.operator }).put d
      { any' with operator := none }) := by
  have hoperator : m'.operator d = any'.operator := by simp [operator, hd]
  have hd' : (m'.put c { any with operator := any'.operator }).anys d = some any' := by
    rw [anys_put_of_ne hne, hd]
  rw [takeOver, hmove]
  change Except.ok ((m'.setOperator c (m'.operator d)).setOperator d none) = _
  rw [hoperator, setOperator_eq hc, setOperator_eq hd']

/-- The object of an `Any` is moved into an empty one. -/
theorem ends_takeOver (h : m.Represents small s) (hc : s c = some none) (hne : d ≠ c)
    (hd : s d = some (some value)) :
    Ends small (m.takeOver small c d)
      (Function.update (Function.update s c (s d)) d (some none)) := by
  obtain ⟨a, hrep, rfl⟩ := h
  have hempty : a c = some none := contents_eq_empty_iff.mp hc
  have hjoin : (a c).join = none := by rw [hempty]; rfl
  obtain ⟨storage, hany⟩ := hrep.exists_anys_eq hempty
  obtain ⟨obj, hobj⟩ := contents_eq_value_iff.mp hd
  have hany' := hrep.anys_eq hobj
  have htarget : m.target small d = some (obj, value) := by rw [hrep.target_eq, hobj]; rfl
  rw [hd]
  cases hsmall : small value.1 with
  | true =>
    have hobj' : Function.update a c (some (some (m.ledger.next, value))) d =
        some (some (obj, value)) := by
      rw [Function.update_of_ne hne, hobj]
    have hmove : m.moveOp small d c =
        .ok { Memory.put { m with ledger := m.ledger.create value } c
            ⟨none, .holding (small value.1) m.ledger.next⟩ with
          ledger := (m.ledger.create value).destroy obj } := by
      simp only [moveOp, htarget, hsmall, construct_eq_ok hany, if_true]
      rfl
    refine ⟨_, ?_, _, (hrep.create hjoin value).destroy hobj' (.holding (small value.1) obj), ?_⟩
    · rw [takeOver_eq hmove anys_put_self ((anys_put_of_ne hne).trans hany') hne]
      simp [put]
    · rw [contents_update, contents_update]
      rfl
  | false =>
    have hmove : m.moveOp small d c = .ok (m.put c ⟨none, .holding (small value.1) obj⟩) := by
      simp only [moveOp, htarget, hsmall, setStorage_eq hany]
      rfl
    refine ⟨_, ?_, _, hrep.transfer hjoin hne.symm hobj (.holding (small value.1) obj), ?_⟩
    · rw [takeOver_eq hmove anys_put_self ((anys_put_of_ne hne).trans hany') hne, put_put]
    · rw [contents_update, contents_update, hobj]
      rfl

/-- What another `Any` holds, if anything, is moved into an empty one. -/
theorem ends_takeOver_or (h : m.Represents small s) (hc : s c = some none) (hne : d ≠ c)
    (hd : s d = some x) :
    Ends small (if m.hasValue d then m.takeOver small c d else .ok m)
      (Function.update (Function.update s c (s d)) d (some none)) := by
  rw [h.hasValue_eq, hd]
  cases x with
  | none =>
    have hc' : Function.update s c (some none) = s := Function.update_eq_self_iff.mpr hc.symm
    have hd' : Function.update s d (some none) = s := Function.update_eq_self_iff.mpr hd.symm
    rw [hc', hd']
    exact ⟨m, rfl, h⟩
  | some value =>
    have htaken := ends_takeOver h hc hne hd
    rw [hd] at htaken
    exact htaken

/-- The move constructor holds what the other `Any` held, which is then empty. -/
theorem ends_moveConstruct (h : m.Represents small s) (hc : s c = none) (hd : s d = some x) :
    Ends small (m.moveConstruct small c d)
      (Function.update (Function.update s c (s d)) d (some none)) := by
  have hne := ne_of_absent hc hd
  obtain ⟨m₁, hm₁, hrep₁⟩ := ends_defaultConstruct h hc
  cases hm₁
  have hd₁ : Function.update s c (some none) d = some x := by
    rw [Function.update_of_ne hne, hd]
  have htaken := ends_takeOver_or hrep₁ (Function.update_self ..) hne hd₁
  rw [Function.update_idem, Function.update_of_ne hne] at htaken
  rw [moveConstruct, setOperator_put]
  exact htaken.inConstructor

/-- The move assignment to another `Any`. -/
theorem ends_moveAssign (h : m.Represents small s) {y : Option (Contained Val)}
    (hc : s c = some y) (hd : s d = some x) (hne : d ≠ c) :
    Ends small (m.moveAssign small c d)
      (Function.update (Function.update s c (s d)) d (some none)) := by
  rw [moveAssign, if_pos hne]
  refine (ends_reset h hc).bind fun m₁ hm₁ => ?_
  have hd₁ : Function.update s c (some none) d = some x := by
    rw [Function.update_of_ne hne, hd]
  have htaken := ends_takeOver_or hm₁ (Function.update_self ..) hne hd₁
  rwa [Function.update_idem, Function.update_of_ne hne] at htaken

theorem moveAssign_self : m.moveAssign small c c = .ok m :=
  if_neg (not_not.mpr rfl)

/-- An `Any` is assigned from a temporary, which is then destroyed. -/
theorem ends_assignTemporary (h : m.Represents small s) {y : Option (Contained Val)}
    (hc : s c = some y) (hne : c ≠ .temporary) (ht : s .temporary = some x) :
    Ends small (m.moveAssign small c .temporary >>= fun m => m.destroy small .temporary)
      (Function.update (Function.update s c (some x)) .temporary none) := by
  refine (ends_moveAssign h hc ht hne.symm).bind fun m₁ hm₁ => ?_
  have hdestroy := ends_destroy hm₁ (Function.update_self ..)
  rwa [Function.update_idem, ht] at hdestroy

/-- `emplace` that returns holds the value. -/
theorem ends_emplace (h : m.Represents small s) (hc : s c = some x) :
    Ends small (m.emplace small c value false) (Function.update s c (some (some value))) := by
  refine (ends_reset h hc).bind fun m₁ hm₁ => ?_
  obtain ⟨a, hrep, ha, hempty⟩ := hm₁.exists_rep_empty (Function.update_self ..)
  obtain ⟨storage, hany⟩ := hrep.exists_anys_eq hempty
  have hcreate := hrep.create (c := c) (by rw [hempty]; rfl) value
  have htarget := hcreate.target_eq c
  rw [Function.update_self] at htarget
  refine ⟨_, ?_, _, hcreate, ?_⟩
  · rw [construct_eq_ok hany]
    change getOp small c (Memory.setOperator (Memory.put _ c _) c _) = _
    rw [setOperator_put, getOp, htarget]
    rfl
  · rw [contents_update, ha, Function.update_idem]
    rfl

/-- `emplace` that throws leaves the `Any` empty. -/
theorem throws_emplace (h : m.Represents small s) (hc : s c = some x) :
    Throws small (m.emplace small c value true) (Function.update s c (some none)) := by
  refine (ends_reset h hc).bind_throws fun m₁ hm₁ => ?_
  obtain ⟨a, hrep, ha, hempty⟩ := hm₁.exists_rep_empty (Function.update_self ..)
  obtain ⟨storage, hany⟩ := hrep.exists_anys_eq hempty
  obtain ⟨storage', hthrows⟩ := construct_eq_threw small value hany
  rw [hthrows]
  refine ⟨_, rfl, _, hrep.put_empty (by rw [hempty]; rfl) storage', ?_⟩
  rw [contents_update, ha, Function.update_idem]
  rfl

/-- `swap` exchanges what two `Any` objects hold. -/
theorem ends_swap (h : m.Represents small s) {y : Option (Contained Val)} (hc : s c = some x)
    (hd : s d = some y) (ht : s .temporary = none) :
    Ends small (m.swap small c d) (Function.update (Function.update s c (s d)) d (s c)) := by
  rw [swap]
  split
  next hsame =>
    refine ⟨m, rfl, ?_⟩
    obtain rfl | ⟨hempty, hempty'⟩ := hsame
    · simpa using h
    · rw [h.hasValue_eq, hc] at hempty
      rw [h.hasValue_eq, hd] at hempty'
      have hcd : s c = s d := by
        rw [hc, hd]
        cases x <;> cases y <;> simp_all
      have hsame : Function.update (Function.update s c (s d)) d (s c) = s := by
        rw [← hcd, Function.update_eq_self, hcd, Function.update_eq_self]
      rwa [hsame]
  next hother =>
    have hne : d ≠ c := fun heq => hother (.inl heq.symm)
    have hct : c ≠ .temporary := ne_of_absent ht hc
    have hdt : d ≠ .temporary := ne_of_absent ht hd
    refine (ends_moveConstruct h ht hc).bind fun m₁ hm₁ => ?_
    have hd₁ : Function.update (Function.update s .temporary (s c)) c (some none) d = some y := by
      simp [hne, hdt, hd]
    refine (ends_moveAssign hm₁ (Function.update_self ..) hd₁ hne).bind fun m₂ hm₂ => ?_
    rw [hd₁, ← hd] at hm₂
    have hlast := ends_assignTemporary hm₂ (x := x) (Function.update_self ..) hdt
      (by simp [hct.symm, hdt.symm, hc])
    rwa [swap_through_temporary hne hc hdt ht] at hlast

/-- A pointer from `any_cast` writes the object of its type, and no other. -/
theorem ends_writeThrough (h : m.Represents small s) :
    Ends small (m.writeThrough small c value)
      (if (s c).join.map Sigma.fst = some value.1 then Function.update s c (some (some value))
        else s) := by
  rw [writeThrough, h.operator_eq]
  by_cases htype : (s c).join.map Sigma.fst = some value.1
  · rw [if_neg (not_not.mpr htype), if_pos htype]
    obtain ⟨old, hold, hfst⟩ := Option.map_eq_some_iff.mp htype
    obtain ⟨a, hrep, rfl⟩ := h
    obtain ⟨obj, hobj⟩ := contents_eq_value_iff.mp (Option.join_eq_some_iff.mp hold)
    have htarget : m.target small c = some (obj, old) := by rw [hrep.target_eq, hobj]; rfl
    rw [htarget]
    exact ⟨_, rfl, _, hrep.write hobj hfst.symm, contents_update a _⟩
  · rw [if_pos htype, if_neg htype]
    exact ⟨m, rfl, h⟩

end Functions

end Memory

end Demos.Oak
