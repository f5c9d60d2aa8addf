import Demos.Lib.Ledger

/-!
# The type-erased container

An `Any` is an operator function, which stands for the type of the contained object, and a storage,
which holds a small object in place or a pointer to a heap object. Constructors and destructors of
contained objects are entries of a ledger. A constructor throws when the environment says so; moving
a small object does not throw. An operator that is called on a storage in which no live object of
its type stands is a misuse.
-/

namespace Demos.Oak

open Demos.Lib

/-- An object with its type. -/
abbrev Contained {Ty : Type} (Val : Ty → Type) := (ty : Ty) × Val ty

/-- The object as one of the given type. -/
def Contained.as {Ty : Type} [DecidableEq Ty] {Val : Ty → Type} (ty : Ty)
    (value : Contained Val) : Option (Val ty) :=
  if h : value.1 = ty then some (h ▸ value.2) else none

/-- `Storage`: what its bytes hold, an object in place, a pointer to one, or neither. The bytes stay
when their object is moved away or destroyed. -/
inductive Storage where
  | raw
  | buffer (obj : ℕ)
  | ptr (obj : ℕ)
deriving DecidableEq, Repr

/-- `Any`: the operator function by the type it is instantiated for. -/
structure AnyObject (Ty : Type) where
  operator : Option Ty
  storage : Storage := .raw
deriving DecidableEq

/-- The `Any` objects of the program by their names, and the temporary of an expression. -/
inductive Cell (Name : Type) where
  | named (name : Name)
  | temporary
deriving DecidableEq

/-- All `Any` objects that exist, and the ledger of the contained objects. -/
structure Memory (Name : Type) {Ty : Type} (Val : Ty → Type) where
  anys : Cell Name → Option (AnyObject Ty)
  ledger : Ledger (Contained Val)

/-- Why a function does not return: a constructor throws, or an operator is misused. -/
inductive AnyFault where
  | threw
  | misuse
deriving DecidableEq, Repr

/-- Where the object of a storage stands for an operator: `self->buffer` for a small type, and
`self->ptr` for another one. -/
def Storage.object (small : Bool) : Storage → Option ℕ
  | .raw => none
  | .buffer obj => if small then some obj else none
  | .ptr obj => if small then none else some obj

/-- The storage that holds an object. -/
def Storage.holding (small : Bool) (obj : ℕ) : Storage := if small then .buffer obj else .ptr obj

/-- An operator finds the object where its type holds it. -/
@[simp]
theorem Storage.object_holding (small : Bool) (obj : ℕ) :
    (Storage.holding small obj).object small = some obj := by
  cases small <;> rfl

namespace Memory

section Model

variable {Name Ty : Type} [DecidableEq Name] [DecidableEq Ty] {Val : Ty → Type}

/-- The result of a function: the memory, also where the function does not return. -/
abbrev Result (Name : Type) {Ty : Type} (Val : Ty → Type) :=
  Except (AnyFault × Memory Name Val) (Memory Name Val)

/-- The program before any object exists. -/
def initial : Memory Name Val where
  anys _ := none
  ledger := .empty

/-- Set an `Any` object. -/
def put (m : Memory Name Val) (c : Cell Name) (any : AnyObject Ty) : Memory Name Val :=
  { m with anys := Function.update m.anys c (some any) }

/-- The `Any` object is gone, or its constructor did not return. -/
def discard (m : Memory Name Val) (c : Cell Name) : Memory Name Val :=
  { m with anys := Function.update m.anys c none }

/-- `c.operator_`. -/
def operator (m : Memory Name Val) (c : Cell Name) : Option Ty :=
  (m.anys c).bind AnyObject.operator

/-- `c.operator_ = op`. -/
def setOperator (m : Memory Name Val) (c : Cell Name) (op : Option Ty) : Memory Name Val :=
  { m with anys := Function.update m.anys c ((m.anys c).map ({ · with operator := op })) }

/-- Write the bytes of `c.storage_`. -/
def setStorage (m : Memory Name Val) (c : Cell Name) (storage : Storage) : Memory Name Val :=
  { m with anys := Function.update m.anys c ((m.anys c).map ({ · with storage := storage })) }

/-- `has_value`. -/
def hasValue (m : Memory Name Val) (c : Cell Name) : Bool := (m.operator c).isSome

variable (small : Ty → Bool)

/-- The object that the operator of `c` works on, with its value: a live object of the type of the
operator where that operator looks for it. -/
def target (m : Memory Name Val) (c : Cell Name) : Option (ℕ × Contained Val) := do
  let any ← m.anys c
  let ty ← any.operator
  let obj ← any.storage.object (small ty)
  let value ← m.ledger.live obj
  if value.1 = ty then some (obj, value) else none

/-- `Operators<Tp>::Construct` on `c.storage_`. -/
def construct (c : Cell Name) (value : Contained Val) (throws : Bool) (m : Memory Name Val) :
    Result Name Val :=
  if throws then .error (.threw, if small value.1 then m.setStorage c .raw else m)
  else
    let m' := m.setStorage c (.holding (small value.1) m.ledger.next)
    .ok { m' with ledger := m.ledger.create value }

/-- `Ops::COPY` from the storage of `other` to that of `c`. -/
def copyOp (other c : Cell Name) (throws : Bool) (m : Memory Name Val) : Result Name Val :=
  match m.target small other with
  | none => .error (.misuse, m)
  | some (_, value) => construct small c value throws m

/-- `Ops::MOVE` from the storage of `other` to that of `c`: a small object is moved into a new one
and destroyed, a heap object only changes hands. -/
def moveOp (other c : Cell Name) (m : Memory Name Val) : Result Name Val :=
  match m.target small other with
  | none => .error (.misuse, m)
  | some (obj, value) =>
    if small value.1 then do
      let m ← construct small c value false m
      return { m with ledger := m.ledger.destroy obj }
    else return m.setStorage c (.ptr obj)

/-- `Ops::DESTRUCT`. -/
def destructOp (c : Cell Name) (m : Memory Name Val) : Result Name Val :=
  match m.target small c with
  | none => .error (.misuse, m)
  | some (obj, _) => .ok { m with ledger := m.ledger.destroy obj }

/-- `Ops::GET`, whose result is only used as a reference. -/
def getOp (c : Cell Name) (m : Memory Name Val) : Result Name Val :=
  match m.target small c with
  | none => .error (.misuse, m)
  | some _ => .ok m

/-- `reset`. -/
def reset (c : Cell Name) (m : Memory Name Val) : Result Name Val :=
  if m.hasValue c then do
    let m ← m.destructOp small c
    return m.setOperator c none
  else return m

/-- `~Any`. -/
def destroy (c : Cell Name) (m : Memory Name Val) : Result Name Val := do
  let m ← m.reset small c
  return m.discard c

/-- A constructor whose body does not return leaves no object. -/
def inConstructor (c : Cell Name) : Result Name Val → Result Name Val
  | .ok m => .ok m
  | .error (fault, m) => .error (fault, m.discard c)

/-- `Any()`. -/
def defaultConstruct (c : Cell Name) (m : Memory Name Val) : Result Name Val :=
  .ok (m.put c { operator := none })

/-- `Any(value)` and `Any(in_place_type<Tp>, args...)`, which sets the operator first. -/
def valueConstruct (c : Cell Name) (value : Contained Val) (throws : Bool)
    (m : Memory Name Val) : Result Name Val :=
  inConstructor c (construct small c value throws (m.put c { operator := some value.1 }))

/-- The copy constructor. Its operator has no value until the body sets it. -/
def copyConstruct (c other : Cell Name) (throws : Bool) (m : Memory Name Val) : Result Name Val :=
  let m := m.put c { operator := none }
  inConstructor c <|
    if m.hasValue other then do
      let m ← m.copyOp small other c throws
      return m.setOperator c (m.operator other)
    else return m.setOperator c none

/-- The part that the move constructor and the move assignment share. -/
def takeOver (c other : Cell Name) (m : Memory Name Val) : Result Name Val := do
  let m ← m.moveOp small other c
  let m := m.setOperator c (m.operator other)
  return m.setOperator other none

/-- The move constructor. -/
def moveConstruct (c other : Cell Name) (m : Memory Name Val) : Result Name Val :=
  let m := m.put c { operator := none }
  inConstructor c <|
    if m.hasValue other then m.takeOver small c other
    else return m.setOperator c none

/-- `operator=(Any&&)`. -/
def moveAssign (this rhs : Cell Name) (m : Memory Name Val) : Result Name Val :=
  if rhs ≠ this then do
    let m ← m.reset small this
    if m.hasValue rhs then m.takeOver small this rhs
    else return m
  else return m

/-- `operator=(const Any&)`. -/
def copyAssign (this rhs : Cell Name) (throws : Bool) (m : Memory Name Val) :
    Result Name Val := do
  let m ← m.copyConstruct small .temporary rhs throws
  let m ← m.moveAssign small this .temporary
  m.destroy small .temporary

/-- `operator=(Tp&&)`. -/
def convertAssign (this : Cell Name) (value : Contained Val) (throws : Bool)
    (m : Memory Name Val) : Result Name Val := do
  let m ← m.valueConstruct small .temporary value throws
  let m ← m.moveAssign small this .temporary
  m.destroy small .temporary

/-- `emplace`. -/
def emplace (c : Cell Name) (value : Contained Val) (throws : Bool) (m : Memory Name Val) :
    Result Name Val := do
  let m ← m.reset small c
  let m ← construct small c value throws m
  let m := m.setOperator c (some value.1)
  m.getOp small c

/-- `swap`. -/
def swap (this other : Cell Name) (m : Memory Name Val) : Result Name Val :=
  if this = other ∨ (m.hasValue this = false ∧ m.hasValue other = false) then return m
  else do
    let m ← m.moveConstruct small .temporary this
    let m ← m.moveAssign small this other
    let m ← m.moveAssign small other .temporary
    m.destroy small .temporary

/-- `any_cast<Tp>(&c)`, with the object that the returned pointer points to. -/
def anyCast (ty : Ty) (c : Cell Name) (m : Memory Name Val) : Except AnyFault (Option (Val ty)) :=
  if m.operator c ≠ some ty then .ok none
  else
    match m.target small c with
    | none => .error .misuse
    | some (_, value) => .ok (value.as ty)

/-- Assign through the pointer that `any_cast<Tp>(&c)` returns, unless it is null. -/
def writeThrough (c : Cell Name) (value : Contained Val) (m : Memory Name Val) : Result Name Val :=
  if m.operator c ≠ some value.1 then .ok m
  else
    match m.target small c with
    | none => .error (.misuse, m)
    | some (obj, _) => .ok { m with ledger := m.ledger.write obj value }

end Model

end Memory

/-- The operations on the named objects. A flag says whether the constructor of the contained object
throws, if one is called that may. -/
inductive AnyOp (Name : Type) {Ty : Type} (Val : Ty → Type) where
  | defaultConstruct (c : Name)
  | valueConstruct (c : Name) (value : Contained Val) (throws : Bool)
  | copyConstruct (c other : Name) (throws : Bool)
  | moveConstruct (c other : Name)
  | copyAssign (this rhs : Name) (throws : Bool)
  | moveAssign (this rhs : Name)
  | convertAssign (this : Name) (value : Contained Val) (throws : Bool)
  | emplace (c : Name) (value : Contained Val) (throws : Bool)
  | reset (c : Name)
  | swap (this other : Name)
  | destroy (c : Name)
  | writeThrough (c : Name) (value : Contained Val)

namespace AnyOp

variable {Name Ty : Type} [DecidableEq Name] [DecidableEq Ty] {Val : Ty → Type}

/-- Call an operation. -/
def perform (small : Ty → Bool) : AnyOp Name Val → Memory Name Val → Memory.Result Name Val
  | .defaultConstruct c => Memory.defaultConstruct (.named c)
  | .valueConstruct c value throws => Memory.valueConstruct small (.named c) value throws
  | .copyConstruct c other throws => Memory.copyConstruct small (.named c) (.named other) throws
  | .moveConstruct c other => Memory.moveConstruct small (.named c) (.named other)
  | .copyAssign this rhs throws => Memory.copyAssign small (.named this) (.named rhs) throws
  | .moveAssign this rhs => Memory.moveAssign small (.named this) (.named rhs)
  | .convertAssign this value throws => Memory.convertAssign small (.named this) value throws
  | .emplace c value throws => Memory.emplace small (.named c) value throws
  | .reset c => Memory.reset small (.named c)
  | .swap this other => Memory.swap small (.named this) (.named other)
  | .destroy c => Memory.destroy small (.named c)
  | .writeThrough c value => Memory.writeThrough small (.named c) value

/-- The names of the objects that the operation is called on. -/
def uses : AnyOp Name Val → List Name
  | .defaultConstruct _ => []
  | .valueConstruct _ _ _ => []
  | .copyConstruct _ other _ => [other]
  | .moveConstruct _ other => [other]
  | .copyAssign this rhs _ => [this, rhs]
  | .moveAssign this rhs => [this, rhs]
  | .convertAssign this _ _ => [this]
  | .emplace c _ _ => [c]
  | .reset c => [c]
  | .swap this other => [this, other]
  | .destroy c => [c]
  | .writeThrough c _ => [c]

/-- The name of the object that the operation constructs. -/
def makes : AnyOp Name Val → Option Name
  | .defaultConstruct c => some c
  | .valueConstruct c _ _ => some c
  | .copyConstruct c _ _ => some c
  | .moveConstruct c _ => some c
  | _ => none

/-- The operation is called on objects that exist and constructs one that does not. -/
def Applies (op : AnyOp Name Val) (m : Memory Name Val) : Prop :=
  (∀ c ∈ op.uses, (m.anys (.named c)).isSome) ∧ ∀ c ∈ op.makes, m.anys (.named c) = none

end AnyOp

/-- The operation is called, and it returns or throws. -/
def AnyStep {Name Ty : Type} [DecidableEq Name] [DecidableEq Ty] {Val : Ty → Type}
    (small : Ty → Bool) (m : Memory Name Val) (op : AnyOp Name Val) (m' : Memory Name Val) : Prop :=
  op.Applies m ∧ (op.perform small m = .ok m' ∨ op.perform small m = .error (.threw, m'))

end Demos.Oak
