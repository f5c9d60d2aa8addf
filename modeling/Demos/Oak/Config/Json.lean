import Demos.Lib.SlotLoop
import Demos.Oak.Text

/-!
# JSON values

The part of the vendored JSON library that the configuration code uses: values, the lookup of a
member, the assignment to a member and the conversions, each with the inputs it throws on. The
integer and the unsigned kind of a number are one kind here: the reader makes every number from
`2 ^ 31` on unsigned and every smaller one signed, so the value tells the kind, which only the text
of an error depends on. What the library does with a floating-point number is a parameter.
-/

namespace Demos.Oak

open Demos.Lib

/-- `Json2::Value`; the members of an object stand in the order of the map that holds them. -/
inductive Json (R : Type) where
  | null
  | bool (value : Bool)
  | int (value : ℤ)
  | real (value : R)
  | string (text : Bytes)
  | array (items : List (Json R))
  | object (members : List (Bytes × Json R))

/-- The conversions of a floating-point number: to the unsigned types where it is in range, to
text, and whether it counts as false. -/
structure RealOps (R : Type) where
  toUInt : R → Option UInt32
  toUInt64 : R → Option UInt64
  text : R → Bytes
  isFalse : R → Bool

variable {R A : Type} {real : RealOps R}

/-- `asString`. -/
def Json.asString (real : RealOps R) : Json R → Except Fault Bytes
  | .null => .ok []
  | .string text => .ok text
  | .bool value => .ok (if value then ascii "true" else ascii "false")
  | .int value => .ok (formatLd value)
  | .real value => .ok (real.text value)
  | _ => .error (.logicError "Type is not convertible to string")

/-- `asUInt`. -/
def Json.asUInt (real : RealOps R) : Json R → Except Fault UInt32
  | .int value =>
    if 0 ≤ value ∧ value < 2 ^ 32 then .ok (UInt32.ofNat value.toNat)
    else if value < 0 then .error (.logicError "LargestInt out of UInt range")
    else .error (.logicError "LargestUInt out of UInt range")
  | .real value =>
    match real.toUInt value with
    | some number => .ok number
    | none => .error (.logicError "double out of UInt range")
  | .null => .ok 0
  | .bool value => .ok (if value then 1 else 0)
  | _ => .error (.logicError "Value is not convertible to UInt.")

/-- `asUInt64`. -/
def Json.asUInt64 (real : RealOps R) : Json R → Except Fault UInt64
  | .int value =>
    if 0 ≤ value ∧ value < 2 ^ 64 then .ok (UInt64.ofNat value.toNat)
    else .error (.logicError "LargestInt out of UInt64 range")
  | .real value =>
    match real.toUInt64 value with
    | some number => .ok number
    | none => .error (.logicError "double out of UInt64 range")
  | .null => .ok 0
  | .bool value => .ok (if value then 1 else 0)
  | _ => .error (.logicError "Value is not convertible to UInt64.")

/-- `asBool`. -/
def Json.asBool (real : RealOps R) : Json R → Except Fault Bool
  | .bool value => .ok value
  | .null => .ok false
  | .int value => .ok (value ≠ 0)
  | .real value => .ok (!real.isFalse value)
  | _ => .error (.logicError "Value is not convertible to bool.")

/-- The member of this name in the map of members. -/
def findMember (key : Bytes) : List (Bytes × Json R) → Option (Json R)
  | [] => none
  | entry :: rest => if key = entry.1 then some entry.2 else findMember key rest

/-- `find`: the member of an object; a null value has none. -/
def Json.find (key : Bytes) : Json R → Except Fault (Option (Json R))
  | .null => .ok none
  | .object members => .ok (findMember key members)
  | _ => .error (.logicError "in Json2::Value::find(begin, end): requires objectValue or nullValue")

/-- `operator[]` on a constant value. -/
def Json.get (key : Bytes) (node : Json R) : Except Fault (Json R) :=
  (node.find key).map fun found => found.getD .null

/-- `getMemberNames`. -/
def Json.getMemberNames : Json R → Except Fault (List Bytes)
  | .null => .ok []
  | .object members => .ok (members.map Prod.fst)
  | _ => .error
      (.logicError "in Json2::Value::getMemberNames(), value must be objectValue")

/-- The assignment to a member: the map of members is ordered by key and has each key once. -/
def setMember (key : Bytes) (value : Json R) : List (Bytes × Json R) → List (Bytes × Json R)
  | [] => [(key, value)]
  | entry :: rest =>
    match compare key entry.1 with
    | .lt => (key, value) :: entry :: rest
    | .eq => (key, value) :: rest
    | .gt => entry :: setMember key value rest

/-- `if (node.isMember(key)) field = convert(node[key])`. -/
def Json.read (node : Json R) (key : Bytes) (convert : Json R → Except Fault A) (field : A) :
    Except Fault A := do
  match ← node.find key with
  | some value => convert value
  | none => return field

@[simp]
theorem Json.find_object (key : Bytes) (members : List (Bytes × Json R)) :
    (Json.object members).find key = .ok (findMember key members) := rfl

/-- A field is read from its member, or keeps its value. -/
theorem Json.read_eq_ok_iff {node : Json R} {key : Bytes} {convert : Json R → Except Fault A}
    {field a : A} :
    node.read key convert field = .ok a ↔
      (∃ value, node.find key = .ok (some value) ∧ convert value = .ok a) ∨
        (node.find key = .ok none ∧ a = field) := by
  unfold read
  rw [bind_eq_ok_iff]
  constructor
  · rintro ⟨found, hfound, hresult⟩
    cases found with
    | none =>
      cases hresult
      exact .inr ⟨hfound, rfl⟩
    | some value => exact .inl ⟨value, hfound, hresult⟩
  · rintro (⟨value, hfound, hconvert⟩ | ⟨hfound, rfl⟩)
    · exact ⟨some value, hfound, hconvert⟩
    · exact ⟨none, hfound, rfl⟩

/-- Looking a member up after an assignment. -/
theorem findMember_setMember (key key' : Bytes) (value : Json R)
    (members : List (Bytes × Json R)) :
    findMember key' (setMember key value members) =
      if key' = key then some value else findMember key' members := by
  induction members with
  | nil => rfl
  | cons entry rest ih =>
    unfold setMember
    cases hcompare : compare key entry.1 with
    | lt => rfl
    | eq =>
      have hentry : key = entry.1 := by simpa using hcompare
      by_cases hkey : key' = key <;> simp [findMember, hkey, ← hentry]
    | gt =>
      have hentry : key ≠ entry.1 := by
        intro heq
        simp [heq] at hcompare
      by_cases hkey : key' = key
      · subst hkey
        simpa [findMember, hentry] using ih
      · simp [findMember, ih, hkey]

/-- The names of an object are those that a lookup finds. -/
theorem mem_map_fst_iff (members : List (Bytes × Json R)) (key : Bytes) :
    key ∈ members.map Prod.fst ↔ ∃ value, findMember key members = some value := by
  induction members with
  | nil => simp [findMember]
  | cons entry rest ih =>
    by_cases hkey : key = entry.1
    · simp [findMember, hkey]
    · simp only [List.map_cons, List.mem_cons, hkey, false_or, findMember, if_false, ih]

section Assignments

variable {E : Type} {name : E → Bytes} {content : E → Json R} {entries : List E}
  {members : List (Bytes × Json R)} {key : Bytes} {value : Json R}

/-- A loop of assignments leaves the members whose key it never assigns. -/
theorem findMember_foldl_of_ne (hkey : ∀ entry ∈ entries, name entry ≠ key) :
    findMember key (entries.foldl
      (fun members entry => setMember (name entry) (content entry) members) members) =
      findMember key members := by
  induction entries generalizing members with
  | nil => rfl
  | cons entry rest ih =>
    rw [List.foldl_cons, ih fun e he => hkey e (by simp [he]), findMember_setMember,
      if_neg (Ne.symm (hkey entry (by simp)))]

/-- A loop of assignments leaves the content that all its entries for the key agree on. -/
theorem findMember_foldl (hmem : ∃ entry ∈ entries, name entry = key)
    (hagree : ∀ entry ∈ entries, name entry = key → content entry = value) :
    findMember key (entries.foldl
      (fun members entry => setMember (name entry) (content entry) members) members) =
      some value := by
  induction entries generalizing members with
  | nil => simp at hmem
  | cons first rest ih =>
    rw [List.foldl_cons]
    by_cases hlater : ∃ entry ∈ rest, name entry = key
    · exact ih hlater fun e he => hagree e (by simp [he])
    · push Not at hlater
      have hfirst : name first = key := by
        obtain ⟨entry, hentry, hname⟩ := hmem
        rcases List.mem_cons.mp hentry with rfl | hrest
        · exact hname
        · exact absurd hname (hlater entry hrest)
      rw [findMember_foldl_of_ne hlater, findMember_setMember, if_pos hfirst.symm,
        hagree first (by simp) hfirst]

end Assignments

end Demos.Oak
