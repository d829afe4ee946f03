import GajaeCode.Chain.Assoc
import GajaeCode.Json.Number

/-!
# Plain data values

The values a session entry is made of: what `JSON.parse` returns, and `undefined`. An object is
the list of its own properties in enumeration order. Functions over values recurse through three
mutually recursive definitions, one for values, one for array items and one for object fields, so
that they compute.
-/

namespace GajaeCode.Json

open Text List

inductive JsValue
  | undefined
  | null
  | bool (value : Bool)
  | num (value : Decimal)
  | str (text : JsString)
  | arr (items : List JsValue)
  | obj (fields : List (JsString × JsValue))

abbrev Fields := List (JsString × JsValue)

namespace JsValue

/-- Induction over values, with the hypothesis for every item and every field. -/
@[induction_eliminator]
theorem induct {motive : JsValue → Prop} (undefined : motive .undefined) (null : motive .null)
    (bool : ∀ value, motive (.bool value)) (num : ∀ value, motive (.num value))
    (str : ∀ text, motive (.str text))
    (arr : ∀ items, (∀ item ∈ items, motive item) → motive (.arr items))
    (obj : ∀ fields : Fields, (∀ field ∈ fields, motive field.2) → motive (.obj fields)) :
    ∀ value, motive value
  | .undefined => undefined
  | .null => null
  | .bool value => bool value
  | .num value => num value
  | .str text => str text
  | .arr items => arr items fun item _ ↦ induct undefined null bool num str arr obj item
  | .obj fields => obj fields fun field _ ↦ induct undefined null bool num str arr obj field.2
termination_by value => sizeOf value
decreasing_by
  · have := sizeOf_lt_of_mem ‹item ∈ items›
    simp only [JsValue.arr.sizeOf_spec]
    omega
  · have := sizeOf_lt_of_mem ‹field ∈ fields›
    have : sizeOf field.2 < sizeOf field := by
      obtain ⟨key, value⟩ := field
      simp only [Prod.mk.sizeOf_spec]
      omega
    simp only [JsValue.obj.sizeOf_spec]
    omega

mutual

/-- Structural equality. -/
def beq : JsValue → JsValue → Bool
  | undefined, undefined => true
  | null, null => true
  | bool left, bool right => left == right
  | num left, num right => left == right
  | str left, str right => left == right
  | arr left, arr right => beqItems left right
  | obj left, obj right => beqFields left right
  | _, _ => false

def beqItems : List JsValue → List JsValue → Bool
  | [], [] => true
  | left :: lefts, right :: rights => beq left right && beqItems lefts rights
  | _, _ => false

def beqFields : Fields → Fields → Bool
  | [], [] => true
  | (key, left) :: lefts, (key', right) :: rights =>
      key == key' && beq left right && beqFields lefts rights
  | _, _ => false

end

theorem beqItems_iff {left : List JsValue}
    (h : ∀ item ∈ left, ∀ other, beq item other ↔ item = other) (right : List JsValue) :
    beqItems left right ↔ left = right := by
  induction left generalizing right with
  | nil => cases right <;> simp [beqItems]
  | cons item rest ih =>
    cases right with
    | nil => simp [beqItems]
    | cons other others =>
      simp [beqItems, h item (mem_cons_self ..) other,
        ih (fun item hitem ↦ h item (mem_cons_of_mem _ hitem)) others]

theorem beqFields_iff {left : Fields}
    (h : ∀ field ∈ left, ∀ other, beq field.2 other ↔ field.2 = other) (right : Fields) :
    beqFields left right ↔ left = right := by
  induction left generalizing right with
  | nil => cases right <;> simp [beqFields]
  | cons field rest ih =>
    cases right with
    | nil => simp [beqFields]
    | cons other others =>
      simp [beqFields, h field (mem_cons_self ..) other.2, Prod.ext_iff,
        ih (fun field hfield ↦ h field (mem_cons_of_mem _ hfield)) others]

theorem beq_iff (left right : JsValue) : beq left right ↔ left = right := by
  induction left generalizing right with
  | arr items ih => cases right <;> simp [beq, beqItems_iff ih]
  | obj fields ih => cases right <;> simp [beq, beqFields_iff ih]
  | _ => cases right <;> simp [beq]

instance : DecidableEq JsValue := fun left right ↦ decidable_of_iff _ (beq_iff left right)

/-- Reading a property; absent properties and properties of non-objects are `undefined`. -/
def get (value : JsValue) (key : JsString) : JsValue :=
  match value with
  | obj fields => (fields.lookup key).getD .undefined
  | _ => .undefined

/-- `{ ...object, [key]: value }`: an existing property keeps its place. -/
def setField : Fields → JsString → JsValue → Fields
  | [], key, value => [(key, value)]
  | (key', value') :: rest, key, value =>
      if key' = key then (key, value) :: rest else (key', value') :: setField rest key value

theorem setField_eq_alter (fields : Fields) (key : JsString) (value : JsValue) :
    setField fields key value = Chain.alter (fun _ ↦ value) key fields := by
  induction fields with
  | nil => rfl
  | cons field rest ih => rw [setField, Chain.alter, ih]

theorem get_setField_of_ne (fields : Fields) {key key' : JsString} (value : JsValue)
    (h : key' ≠ key) : (obj (setField fields key value)).get key' = (obj fields).get key' := by
  rw [setField_eq_alter, get, Chain.lookup_alter, if_neg h, get]

def isUndefined : JsValue → Bool
  | undefined => true
  | _ => false

mutual

/-- The value that `JSON.parse(JSON.stringify(value))` has: `undefined` items become `null`,
`undefined` fields disappear. -/
def clean : JsValue → JsValue
  | undefined => null
  | null => null
  | bool value => bool value
  | num value => num value
  | str text => str text
  | arr items => arr (cleanItems items)
  | obj fields => obj (cleanFields fields)

def cleanItems : List JsValue → List JsValue
  | [] => []
  | item :: rest => clean item :: cleanItems rest

def cleanFields : Fields → Fields
  | [] => []
  | (key, value) :: rest =>
      if value.isUndefined then cleanFields rest else (key, clean value) :: cleanFields rest

end

mutual

/-- No object repeats a key. -/
def DistinctKeys : JsValue → Prop
  | arr items => DistinctKeysItems items
  | obj fields => (fields.map Prod.fst).Nodup ∧ DistinctKeysFields fields
  | _ => True

def DistinctKeysItems : List JsValue → Prop
  | [] => True
  | item :: rest => DistinctKeys item ∧ DistinctKeysItems rest

def DistinctKeysFields : Fields → Prop
  | [] => True
  | (_, value) :: rest => DistinctKeys value ∧ DistinctKeysFields rest

end

end JsValue

end GajaeCode.Json
