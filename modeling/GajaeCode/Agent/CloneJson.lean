import GajaeCode.Json.Parse

/-!
# `cloneJson`

A deep copy that keeps what `JSON.stringify` would write: `undefined` items become `null` and
`undefined` fields disappear. It assigns the fields of the copy one by one, so an own field named
`__proto__` is not copied either. Values with the same JSON text have the same clone, and a clone
is its own clone.
-/

namespace GajaeCode.Agent

open Text Json List JsValue

/-- Assigning this key sets the prototype of the copy and creates no field. -/
def protoKey : JsString := utf16 "__proto__"

mutual

def cloneJson : JsValue → JsValue
  | .undefined => .undefined
  | .null => .null
  | .bool value => .bool value
  | .num value => .num value
  | .str text => .str text
  | .arr items => .arr (cloneItems items)
  | .obj fields => .obj (cloneFields fields)

def cloneItems : List JsValue → List JsValue
  | [] => []
  | item :: rest =>
      (if (cloneJson item).isUndefined then .null else cloneJson item) :: cloneItems rest

def cloneFields : Fields → Fields
  | [] => []
  | (key, value) :: rest =>
      if (cloneJson value).isUndefined || key = protoKey then cloneFields rest
      else (key, cloneJson value) :: cloneFields rest

end

theorem isUndefined_cloneJson (value : JsValue) :
    (cloneJson value).isUndefined = value.isUndefined := by
  cases value <;> rfl

/-- The copy of an array item is the copy of the cleaned item. -/
theorem cloneItems_cons {item : JsValue} (rest : List JsValue)
    (h : item.isUndefined = false → cloneJson item.clean = cloneJson item) :
    cloneItems (item :: rest) = cloneJson item.clean :: cloneItems rest := by
  rw [cloneItems, isUndefined_cloneJson]
  cases hundef : item.isUndefined with
  | false => simp [h hundef]
  | true =>
    have hitem : item = .undefined := by
      cases item <;> simp_all [isUndefined]
    simp [hitem, clean, cloneJson]

theorem cloneItems_cleanItems {items : List JsValue}
    (h : ∀ item ∈ items, item.isUndefined = false → cloneJson item.clean = cloneJson item) :
    cloneItems (cleanItems items) = cloneItems items := by
  induction items with
  | nil => rfl
  | cons item rest ih =>
    have ih := ih fun item hitem ↦ h item (mem_cons_of_mem _ hitem)
    rw [cloneItems_cons rest (h item (mem_cons_self ..)), cleanItems,
      cloneItems, isUndefined_cloneJson, isUndefined_clean, ih]
    simp

theorem cloneFields_cleanFields {fields : Fields}
    (h : ∀ field ∈ fields, field.2.isUndefined = false →
      cloneJson field.2.clean = cloneJson field.2) :
    cloneFields (cleanFields fields) = cloneFields fields := by
  induction fields with
  | nil => rfl
  | cons field rest ih =>
    obtain ⟨key, value⟩ := field
    have ih := ih fun field hfield ↦ h field (mem_cons_of_mem _ hfield)
    have hvalue := h (key, value) (mem_cons_self ..)
    rw [cleanFields, cloneFields, isUndefined_cloneJson]
    cases hundef : value.isUndefined with
    | true => simpa using ih
    | false =>
      simp only [Bool.false_eq_true, if_false, Bool.false_or]
      rw [cloneFields, isUndefined_cloneJson, isUndefined_clean, hvalue hundef, ih]
      simp

/-- Cloning does not see `undefined` parts. -/
theorem cloneJson_clean (value : JsValue) (h : value.isUndefined = false) :
    cloneJson value.clean = cloneJson value := by
  induction value with
  | undefined => simp [isUndefined] at h
  | arr items ih => rw [clean, cloneJson, cloneJson, cloneItems_cleanItems ih]
  | obj fields ih => rw [clean, cloneJson, cloneJson, cloneFields_cleanFields ih]
  | _ => rfl

/-- Objects with the same JSON text have the same clone. -/
theorem cloneFields_eq_of_valueText_eq {left right : Fields}
    (h : valueText (.obj left) = valueText (.obj right)) : cloneFields left = cloneFields right := by
  have hclean := clean_eq_of_valueText_eq h
  have hleft := cloneJson_clean (.obj left) rfl
  rw [hclean, cloneJson_clean (.obj right) rfl, cloneJson, cloneJson] at hleft
  exact (obj.inj hleft).symm

theorem cloneItems_cloneItems {items : List JsValue}
    (h : ∀ item ∈ items, cloneJson (cloneJson item) = cloneJson item) :
    cloneItems (cloneItems items) = cloneItems items := by
  induction items with
  | nil => rfl
  | cons item rest ih =>
    rw [cloneItems, cloneItems, ih fun item hitem ↦ h item (mem_cons_of_mem _ hitem)]
    cases hundef : (cloneJson item).isUndefined with
    | true => simp [cloneJson, isUndefined]
    | false => simp [h item (mem_cons_self ..), hundef]

theorem cloneFields_cloneFields_of {fields : Fields}
    (h : ∀ field ∈ fields, cloneJson (cloneJson field.2) = cloneJson field.2) :
    cloneFields (cloneFields fields) = cloneFields fields := by
  induction fields with
  | nil => rfl
  | cons field rest ih =>
    obtain ⟨key, value⟩ := field
    have ih := ih fun field hfield ↦ h field (mem_cons_of_mem _ hfield)
    rw [cloneFields]
    split_ifs with hskip
    · exact ih
    · rw [cloneFields, h (key, value) (mem_cons_self ..), if_neg hskip, ih]

theorem cloneJson_cloneJson (value : JsValue) : cloneJson (cloneJson value) = cloneJson value := by
  induction value with
  | arr items ih => rw [cloneJson, cloneJson, cloneItems_cloneItems ih]
  | obj fields ih => rw [cloneJson, cloneJson, cloneFields_cloneFields_of ih]
  | _ => rfl

/-- A clone is its own clone. -/
theorem cloneFields_cloneFields (fields : Fields) :
    cloneFields (cloneFields fields) = cloneFields fields :=
  cloneFields_cloneFields_of fun field _ ↦ cloneJson_cloneJson field.2

end GajaeCode.Agent
