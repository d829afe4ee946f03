import GajaeCode.Json.RoundTrip

/-!
# Bounding the file bodies of edit results

A persisted edit result keeps the bodies of a file before and after the edit only up to a limit; a
longer body is replaced by a notice and a receipt. The walk returns at the first child that it
changes, so an object with several long bodies below it keeps some of them.

Values are trees: the set of visited objects, which only matters to shared ones, is left out.
-/

namespace GajaeCode.Session

open Text Json List JsValue

open JsValue (setField get_setField_of_ne)

variable {bounded value child : JsValue} {fields entry next : Fields}
  {key digestKey bodyKey : JsString} {items : List JsValue}

def editSnapshotInlineMaxChars : ℕ := 16 * 1024

def editSnapshotExternalizedNotice : JsString :=
  utf16 "[edit snapshot externalized: see oldTextDigest/newTextDigest; full body omitted from transcript]"

namespace SnapshotKey

def oldText : JsString := utf16 "oldText"
def newText : JsString := utf16 "newText"
def oldTextDigest : JsString := utf16 "oldTextDigest"
def newTextDigest : JsString := utf16 "newTextDigest"
def perFileResults : JsString := utf16 "perFileResults"

end SnapshotKey

open SnapshotKey (perFileResults oldText newText newTextDigest oldTextDigest)

/-- A string above the inline limit. -/
def isLongBody : JsValue → Bool
  | .str body => editSnapshotInlineMaxChars < body.length
  | _ => false

/-- A body of the object is above the limit. -/
def hasLongBody (fields : Fields) : Bool :=
  isLongBody ((JsValue.obj fields).get oldText) ||
    isLongBody ((JsValue.obj fields).get newText)

section

-- `sha256Hex`
variable (sha256 : JsString → JsString)

def editSnapshotReceipt (body : JsString) : JsValue :=
  .obj [(utf16 "bytes", .num (.ofNat (encodeUtf8 body).length)), (utf16 "sha256", .str (sha256 body))]

/-- One round of the loop over the pairs of keys; the body is read from the original entry. -/
def boundBody (entry : Fields) (bodyKey digestKey : JsString) (next : Fields) : Fields :=
  match (JsValue.obj entry).get bodyKey with
  | .str body =>
      if body.length ≤ editSnapshotInlineMaxChars then next
      else
        setField (setField next digestKey (editSnapshotReceipt sha256 body)) bodyKey
          (.str editSnapshotExternalizedNotice)
  | _ => next

/-- `boundOne`, or nothing if it returns the entry itself. -/
def boundOne (entry : Fields) : Option Fields :=
  if hasLongBody entry then
    some (boundBody sha256 entry newText newTextDigest
      (boundBody sha256 entry oldText oldTextDigest entry))
  else none

/-- `boundOne` on a child that is an object and no array. -/
def boundChild : JsValue → Option JsValue
  | .obj fields => (boundOne sha256 fields).map .obj
  | _ => none

/-- The first field whose child has a long body of its own, with the bounded child. -/
def firstBoundChild : Fields → Option (JsString × JsValue)
  | [] => none
  | (key, child) :: rest =>
      match boundChild sha256 child with
      | some bounded => some (key, bounded)
      | none => firstBoundChild rest

mutual

/-- The changed value, or nothing if the value itself is returned. -/
def boundedValue : JsValue → Option JsValue
  | .arr items => (boundedItems items).map .arr
  | .obj fields =>
      match firstBoundChild sha256 fields with
      | some (key, child) => some (.obj (setField fields key child))
      | none =>
          match firstBoundedField fields with
          | some (key, child) => some (.obj (setField fields key child))
          | none => (boundOne sha256 fields).map .obj
  | _ => none

/-- The items of an array, if any of them changes. -/
def boundedItems : List JsValue → Option (List JsValue)
  | [] => none
  | item :: rest =>
      match (boundChild sha256 item).or (boundedValue item), boundedItems rest with
      | none, none => none
      | head, tail => some (head.getD item :: tail.getD rest)

/-- The first field that the walk changes. -/
def firstBoundedField : Fields → Option (JsString × JsValue)
  | [] => none
  | (key, child) :: rest =>
      match boundedValue child with
      | some bounded => some (key, bounded)
      | none => firstBoundedField rest

end

def boundEditSnapshotFields (value : JsValue) : JsValue := (boundedValue sha256 value).getD value

end

/-! ## Long bodies at any depth -/

mutual

/-- Some object in the value has a long body. -/
def holdsLongBody : JsValue → Bool
  | .arr items => holdsLongBodyItems items
  | .obj fields => hasLongBody fields || holdsLongBodyFields fields
  | _ => false

def holdsLongBodyItems : List JsValue → Bool
  | [] => false
  | item :: rest => holdsLongBody item || holdsLongBodyItems rest

def holdsLongBodyFields : Fields → Bool
  | [] => false
  | (_, child) :: rest => holdsLongBody child || holdsLongBodyFields rest

end

/-- A body that the walk replaces, or what it replaces a body by. -/
def isReplaceable : JsValue → Bool
  | .str body => editSnapshotInlineMaxChars < body.length || body = editSnapshotExternalizedNotice
  | _ => false

/-- The members of an object that the walk may write. -/
def replaceableKeys (fields : Fields) : List JsString :=
  (if isReplaceable ((JsValue.obj fields).get oldText) then
    [oldText, oldTextDigest] else []) ++
  (if isReplaceable ((JsValue.obj fields).get newText) then
    [newText, newTextDigest] else [])

mutual

/-- The value without the members that the walk may write. -/
def withoutSnapshots : JsValue → JsValue
  | .arr items => .arr (withoutSnapshotsItems items)
  | .obj fields => .obj (withoutSnapshotsFields (replaceableKeys fields) fields)
  | value => value

def withoutSnapshotsItems : List JsValue → List JsValue
  | [] => []
  | item :: rest => withoutSnapshots item :: withoutSnapshotsItems rest

def withoutSnapshotsFields (dropped : List JsString) : Fields → Fields
  | [] => []
  | (key, child) :: rest =>
      if key ∈ dropped then withoutSnapshotsFields dropped rest
      else (key, withoutSnapshots child) :: withoutSnapshotsFields dropped rest

end

section

variable {sha256 : JsString → JsString}

theorem firstBoundChild_eq_findSome : firstBoundChild sha256 fields =
      fields.findSome? fun field ↦ (boundChild sha256 field.2).map (field.1, ·) := by
  induction fields with
  | nil => rfl
  | cons field rest ih =>
    rw [firstBoundChild, findSome?_cons, ih]
    cases boundChild sha256 field.2 <;> rfl

theorem firstBoundedField_eq_findSome : firstBoundedField sha256 fields =
      fields.findSome? fun field ↦ (boundedValue sha256 field.2).map (field.1, ·) := by
  induction fields with
  | nil => rw [firstBoundedField, findSome?_nil]
  | cons field rest ih =>
    rw [firstBoundedField, findSome?_cons, ih]
    cases boundedValue sha256 field.2 <;> rfl

/-- The first field whose child is changed. -/
theorem exists_of_findSome {change : JsValue → Option JsValue}
    (h : (fields.findSome? fun field ↦ (change field.2).map (field.1, ·)) = some (key, bounded)) :
    ∃ before child after, fields = before ++ (key, child) :: after ∧ change child = some bounded ∧
      ∀ field ∈ before, change field.2 = none := by
  obtain ⟨before, field, after, hsplit, hfield, hbefore⟩ := findSome?_eq_some_iff.mp h
  obtain ⟨_, hchild, heq⟩ := Option.map_eq_some_iff.mp hfield
  obtain ⟨rfl, rfl⟩ := heq
  exact ⟨before, field.2, after, hsplit, hchild, by simpa using hbefore⟩

theorem exists_of_firstBoundChild (h : firstBoundChild sha256 fields = some (key, bounded)) :
    ∃ child, (key, child) ∈ fields ∧ boundChild sha256 child = some bounded := by
  obtain ⟨_, child, _, hsplit, hchild, -⟩ := exists_of_findSome (firstBoundChild_eq_findSome ▸ h)
  exact ⟨child, by simp [hsplit], hchild⟩

theorem firstBoundedField_eq_none_iff :
    firstBoundedField sha256 fields = none ↔ ∀ field ∈ fields, boundedValue sha256 field.2 = none := by
  rw [firstBoundedField_eq_findSome]
  simp

theorem holdsLongBodyItems_eq_false_iff :
    holdsLongBodyItems items = false ↔ ∀ item ∈ items, holdsLongBody item = false := by
  induction items with
  | nil => simp [holdsLongBodyItems]
  | cons item rest ih => rw [holdsLongBodyItems, Bool.or_eq_false_iff, ih, forall_mem_cons]

theorem holdsLongBodyFields_eq_false_iff :
    holdsLongBodyFields fields = false ↔ ∀ field ∈ fields, holdsLongBody field.2 = false := by
  induction fields with
  | nil => simp [holdsLongBodyFields]
  | cons field rest ih => rw [holdsLongBodyFields, Bool.or_eq_false_iff, ih, forall_mem_cons]

theorem holdsLongBodyFields_of_mem (hmem : (key, child) ∈ fields) (h : holdsLongBody child) :
    holdsLongBodyFields fields := by
  rw [← Bool.not_eq_false, holdsLongBodyFields_eq_false_iff]
  exact fun hnone ↦ absurd (hnone _ hmem) (by simp [h])

theorem boundChild_eq_none_of (h : holdsLongBody child = false) : boundChild sha256 child = none := by
  cases child with
  | obj =>
    rw [holdsLongBody, Bool.or_eq_false_iff] at h
    rw [boundChild, boundOne, h.1]
    rfl
  | _ => rfl

/-- The walk bounds every item on its own. -/
theorem getD_boundedItems (items : List JsValue) : (boundedItems sha256 items).getD items =
      items.map fun item ↦ ((boundChild sha256 item).or (boundedValue sha256 item)).getD item := by
  induction items with
  | nil => rw [boundedItems, Option.getD_none, map_nil]
  | cons item rest ih =>
    rw [boundedItems, map_cons, ← ih]
    cases (boundChild sha256 item).or (boundedValue sha256 item) <;>
      cases boundedItems sha256 rest <;> rfl

theorem boundedItems_eq_none_iff
    (h : ∀ item ∈ items, boundedValue sha256 item = none ↔ holdsLongBody item = false) :
    boundedItems sha256 items = none ↔ holdsLongBodyItems items = false := by
  induction items with
  | nil => simp [boundedItems, holdsLongBodyItems]
  | cons item rest ih =>
    rw [forall_mem_cons] at h
    have hitem : (boundChild sha256 item).or (boundedValue sha256 item) = none ↔
        holdsLongBody item = false := by
      rw [Option.or_eq_none_iff, h.1]
      exact and_iff_right_of_imp boundChild_eq_none_of
    rw [boundedItems, holdsLongBodyItems, Bool.or_eq_false_iff, ← hitem, ← ih h.2]
    cases (boundChild sha256 item).or (boundedValue sha256 item) <;>
      cases boundedItems sha256 rest <;> simp

/-- The walk changes exactly the values with a long body at some depth. -/
theorem boundedValue_eq_none_iff (value : JsValue) :
    boundedValue sha256 value = none ↔ holdsLongBody value = false := by
  induction value with
  | arr items ih => rw [boundedValue, Option.map_eq_none_iff, boundedItems_eq_none_iff ih, holdsLongBody]
  | obj fields ih =>
    have hfields : (∀ field ∈ fields, boundedValue sha256 field.2 = none) ↔
        holdsLongBodyFields fields = false := by
      rw [holdsLongBodyFields_eq_false_iff]
      exact forall₂_congr ih
    have hchild : firstBoundedField sha256 fields = none → firstBoundChild sha256 fields = none := by
      rw [firstBoundedField_eq_none_iff, firstBoundChild_eq_findSome, findSome?_eq_none_iff]
      intro hnone field hfield
      rw [boundChild_eq_none_of ((ih field hfield).mp (hnone field hfield)), Option.map_none]
    rw [boundedValue, holdsLongBody, Bool.or_eq_false_iff, ← hfields, ← firstBoundedField_eq_none_iff]
    cases hfield : firstBoundedField sha256 fields with
    | some => cases firstBoundChild sha256 fields <;> simp
    | none => simp [hchild hfield, boundOne]
  | _ => simp [boundedValue, holdsLongBody]

/-! ## What a changed value looks like -/

/-- A changed object has one changed child, or its own bodies are bounded. -/
theorem boundedValue_obj_cases (h : boundedValue sha256 (.obj fields) = some bounded) :
    (∃ key child next, (key, child) ∈ fields ∧
      (boundChild sha256 child = some next ∨ boundedValue sha256 child = some next) ∧
        bounded = .obj (setField fields key next)) ∨
    ∃ next, boundOne sha256 fields = some next ∧ bounded = .obj next := by
  rw [boundedValue] at h
  split at h
  next key next hchild =>
    obtain ⟨child, hmem, hbound⟩ := exists_of_firstBoundChild hchild
    exact .inl ⟨key, child, next, hmem, .inl hbound, (Option.some.inj h).symm⟩
  next =>
    split at h
    next key next hfield =>
      obtain ⟨before, child, after, hsplit, hbound, -⟩ := exists_of_findSome (firstBoundedField_eq_findSome ▸ hfield)
      exact .inl ⟨key, child, next, by simp [hsplit], .inr hbound, (Option.some.inj h).symm⟩
    next =>
      obtain ⟨next, hnext, rfl⟩ := Option.map_eq_some_iff.mp h
      exact .inr ⟨next, hnext, rfl⟩

/-- Writing a member that is no long body leaves no body that was not there. -/
theorem hasLongBody_setField (hvalue : isLongBody value = false) (h : hasLongBody fields = false) :
    hasLongBody (setField fields key value) = false := by
  have hget : ∀ bodyKey, isLongBody ((obj fields).get bodyKey) = false →
      isLongBody ((obj (setField fields key value)).get bodyKey) = false := by
    intro bodyKey hbody
    by_cases hkey : bodyKey = key
    · rw [hkey, get_setField_self, hvalue]
    · rw [get_setField_of_ne fields value hkey, hbody]
  rw [hasLongBody, Bool.or_eq_false_iff] at h ⊢
  exact ⟨hget _ h.1, hget _ h.2⟩

theorem get_boundBody_of_ne (hbody : key ≠ bodyKey) (hdigest : key ≠ digestKey) :
    (obj (boundBody sha256 entry bodyKey digestKey next)).get key = (obj next).get key := by
  rw [boundBody]
  split
  · split_ifs
    · rfl
    · rw [get_setField_of_ne _ _ hbody, get_setField_of_ne _ _ hdigest]
  · rfl

theorem isLongBody_get_boundBody (h : (obj next).get bodyKey = (obj entry).get bodyKey) :
    isLongBody ((obj (boundBody sha256 entry bodyKey digestKey next)).get bodyKey) = false := by
  rw [boundBody]
  split
  next body hbody =>
    split_ifs with hshort
    · rw [h, hbody, isLongBody, decide_eq_false_iff_not, not_lt]
      exact hshort
    · rw [get_setField_self]
      decide +kernel
  next hother =>
    rw [h]
    cases hvalue : (obj entry).get bodyKey with
    | str body => exact absurd hvalue (hother body)
    | _ => rfl

/-! ## What stays -/

section

variable {dropped : List JsString}

theorem withoutSnapshotsFields_setField (h : key ∈ dropped) (value : JsValue) :
    withoutSnapshotsFields dropped (setField fields key value) =
      withoutSnapshotsFields dropped fields := by
  induction fields with
  | nil => simp [setField, withoutSnapshotsFields, h]
  | cons field rest ih =>
    rw [setField]
    split_ifs with hkey
    · rw [withoutSnapshotsFields, withoutSnapshotsFields, hkey, if_pos h, if_pos h]
    · rw [withoutSnapshotsFields, withoutSnapshotsFields, ih]

theorem withoutSnapshotsFields_boundBody (h : isReplaceable ((obj entry).get bodyKey) →
      bodyKey ∈ dropped ∧ digestKey ∈ dropped) :
    withoutSnapshotsFields dropped (boundBody sha256 entry bodyKey digestKey next) =
      withoutSnapshotsFields dropped next := by
  rw [boundBody]
  split
  next body hbody =>
    split_ifs with hshort
    · rfl
    · have hreplaceable : isReplaceable ((obj entry).get bodyKey) := by
        rw [hbody, isReplaceable, decide_eq_true (not_le.mp hshort), Bool.true_or]
      obtain ⟨hbodyKey, hdigestKey⟩ := h hreplaceable
      rw [withoutSnapshotsFields_setField hbodyKey, withoutSnapshotsFields_setField hdigestKey]
  next => rfl

/-- A child that is replaced by one with the same other members. -/
theorem withoutSnapshotsFields_replace
    (hnodup : (fields.map Prod.fst).Nodup) (hmem : (key, child) ∈ fields)
    (h : withoutSnapshots bounded = withoutSnapshots child) :
    withoutSnapshotsFields dropped (setField fields key bounded) =
      withoutSnapshotsFields dropped fields := by
  induction fields with
  | nil => exact absurd hmem not_mem_nil
  | cons field rest ih =>
    obtain ⟨key', value'⟩ := field
    rw [map_cons, nodup_cons] at hnodup
    rw [setField]
    rcases mem_cons.mp hmem with hfirst | hrest
    · obtain ⟨rfl, rfl⟩ := hfirst
      rw [if_pos rfl, withoutSnapshotsFields, withoutSnapshotsFields, h]
    · have hkey : key' ≠ key := by
        rintro rfl
        exact hnodup.1 (mem_map.mpr ⟨_, hrest, rfl⟩)
      rw [if_neg hkey, withoutSnapshotsFields, withoutSnapshotsFields, ih hnodup.2 hrest]

end

theorem isReplaceable_get_boundBody (h : (obj next).get bodyKey = (obj entry).get bodyKey) :
    isReplaceable ((obj (boundBody sha256 entry bodyKey digestKey next)).get bodyKey) =
      isReplaceable ((obj entry).get bodyKey) := by
  rw [boundBody]
  split
  next body hbody =>
    split_ifs with hshort
    · rw [h]
    · simp [get_setField_self, hbody, isReplaceable, not_le.mp hshort]
  next => rw [h]

/-- A bounded entry has no long body, and the same other members. -/
theorem boundOne_spec (h : boundOne sha256 entry = some next) :
    hasLongBody next = false ∧ (obj next).get perFileResults = (obj entry).get perFileResults ∧
      withoutSnapshots (.obj next) = withoutSnapshots (.obj entry) := by
  rw [boundOne] at h
  split_ifs at h
  cases h
  have hkeys : oldText ≠ newText ∧ oldText ≠ newTextDigest ∧ newText ≠ oldTextDigest := by decide
  have hnew : (obj (boundBody sha256 entry oldText oldTextDigest entry)).get newText = (obj entry).get newText :=
    get_boundBody_of_ne (Ne.symm hkeys.1) hkeys.2.2
  refine ⟨?_, ?_, ?_⟩
  · rw [hasLongBody, Bool.or_eq_false_iff, get_boundBody_of_ne hkeys.1 hkeys.2.1]
    exact ⟨isLongBody_get_boundBody rfl, isLongBody_get_boundBody hnew⟩
  · rw [get_boundBody_of_ne (by decide) (by decide), get_boundBody_of_ne (by decide) (by decide)]
  · rw [withoutSnapshots, withoutSnapshots, replaceableKeys, get_boundBody_of_ne hkeys.1 hkeys.2.1,
      isReplaceable_get_boundBody rfl, isReplaceable_get_boundBody hnew, ← replaceableKeys,
      withoutSnapshotsFields_boundBody (by simp +contextual [replaceableKeys]),
      withoutSnapshotsFields_boundBody (by simp +contextual [replaceableKeys])]

/-- Only an object is bounded as a child, and it becomes one. -/
theorem exists_of_boundChild (h : boundChild sha256 child = some bounded) :
    ∃ fields next, child = .obj fields ∧ bounded = .obj next ∧ boundOne sha256 fields = some next := by
  cases child with
  | obj fields =>
    obtain ⟨next, hnext, rfl⟩ := Option.map_eq_some_iff.mp h
    exact ⟨fields, next, rfl, rfl, hnext⟩
  | _ => cases h

theorem withoutSnapshots_boundChild (h : boundChild sha256 child = some bounded) :
    withoutSnapshots bounded = withoutSnapshots child := by
  obtain ⟨_, _, rfl, rfl, hnext⟩ := exists_of_boundChild h
  exact (boundOne_spec hnext).2.2

/-- No string: neither a body nor a notice. -/
def isNested : JsValue → Bool
  | .arr _ => true
  | .obj _ => true
  | _ => false

theorem not_body_of_isNested (h : isNested value) :
    isReplaceable value = false ∧ isLongBody value = false := by
  cases value with
  | arr | obj => exact ⟨rfl, rfl⟩
  | _ => cases h

theorem isNested_changed
    (h : boundChild sha256 child = some bounded ∨ boundedValue sha256 child = some bounded) :
    isNested child ∧ isNested bounded := by
  rcases h with h | h
  · obtain ⟨_, _, rfl, rfl, -⟩ := exists_of_boundChild h
    exact ⟨rfl, rfl⟩
  · cases child with
    | arr =>
      obtain ⟨next, -, rfl⟩ := Option.map_eq_some_iff.mp h
      exact ⟨rfl, rfl⟩
    | obj =>
      rcases boundedValue_obj_cases h with ⟨-, -, -, -, -, rfl⟩ | ⟨-, -, rfl⟩
      · exact ⟨rfl, rfl⟩
      · exact ⟨rfl, rfl⟩
    | _ => cases h

/-- A test of a member sees no difference when the member it replaces fails it as well. -/
theorem test_get_setField {test : JsValue → Bool}
    (hnodup : (fields.map Prod.fst).Nodup) (hmem : (key, child) ∈ fields) (hchild : test child = false)
    (hbounded : test bounded = false) (other : JsString) :
    test ((obj (setField fields key bounded)).get other) = test ((obj fields).get other) := by
  by_cases hother : other = key
  · rw [hother, get_setField_self, get_of_mem hnodup hmem, hchild, hbounded]
  · rw [get_setField_of_ne fields bounded hother]

theorem withoutSnapshots_replace (hnodup : (fields.map Prod.fst).Nodup) (hmem : (key, child) ∈ fields)
    (hnested : isNested child ∧ isNested bounded) (h : withoutSnapshots bounded = withoutSnapshots child) :
    withoutSnapshots (.obj (setField fields key bounded)) = withoutSnapshots (.obj fields) := by
  have htest := test_get_setField hnodup hmem (not_body_of_isNested hnested.1).1
    (not_body_of_isNested hnested.2).1
  have hkeys : replaceableKeys (setField fields key bounded) = replaceableKeys fields := by
    rw [replaceableKeys, replaceableKeys, htest, htest]
  rw [withoutSnapshots, withoutSnapshots, hkeys, withoutSnapshotsFields_replace hnodup hmem h]

theorem withoutSnapshotsItems_boundedItems
    (hitems : ∀ item ∈ items, ∀ bounded, boundedValue sha256 item = some bounded →
      withoutSnapshots bounded = withoutSnapshots item) :
    withoutSnapshotsItems ((boundedItems sha256 items).getD items) = withoutSnapshotsItems items := by
  rw [getD_boundedItems]
  induction items with
  | nil => rfl
  | cons item rest ih =>
    rw [forall_mem_cons] at hitems
    rw [map_cons, withoutSnapshotsItems, withoutSnapshotsItems, ih hitems.2]
    congr 1
    cases hbounded : (boundChild sha256 item).or (boundedValue sha256 item) with
    | none => rfl
    | some bounded =>
      rcases Option.or_eq_some_iff.mp hbounded with hchild | ⟨-, hvalue⟩
      · exact withoutSnapshots_boundChild hchild
      · exact hitems.1 bounded hvalue

/-- The walk keeps every other member at every depth. -/
theorem withoutSnapshots_boundedValue (value : JsValue) (hdist : value.DistinctKeys) :
    ∀ bounded, boundedValue sha256 value = some bounded →
      withoutSnapshots bounded = withoutSnapshots value := by
  induction value with
  | arr items ih =>
    intro bounded h
    rw [DistinctKeys, distinctKeysItems_iff] at hdist
    obtain ⟨results, hresults, rfl⟩ := Option.map_eq_some_iff.mp h
    have hitems := withoutSnapshotsItems_boundedItems fun item hitem ↦ ih item hitem (hdist item hitem)
    rw [hresults] at hitems
    exact congrArg arr hitems
  | obj fields ih =>
    intro bounded h
    rw [DistinctKeys, distinctKeysFields_iff] at hdist
    rcases boundedValue_obj_cases h with ⟨key, child, next, hmem, hchanged, rfl⟩ | ⟨next, hnext, rfl⟩
    · exact withoutSnapshots_replace hdist.1 hmem (isNested_changed hchanged)
        (hchanged.elim withoutSnapshots_boundChild (ih _ hmem (hdist.2 _ hmem) next))
    · exact (boundOne_spec hnext).2.2
  | _ =>
    intro bounded h
    cases h

/-! ## Per-file results -/

/-- An object with a long body of its own. -/
def isLongEntry : JsValue → Bool
  | .obj fields => hasLongBody fields
  | _ => false

/-- A per-file result has a long body. -/
def hasLongResult (value : JsValue) : Bool :=
  match value with
  | .arr results => results.any isLongEntry
  | _ => false

theorem boundChild_eq_none_iff : boundChild sha256 child = none ↔ isLongEntry child = false := by
  cases child with
  | obj fields =>
    rw [boundChild, boundOne, isLongEntry]
    cases hasLongBody fields <;> simp
  | _ => simp [boundChild, isLongEntry]

/-- The walk below an object without long bodies brings none up. -/
theorem isLongEntry_boundedValue (hvalue : isLongEntry value = false)
    (h : boundedValue sha256 value = some bounded) : isLongEntry bounded = false := by
  cases value with
  | arr =>
    obtain ⟨next, -, rfl⟩ := Option.map_eq_some_iff.mp h
    rfl
  | obj =>
    rcases boundedValue_obj_cases h with ⟨key, child, next, -, hchanged, rfl⟩ | ⟨next, hnext, rfl⟩
    · exact hasLongBody_setField (not_body_of_isNested (isNested_changed hchanged).2).2 hvalue
    · exact (boundOne_spec hnext).1
  | _ => cases h

theorem isLongEntry_of_holdsLongBody (h : holdsLongBody value = false) : isLongEntry value = false := by
  cases value with
  | obj =>
    rw [holdsLongBody, Bool.or_eq_false_iff] at h
    exact h.1
  | _ => rfl

theorem isLongEntry_getD (item : JsValue) :
    isLongEntry (((boundChild sha256 item).or (boundedValue sha256 item)).getD item) = false := by
  cases hitem : (boundChild sha256 item).or (boundedValue sha256 item) with
  | none =>
    obtain ⟨hchild, -⟩ := Option.or_eq_none_iff.mp hitem
    exact boundChild_eq_none_iff.mp hchild
  | some =>
    rcases Option.or_eq_some_iff.mp hitem with hchild | ⟨hnone, hvalue⟩
    · obtain ⟨_, _, -, rfl, hnext⟩ := exists_of_boundChild hchild
      exact (boundOne_spec hnext).1
    · exact isLongEntry_boundedValue (boundChild_eq_none_iff.mp hnone) hvalue

theorem hasLongResult_boundedValue
    (h : boundedValue sha256 value = some bounded) : hasLongResult bounded = false := by
  cases value with
  | arr items =>
    obtain ⟨results, hresults, rfl⟩ := Option.map_eq_some_iff.mp h
    have hitems : ∀ item ∈ (boundedItems sha256 items).getD items, isLongEntry item = false := by
      rw [getD_boundedItems, forall_mem_map]
      exact fun item _ ↦ isLongEntry_getD item
    rw [hresults] at hitems
    simpa [hasLongResult] using hitems
  | obj =>
    rcases boundedValue_obj_cases h with ⟨-, -, -, -, -, rfl⟩ | ⟨-, -, rfl⟩
    · rfl
    · rfl
  | _ => cases h

theorem hasLongResult_of_holdsLongBody (h : holdsLongBody value = false) :
    hasLongResult value = false := by
  cases value with
  | arr =>
    rw [holdsLongBody, holdsLongBodyItems_eq_false_iff] at h
    rw [hasLongResult, any_eq_false]
    intro result hres
    simp [isLongEntry_of_holdsLongBody (h result hres)]
  | _ => rfl

end

/-! ## The bound -/

/-- No body above the limit is left at the top or in a per-file result, and all else is as before. -/
structure SnapshotsBounded (details bounded : JsValue) : Prop where
  top : isLongEntry bounded = false
  results : hasLongResult (bounded.get perFileResults) = false
  others : withoutSnapshots bounded = withoutSnapshots details

/-- Long bodies of the object itself come with none below it. Long bodies of per-file results come
with none in a direct child, and with none below the members before the results. -/
def hasOneLongPlace : JsValue → Bool
  | .obj fields =>
      (!hasLongBody fields || !holdsLongBodyFields fields) &&
        (!hasLongResult ((JsValue.obj fields).get perFileResults) ||
          fields.all (fun field ↦ !isLongEntry field.2) &&
            !holdsLongBodyFields (fields.takeWhile fun field ↦ field.1 ≠ perFileResults))
  | _ => true

section

variable {sha256 : JsString → JsString} {fields : Fields} {key : JsString} {child bounded : JsValue}

/-- What is left to show after the walk stopped at a child. -/
theorem snapshotsBounded_replace_iff (hnodup : (fields.map Prod.fst).Nodup) (hmem : (key, child) ∈ fields)
    (hnested : isNested child ∧ isNested bounded)
    (hothers : withoutSnapshots bounded = withoutSnapshots child) :
    SnapshotsBounded (.obj fields) (.obj (setField fields key bounded)) ↔
      hasLongBody fields = false ∧ hasLongResult
        ((obj (setField fields key bounded)).get perFileResults) = false := by
  have htop : isLongEntry (.obj (setField fields key bounded)) = hasLongBody fields := by
    have htest := test_get_setField hnodup hmem (not_body_of_isNested hnested.1).2
      (not_body_of_isNested hnested.2).2
    rw [isLongEntry, hasLongBody, hasLongBody, htest, htest]
  constructor
  · intro h
    exact ⟨htop ▸ h.top, h.results⟩
  · intro h
    exact ⟨htop.trans h.1, h.2, withoutSnapshots_replace hnodup hmem hnested hothers⟩

theorem snapshotsBounded_of_boundChild (hnodup : (fields.map Prod.fst).Nodup) (hmem : (key, child) ∈ fields)
    (h : boundChild sha256 child = some bounded) :
    SnapshotsBounded (.obj fields) (.obj (setField fields key bounded)) ↔
      hasOneLongPlace (.obj fields) := by
  have hlong : isLongEntry child := by
    rw [← Bool.not_eq_false, ← boundChild_eq_none_iff, h]
    exact Option.some_ne_none bounded
  have hholds := holdsLongBodyFields_of_mem hmem (Bool.ne_false_iff.mp
    (mt isLongEntry_of_holdsLongBody (Bool.ne_false_iff.mpr hlong)))
  have hall : (fields.all fun field ↦ !isLongEntry field.2) = false := by
    rw [all_eq_false]
    exact ⟨_, hmem, by simp [hlong]⟩
  obtain ⟨hchild, hbounded⟩ : hasLongResult child = false ∧ hasLongResult bounded = false := by
    obtain ⟨_, _, rfl, rfl, -⟩ := exists_of_boundChild h
    exact ⟨rfl, rfl⟩
  rw [snapshotsBounded_replace_iff hnodup hmem (isNested_changed (.inl h)) (withoutSnapshots_boundChild h),
    test_get_setField hnodup hmem hchild hbounded, hasOneLongPlace, hholds, hall]
  simp

theorem takeWhile_before {before after : Fields} (hnodup : (fields.map Prod.fst).Nodup)
    (hsplit : fields = before ++ (key, child) :: after) :
    (fields.takeWhile fun field ↦ field.1 ≠ key) = before := by
  have hother : ∀ field ∈ before, decide (field.1 ≠ key) := by
    rw [hsplit, map_append, map_cons, nodup_append] at hnodup
    intro field hfield
    rw [decide_eq_true_eq]
    exact hnodup.2.2 field.1 (mem_map_of_mem hfield) key mem_cons_self
  rw [hsplit, takeWhile_append_of_pos hother, takeWhile_cons_of_neg (by simp), append_nil]

theorem snapshotsBounded_of_boundedValue {before after : Fields} (hsplit : fields = before ++ (key, child) :: after)
    (hnodup : (fields.map Prod.fst).Nodup) (hshort : ∀ field ∈ fields, isLongEntry field.2 = false)
    (hbefore : ∀ field ∈ before, boundedValue sha256 field.2 = none)
    (h : boundedValue sha256 child = some bounded)
    (hothers : withoutSnapshots bounded = withoutSnapshots child) :
    SnapshotsBounded (.obj fields) (.obj (setField fields key bounded)) ↔
      hasOneLongPlace (.obj fields) := by
  have hmem : (key, child) ∈ fields := by simp [hsplit]
  have hlong : holdsLongBody child := by
    rw [← Bool.not_eq_false, ← boundedValue_eq_none_iff, h]
    exact Option.some_ne_none bounded
  have hholds := holdsLongBodyFields_of_mem hmem hlong
  have hquiet : holdsLongBodyFields before = false := by
    rw [holdsLongBodyFields_eq_false_iff]
    exact fun field hfield ↦ (boundedValue_eq_none_iff field.2).mp (hbefore field hfield)
  have hall : (fields.all fun field ↦ !isLongEntry field.2) := by
    simpa using fun key child hfield ↦ hshort (key, child) hfield
  rw [snapshotsBounded_replace_iff hnodup hmem (isNested_changed (.inr h)) hothers, hasOneLongPlace, hholds, hall]
  have hresults : hasLongResult ((obj (setField fields key bounded)).get perFileResults) = false ↔
      hasLongResult ((obj fields).get perFileResults) = false ∨
        holdsLongBodyFields (fields.takeWhile fun field ↦ field.1 ≠ perFileResults) = false := by
    by_cases hkey : perFileResults = key
    · subst hkey
      rw [get_setField_self, takeWhile_before hnodup hsplit]
      exact iff_of_true (hasLongResult_boundedValue h) (.inr hquiet)
    · rw [get_setField_of_ne fields bounded hkey]
      refine ⟨Or.inl, fun hor ↦ hor.elim id fun hnone ↦ ?_⟩
      apply hasLongResult_of_holdsLongBody
      by_cases hname : ∃ field ∈ before, field.1 = perFileResults
      · obtain ⟨⟨_, value⟩, hfield, rfl⟩ := hname
        rw [get_of_mem hnodup (hsplit ▸ mem_append_left _ hfield)]
        exact holdsLongBodyFields_eq_false_iff.mp hquiet _ hfield
      · push Not at hname
        rw [hsplit, takeWhile_append_of_pos (by simpa using fun key value ↦ hname (key, value)),
          takeWhile_cons_of_pos (by simpa using Ne.symm hkey), holdsLongBodyFields_eq_false_iff] at hnone
        rw [hnone (key, child) (by simp)] at hlong
        cases hlong
  simp [hresults]

theorem holdsLongBody_get (h : holdsLongBodyFields fields = false) (key : JsString) :
    holdsLongBody ((obj fields).get key) = false := by
  rw [JsValue.get]
  cases hlookup : fields.lookup key with
  | none => rfl
  | some value => exact holdsLongBodyFields_eq_false_iff.mp h _ (Chain.mem_pairs_of_lookup hlookup)

theorem snapshotsBounded_boundOne (hquiet : holdsLongBodyFields fields = false) :
    SnapshotsBounded (.obj fields) (((boundOne sha256 fields).map obj).getD (.obj fields)) := by
  have hresults : hasLongResult ((obj fields).get perFileResults) = false :=
    hasLongResult_of_holdsLongBody (holdsLongBody_get hquiet _)
  cases hone : boundOne sha256 fields with
  | none =>
    refine ⟨?_, hresults, rfl⟩
    rw [boundOne] at hone
    split_ifs at hone with hlong
    exact Bool.not_eq_true _ ▸ hlong
  | some =>
    obtain ⟨htop, hget, hothers⟩ := boundOne_spec hone
    exact ⟨htop, hget ▸ hresults, hothers⟩

end

/-- The walk bounds the details exactly when at most one place has to be changed. -/
theorem boundEditSnapshotFields_bounds_iff (sha256 : JsString → JsString) (details : JsValue)
    (hdistinct : details.DistinctKeys) :
    SnapshotsBounded details (boundEditSnapshotFields sha256 details) ↔ hasOneLongPlace details = true := by
  have hothers : ∀ bounded, boundedValue sha256 details = some bounded →
      withoutSnapshots bounded = withoutSnapshots details :=
    withoutSnapshots_boundedValue details hdistinct
  rw [boundEditSnapshotFields]
  cases details with
  | obj fields =>
    rw [DistinctKeys, distinctKeysFields_iff] at hdistinct
    rw [boundedValue]
    cases hchild : firstBoundChild sha256 fields with
    | some =>
      obtain ⟨child, hmem, hbound⟩ := exists_of_firstBoundChild hchild
      exact snapshotsBounded_of_boundChild hdistinct.1 hmem hbound
    | none =>
      have hshort : ∀ field ∈ fields, isLongEntry field.2 = false := by
        rw [firstBoundChild_eq_findSome, findSome?_eq_none_iff] at hchild
        exact fun field hfield ↦ boundChild_eq_none_iff.mp (Option.map_eq_none_iff.mp (hchild field hfield))
      cases hfield : firstBoundedField sha256 fields with
      | some found =>
        obtain ⟨before, child, after, hsplit, hbound, hbefore⟩ := exists_of_findSome (firstBoundedField_eq_findSome ▸ hfield)
        have hmem : (found.1, child) ∈ fields := by simp [hsplit]
        exact snapshotsBounded_of_boundedValue hsplit hdistinct.1 hshort hbefore hbound
          (withoutSnapshots_boundedValue child (hdistinct.2 _ hmem) _ hbound)
      | none =>
        have hquiet : holdsLongBodyFields fields = false := by
          rw [holdsLongBodyFields_eq_false_iff]
          exact fun field hmem ↦
            (boundedValue_eq_none_iff field.2).mp (firstBoundedField_eq_none_iff.mp hfield field hmem)
        refine iff_of_true (snapshotsBounded_boundOne hquiet) ?_
        simp [hasOneLongPlace, hquiet, hasLongResult_of_holdsLongBody (holdsLongBody_get hquiet _)]
  | arr items =>
    refine iff_of_true ?_ rfl
    cases hbound : boundedValue sha256 (.arr items) with
    | none => exact ⟨rfl, rfl, rfl⟩
    | some =>
      obtain ⟨results, -, rfl⟩ := Option.map_eq_some_iff.mp hbound
      exact ⟨rfl, rfl, hothers _ hbound⟩
  | _ => exact iff_of_true ⟨rfl, rfl, rfl⟩ rfl

/-! ## A long body above a long per-file result -/

def sampleBody : JsString := List.replicate (editSnapshotInlineMaxChars + 1) 0x61

theorem isLongBody_sampleBody : isLongBody (.str sampleBody) := by
  simp [isLongBody, sampleBody]

/-- The per-file result of an edit of a large file. -/
def sampleResult : Fields := [(newText, .str []), (oldText, .str sampleBody)]

def sampleDetails (body : JsString) : JsValue :=
  .obj [(oldText, .str body), (perFileResults, .arr [.obj sampleResult])]

theorem hasLongBody_sampleResult : hasLongBody sampleResult :=
  (Bool.or_eq_true _ _).mpr (Or.inl isLongBody_sampleBody)

theorem distinctKeys_sampleDetails (body : JsString) : (sampleDetails body).DistinctKeys := by
  simp [sampleDetails, sampleResult, DistinctKeys, DistinctKeysFields, DistinctKeysItems]
  decide

/-- The body at the top stays, since the walk returns with the changed per-file result. -/
theorem long_body_stays_above_long_result : (sampleDetails sampleBody).DistinctKeys ∧
      ¬ SnapshotsBounded (sampleDetails sampleBody)
        (boundEditSnapshotFields (fun _ ↦ []) (sampleDetails sampleBody)) := by
  refine ⟨distinctKeys_sampleDetails _, fun h ↦ ?_⟩
  have hresults : boundedItems (fun _ ↦ []) [.obj sampleResult] ≠ none := by
    rw [ne_eq, boundedItems_eq_none_iff (fun item _ ↦ boundedValue_eq_none_iff item)]
    simp [holdsLongBodyItems, holdsLongBody, hasLongBody_sampleResult]
  obtain ⟨results, hresults⟩ := Option.ne_none_iff_exists'.mp hresults
  have htop := h.top
  simp only [boundEditSnapshotFields, sampleDetails, boundedValue, firstBoundChild, boundChild,
    firstBoundedField, hresults, Option.map_some, Option.getD_some, setField,
    if_neg (by decide : oldText ≠ perFileResults)] at htop
  rw [isLongEntry, hasLongBody, get_cons_self, isLongBody_sampleBody] at htop
  cases htop

/-- A short body above a long per-file result. -/
theorem short_body_above_long_result :
    SnapshotsBounded (sampleDetails []) (boundEditSnapshotFields (fun _ ↦ []) (sampleDetails [])) := by
  apply (boundEditSnapshotFields_bounds_iff _ _ (distinctKeys_sampleDetails [])).mpr
  rw [sampleDetails, hasOneLongPlace, Bool.and_eq_true, Bool.or_eq_true, Bool.or_eq_true]
  exact ⟨Or.inl rfl, Or.inr rfl⟩

end GajaeCode.Session
