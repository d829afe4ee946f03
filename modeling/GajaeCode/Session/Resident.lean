import GajaeCode.Json.Value
import GajaeCode.Machine.Checks
import GajaeCode.Session.BlobRef

/-!
# Resident externalization

Entries kept in memory have their large strings replaced by sentinels that refer to a blob, and
the sentinels are resolved when the entry is read. Writing and reading are two separate walks.
`externalizeResidentValueSync` returns the new value together with the blobs it puts, and
`materializeResidentValueSync` reads from stores that are assumed to return those blobs. The
cache of the reading walk only saves repeated reads and is left out.
-/

namespace GajaeCode.Session.Resident

open Text Json List JsValue

variable {fields : Fields} {key : Option JsString} {bytes : Bytes} {items : List JsValue}
  {data : JsString} {item : JsValue}

def blobExternalizeThreshold : ℕ := 1024

def textContentKey : JsString := utf16 "content"

def residentBlobSentinelKey : JsString := utf16 "__gjcResidentBlob"

inductive ResidentBlobKind
  | text
  | imageUrl
  | imageData
  deriving DecidableEq

def ResidentBlobKind.name : ResidentBlobKind → JsString
  | text => utf16 "text"
  | imageUrl => utf16 "imageUrl"
  | imageData => utf16 "imageData"

def residentBlobSentinel (kind : ResidentBlobKind) (ref : JsString) : JsValue :=
  .obj [(residentBlobSentinelKey, .bool true), (utf16 "kind", .str kind.name),
    (utf16 "ref", .str ref)]

def residentBlobKind : JsValue → Option ResidentBlobKind
  | .str name =>
      if name = ResidentBlobKind.text.name then some .text
      else if name = ResidentBlobKind.imageUrl.name then some .imageUrl
      else if name = ResidentBlobKind.imageData.name then some .imageData
      else none
  | _ => none

def residentBlobRef : JsValue → Option JsString
  | .str ref => if isBlobRef ref then some ref else none
  | _ => none

/-- `isResidentBlobSentinel`, with the kind and the reference it finds. -/
def residentSentinel (value : JsValue) : Option (ResidentBlobKind × JsString) :=
  if value.get residentBlobSentinelKey = .bool true then
    (residentBlobKind (value.get (utf16 "kind"))).bind fun kind ↦
      (residentBlobRef (value.get (utf16 "ref"))).map fun ref ↦ (kind, ref)
  else none

def residentExternalizeStringExcludedKeys : List JsString :=
  [utf16 "id", utf16 "type", utf16 "parentId", utf16 "timestamp", utf16 "role", utf16 "provider",
    utf16 "model", utf16 "api", utf16 "customType", utf16 "mode", utf16 "mimeType",
    utf16 "stopReason", utf16 "toolName", utf16 "targetId", utf16 "firstKeptEntryId",
    utf16 "encrypted_content", utf16 "reasoning_encrypted_content"]

/-- No key and the empty key are both falsy. -/
def shouldExternalizeResidentString (key : Option JsString) : Bool :=
  match key with
  | none => true
  | some key => key = [] || !residentExternalizeStringExcludedKeys.contains key

def isImageDataUrl (data : JsString) : Bool :=
  (utf16 "data:image/").isPrefixOf data && decide (utf16 ";base64," <:+: data)

/-- The `data` of an image block. -/
def imageBlockData (value : JsValue) : Option JsString :=
  if value.get (utf16 "type") = .str (utf16 "image") then
    match value.get (utf16 "data") with
    | .str data => some data
    | _ => none
  else none

/-! ## Writing -/

inductive StoreKind
  | text
  | image

/-- One `putOwnedSync`. -/
structure BlobWrite where
  store : StoreKind
  bytes : Bytes

section

variable (sha256 : BlobDigest)

def putOwnedSync (store : StoreKind) (bytes : Bytes) : JsString × List BlobWrite :=
  (sha256.ref bytes, [⟨store, bytes⟩])

def externalizeImageDataUrlSync (dataUrl : JsString) : JsString × List BlobWrite :=
  if isBlobRef dataUrl then (dataUrl, []) else putOwnedSync sha256 .image (encodeUtf8 dataUrl)

def externalizeImageDataSync (base64Data : JsString) : JsString × List BlobWrite :=
  if isBlobRef base64Data then (base64Data, [])
  else putOwnedSync sha256 .image (base64Decode base64Data)

/-- The kind of sentinel that replaces a string under a key, if one does. -/
def residentStringKind (text : JsString) (key : Option JsString) : Option ResidentBlobKind :=
  if key = some (utf16 "image_url") ∧ isImageDataUrl text ∧
      blobExternalizeThreshold ≤ text.length then some .imageUrl
  else if shouldExternalizeResidentString key ∧ blobExternalizeThreshold ≤ text.length then
    some .text
  else none

def externalizeString (text : JsString) (key : Option JsString) : JsValue × List BlobWrite :=
  match residentStringKind text key with
  | none => (.str text, [])
  | some .text =>
      let put := putOwnedSync sha256 .text (encodeUtf8 text)
      (residentBlobSentinel .text put.1, put.2)
  | some kind =>
      let put := externalizeImageDataUrlSync sha256 text
      (residentBlobSentinel kind put.1, put.2)

/-- The data of an item of a `content` array that is an image large enough to be stored. -/
def residentImageData (item : JsValue) (key : Option JsString) : Option JsString :=
  if key = some textContentKey then
    (imageBlockData item).filter fun data ↦
      !isBlobRef data && blobExternalizeThreshold ≤ data.length
  else none

/-- An image block with its data replaced; the other fields of the block are copied. -/
def externalizeImageBlock (item : JsValue) (data : JsString) : JsValue × List BlobWrite :=
  match item with
  | .obj fields =>
      let put := externalizeImageDataSync sha256 data
      (.obj (JsValue.setField fields (utf16 "data") (residentBlobSentinel .imageData put.1)), put.2)
  | _ => (item, [])

mutual

def externalizeResidentValueSync : JsValue → Option JsString → JsValue × List BlobWrite
  | .undefined, _ => (.undefined, [])
  | .null, _ => (.null, [])
  | .bool value, _ => (.bool value, [])
  | .num value, _ => (.num value, [])
  | .str text, key => externalizeString sha256 text key
  | .arr items, key =>
      ((.arr (externalizeItems items key).1), (externalizeItems items key).2)
  | .obj fields, _ => ((.obj (externalizeFields fields).1), (externalizeFields fields).2)

def externalizeItems : List JsValue → Option JsString → List JsValue × List BlobWrite
  | [], _ => ([], [])
  | item :: rest, key =>
      let head :=
        match residentImageData item key with
        | some data => externalizeImageBlock sha256 item data
        | none => externalizeResidentValueSync item key
      (head.1 :: (externalizeItems rest key).1, head.2 ++ (externalizeItems rest key).2)

def externalizeFields : Fields → Fields × List BlobWrite
  | [] => ([], [])
  | (key, value) :: rest =>
      let head := externalizeResidentValueSync value (some key)
      ((key, head.1) :: (externalizeFields rest).1, head.2 ++ (externalizeFields rest).2)

end

end

/-! ## Reading -/

structure ResidentBlobStores where
  textStore : JsString → Option Bytes
  imageStore : JsString → Option Bytes
  textFallback : JsString → Option Bytes

structure ResidentBlobMissingError where
  hash : JsString
  kind : ResidentBlobKind
  deriving DecidableEq

inductive ResidentBlobMissingPolicy
  | throw
  | placeholder

def residentBlobMissingPlaceholder (error : ResidentBlobMissingError) : JsString :=
  utf16 "[Session resident " ++ error.kind.name ++ utf16 " blob missing: sha256:" ++ error.hash ++
    utf16 "; original content unavailable]"

section

variable (stores : ResidentBlobStores) (policy : ResidentBlobMissingPolicy)

/-- The text a sentinel stands for; a reference that is no blob reference is returned as it is. -/
def resolveSentinel (kind : ResidentBlobKind) (ref : JsString) :
    Except ResidentBlobMissingError JsString :=
  match parseBlobRef ref with
  | none => .ok ref
  | some hash =>
      match kind with
      | .text =>
          match (stores.textFallback hash).or (stores.textStore hash) with
          | some bytes => .ok (decodeUtf8 bytes)
          | none => .error ⟨hash, .text⟩
      | .imageUrl =>
          match stores.imageStore hash with
          | some bytes => .ok (decodeUtf8 bytes)
          | none => .error ⟨hash, .imageUrl⟩
      | .imageData =>
          match stores.imageStore hash with
          | some bytes => .ok (base64Encode bytes)
          | none => .error ⟨hash, .imageData⟩

def materializeSentinel (kind : ResidentBlobKind) (ref : JsString) :
    Except ResidentBlobMissingError JsValue :=
  match resolveSentinel stores kind ref, policy with
  | .ok text, _ => .ok (.str text)
  | .error error, .placeholder => .ok (.str (residentBlobMissingPlaceholder error))
  | .error error, .throw => .error error

mutual

def materializeResidentValueSync : JsValue → Except ResidentBlobMissingError JsValue
  | .undefined => .ok .undefined
  | .null => .ok .null
  | .bool value => .ok (.bool value)
  | .num value => .ok (.num value)
  | .str text => .ok (.str text)
  | .arr items => (materializeItems items).map .arr
  | .obj fields =>
      match residentSentinel (.obj fields) with
      | some (kind, ref) => materializeSentinel stores policy kind ref
      | none => (materializeFields fields).map .obj

def materializeItems : List JsValue → Except ResidentBlobMissingError (List JsValue)
  | [] => .ok []
  | item :: rest => do
      let head ← materializeResidentValueSync item
      let tail ← materializeItems rest
      pure (head :: tail)

def materializeFields : Fields → Except ResidentBlobMissingError Fields
  | [] => .ok []
  | (key, value) :: rest => do
      let head ← materializeResidentValueSync value
      let tail ← materializeFields rest
      pure ((key, head) :: tail)

end

end

/-! ## Values that survive -/

mutual

/-- No object in the value looks like a sentinel. -/
def NoSentinel : JsValue → Prop
  | .arr items => NoSentinelItems items
  | .obj fields => residentSentinel (.obj fields) = none ∧ NoSentinelFields fields
  | _ => True

def NoSentinelItems : List JsValue → Prop
  | [] => True
  | item :: rest => NoSentinel item ∧ NoSentinelItems rest

def NoSentinelFields : Fields → Prop
  | [] => True
  | (_, value) :: rest => NoSentinel value ∧ NoSentinelFields rest

end

mutual

/-- Every string that is stored as text is well formed, the data of every image that is stored is
the base64 of some buffer, and no object looks like a sentinel. -/
def Restorable : JsValue → Option JsString → Prop
  | .str text, key => residentStringKind text key ≠ none → isWellFormed text = true
  | .arr items, key => RestorableItems items key
  | .obj fields, _ => residentSentinel (.obj fields) = none ∧ RestorableFields fields
  | _, _ => True

def RestorableItems : List JsValue → Option JsString → Prop
  | [], _ => True
  | item :: rest, key =>
      (match residentImageData item key with
        | some data => IsBase64 data ∧ NoSentinel item
        | none => Restorable item key) ∧ RestorableItems rest key

def RestorableFields : Fields → Prop
  | [] => True
  | (key, value) :: rest => Restorable value (some key) ∧ RestorableFields rest

end

section

variable {stores : ResidentBlobStores} {policy : ResidentBlobMissingPolicy}

theorem materializeItems_cons_eq_ok_iff {head : JsValue} {rest tail : List JsValue} :
    materializeItems stores policy (item :: rest) = .ok (head :: tail) ↔
      materializeResidentValueSync stores policy item = .ok head ∧
        materializeItems stores policy rest = .ok tail := by
  simp [materializeItems, Machine.bind_eq_ok_iff, pure, Except.pure]

theorem materializeFields_cons_eq_ok_iff {key : JsString} {value head : JsValue}
    {rest tail : Fields} :
    materializeFields stores policy ((key, value) :: rest) = .ok ((key, head) :: tail) ↔
      materializeResidentValueSync stores policy value = .ok head ∧
        materializeFields stores policy rest = .ok tail := by
  simp [materializeFields, Machine.bind_eq_ok_iff, pure, Except.pure]

theorem materialize_arr_eq_ok_iff {result : List JsValue} :
    materializeResidentValueSync stores policy (.arr items) = .ok (.arr result) ↔
      materializeItems stores policy items = .ok result := by
  rw [materializeResidentValueSync]
  cases materializeItems stores policy items <;> simp [Except.map]

/-- A sentinel is read as a string, never as an object. -/
theorem materialize_obj_eq_ok_iff {result : Fields} :
    materializeResidentValueSync stores policy (.obj fields) = .ok (.obj result) ↔
      residentSentinel (.obj fields) = none ∧
        materializeFields stores policy fields = .ok result := by
  rw [materializeResidentValueSync]
  cases hsentinel : residentSentinel (.obj fields) with
  | none => cases materializeFields stores policy fields <;> simp [Except.map]
  | some found =>
    obtain ⟨kind, ref⟩ := found
    simp only [materializeSentinel]
    cases resolveSentinel stores kind ref <;> cases policy <;> simp

theorem materializeItems_eq_self_iff_of
    (h : ∀ item ∈ items, materializeResidentValueSync stores policy item = .ok item ↔
      NoSentinel item) :
    materializeItems stores policy items = .ok items ↔ NoSentinelItems items := by
  induction items with
  | nil => simp [materializeItems, NoSentinelItems]
  | cons item rest ih =>
    rw [materializeItems_cons_eq_ok_iff, NoSentinelItems, h item (mem_cons_self ..),
      ih fun item hitem ↦ h item (mem_cons_of_mem _ hitem)]

theorem materializeFields_eq_self_iff_of
    (h : ∀ field ∈ fields, materializeResidentValueSync stores policy field.2 = .ok field.2 ↔
      NoSentinel field.2) :
    materializeFields stores policy fields = .ok fields ↔ NoSentinelFields fields := by
  induction fields with
  | nil => simp [materializeFields, NoSentinelFields]
  | cons field rest ih =>
    rw [materializeFields_cons_eq_ok_iff, NoSentinelFields, h field (mem_cons_self ..),
      ih fun field hfield ↦ h field (mem_cons_of_mem _ hfield)]

/-- Reading leaves exactly the values without sentinels unchanged. -/
theorem materialize_eq_self_iff (value : JsValue) :
    materializeResidentValueSync stores policy value = .ok value ↔ NoSentinel value := by
  induction value with
  | arr items ih =>
    rw [materialize_arr_eq_ok_iff, NoSentinel, materializeItems_eq_self_iff_of ih]
  | obj fields ih =>
    rw [materialize_obj_eq_ok_iff, NoSentinel, materializeFields_eq_self_iff_of ih]
  | _ => simp [materializeResidentValueSync, NoSentinel]

end

/-! ## Sentinels are preserved by writing -/

section

variable (sha256 : BlobDigest)

/-- A string is left as it is or becomes an object. -/
theorem externalizeString_cases (text : JsString) (key : Option JsString) :
    (externalizeString sha256 text key).1 = .str text ∨ (blobExternalizeThreshold ≤ text.length ∧
        ∃ fields, (externalizeString sha256 text key).1 = .obj fields) := by
  by_cases hlen : text.length < blobExternalizeThreshold
  · have hkind : residentStringKind text key = none := by
      rw [residentStringKind, if_neg (by omega), if_neg (by omega)]
    simp [externalizeString, hkind]
  · rw [externalizeString]
    cases hkind : residentStringKind text key with
    | none => simp
    | some kind => cases kind <;> exact .inr ⟨by omega, _, rfl⟩

theorem get_externalizeFields (fields : Fields) (key : JsString) :
    (obj (externalizeFields sha256 fields).1).get key =
      (externalizeResidentValueSync sha256 ((obj fields).get key) (some key)).1 := by
  induction fields with
  | nil => simp [externalizeFields, JsValue.get, externalizeResidentValueSync]
  | cons field rest ih =>
    obtain ⟨key', value⟩ := field
    simp only [JsValue.get, externalizeFields, lookup_cons] at ih ⊢
    by_cases hkey : key = key'
    · simp [hkey]
    · simp only [beq_eq_false_iff_ne.mpr hkey]
      exact ih

theorem externalize_eq_bool_iff (value : JsValue) (key : Option JsString) (flag : Bool) :
    (externalizeResidentValueSync sha256 value key).1 = .bool flag ↔ value = .bool flag := by
  cases value with
  | str text =>
    rw [externalizeResidentValueSync]
    rcases externalizeString_cases sha256 text key with h | ⟨-, fields, h⟩ <;> simp [h]
  | _ => simp [externalizeResidentValueSync]

/-- What a short-string predicate finds in a value, it finds in the externalized value. -/
theorem readString_externalize {α : Type} (read : JsValue → Option α)
    (hread : ∀ value, (∀ text, value ≠ .str text) → read value = none)
    (hlong : ∀ text, blobExternalizeThreshold ≤ text.length → read (.str text) = none)
    (value : JsValue) (key : Option JsString) :
    read (externalizeResidentValueSync sha256 value key).1 = read value := by
  cases value with
  | str text =>
    rw [externalizeResidentValueSync]
    rcases externalizeString_cases sha256 text key with h | ⟨hlen, fields, h⟩
    · rw [h]
    · rw [h, hlong text hlen, hread _ (by simp)]
  | arr | obj => rw [hread _ (by simp [externalizeResidentValueSync]), hread _ (by simp)]
  | _ => rw [externalizeResidentValueSync]

theorem residentBlobKind_of_long {text : JsString} (h : blobExternalizeThreshold ≤ text.length) :
    residentBlobKind (.str text) = none := by
  have hne : ∀ kind : ResidentBlobKind, text ≠ kind.name := by
    intro kind hkind
    have hshort : kind.name.length < blobExternalizeThreshold := by cases kind <;> decide
    rw [hkind] at h
    omega
  simp [residentBlobKind, hne]

theorem residentBlobRef_of_long {text : JsString} (h : blobExternalizeThreshold ≤ text.length) :
    residentBlobRef (.str text) = none := by
  rw [residentBlobRef]
  split_ifs with href
  · have := length_of_isBlobRef href
    rw [blobExternalizeThreshold] at h
    omega
  · rfl

/-- Writing neither makes an object look like a sentinel nor hides one that does. -/
theorem residentSentinel_externalizeFields (fields : Fields) :
    residentSentinel (.obj (externalizeFields sha256 fields).1) =
      residentSentinel (.obj fields) := by
  have hkind := readString_externalize sha256 residentBlobKind
    (fun value h ↦ by cases value <;> simp_all [residentBlobKind]) fun _ ↦ residentBlobKind_of_long
  have href := readString_externalize sha256 residentBlobRef
    (fun value h ↦ by cases value <;> simp_all [residentBlobRef]) fun _ ↦ residentBlobRef_of_long
  simp [residentSentinel, get_externalizeFields, externalize_eq_bool_iff, hkind, href]

theorem residentSentinel_setField_data (fields : Fields) (value : JsValue) :
    residentSentinel (.obj (setField fields (utf16 "data") value)) =
      residentSentinel (.obj fields) := by
  simp (disch := decide) [residentSentinel, get_setField_of_ne]

end

/-! ## The round trip -/

/-- The stores return the bytes of every write. -/
def Serves (sha256 : BlobDigest) (stores : ResidentBlobStores) (writes : List BlobWrite) : Prop :=
  ∀ write ∈ writes,
    match write.store with
    | .text => (stores.textFallback (sha256.hex write.bytes)).or
        (stores.textStore (sha256.hex write.bytes)) = some write.bytes
    | .image => stores.imageStore (sha256.hex write.bytes) = some write.bytes

section

variable (sha256 : BlobDigest) {stores : ResidentBlobStores} {policy : ResidentBlobMissingPolicy}
  {text : JsString}

theorem residentSentinel_residentBlobSentinel (kind : ResidentBlobKind) (bytes : Bytes) :
    residentSentinel (residentBlobSentinel kind (sha256.ref bytes)) =
      some (kind, sha256.ref bytes) := by
  have hget : (residentBlobSentinel kind (sha256.ref bytes)).get residentBlobSentinelKey = .bool true ∧
      (residentBlobSentinel kind (sha256.ref bytes)).get (utf16 "kind") = .str kind.name ∧
      (residentBlobSentinel kind (sha256.ref bytes)).get (utf16 "ref") = .str (sha256.ref bytes) :=
    ⟨rfl, rfl, rfl⟩
  have hkind : residentBlobKind (.str kind.name) = some kind := by cases kind <;> decide
  simp [residentSentinel, hget, hkind, residentBlobRef, isBlobRef, parseBlobRef_ref]

/-- The store of the blobs of a kind. -/
def ResidentBlobKind.store : ResidentBlobKind → StoreKind
  | .text => .text
  | _ => .image

/-- The text that a blob of a kind holds. -/
def ResidentBlobKind.decode : ResidentBlobKind → Bytes → JsString
  | .imageData => base64Encode
  | _ => decodeUtf8

/-- A written sentinel is read as the text its blob holds. -/
theorem materialize_residentBlobSentinel (kind : ResidentBlobKind)
    (h : Serves sha256 stores [⟨kind.store, bytes⟩]) :
    materializeResidentValueSync stores policy (residentBlobSentinel kind (sha256.ref bytes)) =
      .ok (.str (kind.decode bytes)) := by
  have hread := h _ (mem_singleton_self _)
  have hresolve : resolveSentinel stores kind (sha256.ref bytes) = .ok (kind.decode bytes) := by
    cases kind <;> dsimp only [ResidentBlobKind.store] at hread <;>
      simp [resolveSentinel, parseBlobRef_ref, hread, ResidentBlobKind.decode]
  have hsentinel := residentSentinel_residentBlobSentinel sha256 kind bytes
  rw [residentBlobSentinel] at hsentinel ⊢
  rw [materializeResidentValueSync, hsentinel]
  simp [materializeSentinel, hresolve]

theorem isBlobRef_of_isImageDataUrl (h : isImageDataUrl text) : isBlobRef text = false := by
  simp only [isImageDataUrl, Bool.and_eq_true, isPrefixOf_iff_prefix] at h
  obtain ⟨rest, hrest⟩ := h.1
  rw [← hrest, isBlobRef, parseBlobRef]
  have hdata : blobPrefix.isPrefixOf (utf16 "data:image/" ++ rest) = false := by
    rfl
  simp [hdata]

/-- A string comes back exactly when it was not stored or is well formed. -/
theorem materialize_externalizeString
    (h : Serves sha256 stores (externalizeString sha256 text key).2) :
    materializeResidentValueSync stores policy (externalizeString sha256 text key).1 =
        .ok (.str text) ↔ (residentStringKind text key ≠ none → isWellFormed text) := by
  rw [externalizeString] at h ⊢
  unfold residentStringKind at h ⊢
  split_ifs at h ⊢ with hurl htext
  · simp only [externalizeImageDataUrlSync, isBlobRef_of_isImageDataUrl hurl.2.1, putOwnedSync,
      Bool.false_eq_true, if_false] at h ⊢
    rw [materialize_residentBlobSentinel sha256 .imageUrl h]
    simp [ResidentBlobKind.decode, decodeUtf8_encodeUtf8_eq_self_iff]
  · simp only [putOwnedSync] at h ⊢
    rw [materialize_residentBlobSentinel sha256 .text h]
    simp [ResidentBlobKind.decode, decodeUtf8_encodeUtf8_eq_self_iff]
  · simp [materializeResidentValueSync]

/-- The fields of an image block, read back with the data that was stored for them. -/
theorem materializeFields_setField_data {stored : JsString}
    {sentinel : JsValue} (hlookup : fields.lookup (utf16 "data") = some (.str data))
    (hread : materializeResidentValueSync stores policy sentinel = .ok (.str stored)) :
    materializeFields stores policy (setField fields (utf16 "data") sentinel) =
        .ok fields ↔ stored = data ∧ NoSentinelFields fields := by
  induction fields with
  | nil => simp at hlookup
  | cons field rest ih =>
    obtain ⟨key, value⟩ := field
    rw [setField]
    split_ifs with hkey
    · subst hkey
      have hvalue : value = .str data := by simpa [lookup_cons] using hlookup
      rw [materializeFields_cons_eq_ok_iff, hread, hvalue,
        materializeFields_eq_self_iff_of fun field _ ↦ materialize_eq_self_iff field.2]
      simp [NoSentinelFields, NoSentinel]
    · have hne : (utf16 "data" == key) = false := beq_eq_false_iff_ne.mpr (Ne.symm hkey)
      rw [lookup_cons, hne] at hlookup
      rw [materializeFields_cons_eq_ok_iff, ih hlookup, materialize_eq_self_iff, NoSentinelFields,
        and_left_comm]

theorem eq_obj_of_imageBlockData (h : imageBlockData item = some data) :
    ∃ fields, item = .obj fields ∧ fields.lookup (utf16 "data") = some (.str data) := by
  rw [imageBlockData] at h
  split_ifs at h with htype
  cases item with
  | obj fields =>
    rw [JsValue.get] at h
    cases hlookup : fields.lookup (utf16 "data") with
    | none => simp [hlookup] at h
    | some value => cases value <;> simp_all
  | _ => simp [JsValue.get] at htype

/-- A stored image comes back exactly when its data is base64 and it hides no sentinel. -/
theorem materialize_externalizeImageBlock (himage : residentImageData item key = some data)
    (h : Serves sha256 stores (externalizeImageBlock sha256 item data).2) :
    materializeResidentValueSync stores policy (externalizeImageBlock sha256 item data).1 =
        .ok item ↔ IsBase64 data ∧ NoSentinel item := by
  rw [residentImageData] at himage
  split_ifs at himage with hkey
  obtain ⟨hblock, hlarge⟩ := Option.filter_eq_some_iff.mp himage
  obtain ⟨fields, hitem, hlookup⟩ := eq_obj_of_imageBlockData hblock
  subst hitem
  have hplain : isBlobRef data = false := by simp_all
  simp only [externalizeImageBlock, externalizeImageDataSync, hplain, putOwnedSync,
    Bool.false_eq_true, if_false] at h ⊢
  have hread : materializeResidentValueSync stores policy
      (residentBlobSentinel .imageData (sha256.ref (base64Decode data))) =
        .ok (.str (base64Encode (base64Decode data))) :=
    materialize_residentBlobSentinel sha256 .imageData h
  rw [materialize_obj_eq_ok_iff, residentSentinel_setField_data,
    materializeFields_setField_data hlookup hread, NoSentinel,
    base64Encode_base64Decode_eq_self_iff, and_left_comm]

theorem serves_append_iff {stores : ResidentBlobStores} {left right : List BlobWrite} :
    Serves sha256 stores (left ++ right) ↔
      Serves sha256 stores left ∧ Serves sha256 stores right := by
  simp [Serves, or_imp, forall_and]

theorem materializeItems_externalizeItems (ih : ∀ item ∈ items, ∀ key,
      Serves sha256 stores (externalizeResidentValueSync sha256 item key).2 →
        (materializeResidentValueSync stores policy
          (externalizeResidentValueSync sha256 item key).1 = .ok item ↔ Restorable item key))
    (h : Serves sha256 stores (externalizeItems sha256 items key).2) :
    materializeItems stores policy (externalizeItems sha256 items key).1 = .ok items ↔
      RestorableItems items key := by
  induction items with
  | nil => simp [externalizeItems, materializeItems, RestorableItems]
  | cons item rest ihRest =>
    rw [externalizeItems] at h ⊢
    obtain ⟨hhead, hrest⟩ := (serves_append_iff sha256).mp h
    rw [materializeItems_cons_eq_ok_iff, RestorableItems,
      ihRest (fun item hitem ↦ ih item (mem_cons_of_mem _ hitem)) hrest]
    apply and_congr_left
    intro _
    cases himage : residentImageData item key with
    | none =>
      simp only [himage] at hhead
      exact ih item (mem_cons_self ..) key hhead
    | some =>
      simp only [himage] at hhead
      exact materialize_externalizeImageBlock sha256 himage hhead

theorem materializeFields_externalizeFields (ih : ∀ field ∈ fields, ∀ key,
      Serves sha256 stores (externalizeResidentValueSync sha256 field.2 key).2 →
        (materializeResidentValueSync stores policy
          (externalizeResidentValueSync sha256 field.2 key).1 = .ok field.2 ↔
            Restorable field.2 key))
    (h : Serves sha256 stores (externalizeFields sha256 fields).2) :
    materializeFields stores policy (externalizeFields sha256 fields).1 = .ok fields ↔
      RestorableFields fields := by
  induction fields with
  | nil => simp [externalizeFields, materializeFields, RestorableFields]
  | cons field rest ihRest =>
    obtain ⟨key, value⟩ := field
    rw [externalizeFields] at h ⊢
    obtain ⟨hhead, hrest⟩ := (serves_append_iff sha256).mp h
    rw [materializeFields_cons_eq_ok_iff, RestorableFields,
      ihRest (fun field hfield ↦ ih field (mem_cons_of_mem _ hfield)) hrest,
      ih (key, value) (mem_cons_self ..) (some key) hhead]

/-- Reading an externalized value gives it back exactly when every string stored as text is well
formed, every stored image is base64, and no object in it looks like a sentinel. -/
theorem materialize_externalize_eq_ok_iff (value : JsValue) (key : Option JsString)
    (h : Serves sha256 stores (externalizeResidentValueSync sha256 value key).2) :
    materializeResidentValueSync stores policy
        (externalizeResidentValueSync sha256 value key).1 = .ok value ↔ Restorable value key := by
  induction value generalizing key with
  | str =>
    rw [externalizeResidentValueSync] at h ⊢
    rw [materialize_externalizeString sha256 h, Restorable]
  | arr items ih =>
    rw [externalizeResidentValueSync] at h ⊢
    rw [materialize_arr_eq_ok_iff, Restorable, materializeItems_externalizeItems sha256 ih h]
  | obj fields ih =>
    rw [externalizeResidentValueSync] at h ⊢
    rw [materialize_obj_eq_ok_iff, residentSentinel_externalizeFields, Restorable,
      materializeFields_externalizeFields sha256 ih h]
  | _ => simp [externalizeResidentValueSync, materializeResidentValueSync, Restorable]

end

/-! ## A stored string with and without an unpaired surrogate -/

/-- A digest that is enough for a store of one blob. -/
def zeroDigest : BlobDigest where
  hex := fun _ ↦ List.replicate 64 0x30
  canonical := fun _ ↦ by decide

/-- Both stores hold the one blob. -/
def oneBlobStores (bytes : Bytes) : ResidentBlobStores :=
  ⟨fun _ ↦ some bytes, fun _ ↦ some bytes, fun _ ↦ none⟩

/-- A string just long enough to be stored. -/
def thresholdText (unit : UInt16) : JsString := List.replicate blobExternalizeThreshold unit

theorem residentStringKind_thresholdText (unit : UInt16) :
    residentStringKind (thresholdText unit) none = some .text := by
  have hlen : (thresholdText unit).length = blobExternalizeThreshold := length_replicate
  simp [residentStringKind, shouldExternalizeResidentString, hlen]

theorem serves_thresholdText (unit : UInt16) :
    Serves zeroDigest (oneBlobStores (encodeUtf8 (thresholdText unit)))
      (externalizeResidentValueSync zeroDigest (.str (thresholdText unit)) none).2 := by
  rw [externalizeResidentValueSync, externalizeString, residentStringKind_thresholdText]
  intro write hwrite
  rw [mem_singleton.mp hwrite]
  rfl

theorem materialize_externalize_ascii :
    materializeResidentValueSync (oneBlobStores (encodeUtf8 (thresholdText 0x61))) .throw
        (externalizeResidentValueSync zeroDigest (.str (thresholdText 0x61)) none).1 =
      .ok (.str (thresholdText 0x61)) := by
  apply (materialize_externalize_eq_ok_iff zeroDigest _ none (serves_thresholdText 0x61)).mpr
  intro _
  apply isWellFormed_of_ascii
  intro unit hunit
  rw [eq_of_mem_replicate hunit]
  decide

/-- A string of unpaired surrogates does not come back, although the store returns its bytes. -/
theorem materialize_externalize_unpaired :
    Serves zeroDigest (oneBlobStores (encodeUtf8 (thresholdText 0xD800)))
        (externalizeResidentValueSync zeroDigest (.str (thresholdText 0xD800)) none).2 ∧
      materializeResidentValueSync (oneBlobStores (encodeUtf8 (thresholdText 0xD800))) .throw
          (externalizeResidentValueSync zeroDigest (.str (thresholdText 0xD800)) none).1 ≠
        .ok (.str (thresholdText 0xD800)) := by
  refine ⟨serves_thresholdText 0xD800, fun hback ↦ ?_⟩
  have hserves := serves_thresholdText 0xD800
  rw [externalizeResidentValueSync] at hserves hback
  have hwell := (materialize_externalizeString zeroDigest hserves).mp hback
    (by simp only [residentStringKind_thresholdText, ne_eq, reduceCtorEq, not_false_eq_true])
  exact Bool.noConfusion hwell

end GajaeCode.Session.Resident
