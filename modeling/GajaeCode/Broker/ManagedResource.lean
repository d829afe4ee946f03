import GajaeCode.Broker.ManagedTask

/-!
# Managed resources

Which paths a reservation covers, and when two reservations conflict. Coverage goes by the path
and what lies within it; a conflict is found on the object, the path, the place below a known
ancestor, and what lies within a recursive or namespace reservation. Two reservations that cover
one path conflict as soon as one of them writes.
-/

namespace GajaeCode.Broker

open Text Json Machine

variable {targetPath : JsString} {right left : ManagedCanonicalResource}
  {rightNeeded leftNeeded : AccessMode}

variable (context : ManagedContext)

/-- `isCanonicalAbsolute(value)`. -/
def isCanonicalAbsolute (value : JsString) : Bool :=
  isAbsolutePath value && normalizePath value = value

def optionalText : Option JsString → JsValue
  | some value => .str value
  | none => .null

def invalidPathResource : String := "invalid canonical path resource"

/-- `canonicalResourceKey(resource)`. -/
def canonicalResourceKey (resource : ManagedCanonicalResource) : Except ManagedTaskError JsString :=
  match resource.declaration with
  | .path _ _ _ _ => do
      requirePolicy (resource.path.isSome && resource.ancestor.isSome && resource.suffix.isSome)
        invalidPathResource
      return context.managedIdentity (.obj
        [(utf16 "ancestor", optionalText resource.ancestor), (utf16 "kind", .str (utf16 "path")),
          (utf16 "object", optionalText resource.object), (utf16 "path", optionalText resource.path),
          (utf16 "suffix", optionalText resource.suffix)])
  | .port protocol address number _ => return utf16 "port" ++ [colon] ++ protocol.text ++ [colon] ++
      address.text ++ [colon] ++ natText number
  | .named kind identity _ => return kind.text ++ [colon] ++ identity

def portAddressesOverlap (left right : PortAddress) : Bool :=
  let v4 (address : PortAddress) : Bool := address = .anyV4 || address = .loopbackV4
  let v6 (address : PortAddress) : Bool := address = .anyV6 || address = .loopbackV6
  if left = right || left = .any || right = .any then true
  else if left = .anyV4 then v4 right
  else if right = .anyV4 then v4 left
  else if left = .anyV6 then v6 right
  else if right = .anyV6 then v6 left
  else false

/-- The overlap of two path reservations whose paths and ancestors are known. -/
def pathsOverlap (left right : ManagedCanonicalResource) (leftPath rightPath : JsString)
    (leftRecursive leftNamespace rightRecursive rightNamespace : Bool) : Bool :=
  (left.object.isSome && left.object = right.object) || leftPath = rightPath ||
    (left.ancestor = right.ancestor && left.suffix = right.suffix) ||
    (leftRecursive && within context.cwd leftPath rightPath) ||
    (rightRecursive && within context.cwd rightPath leftPath) ||
    (leftNamespace && within context.cwd leftPath rightPath) ||
    (rightNamespace && within context.cwd rightPath leftPath)

/-- `managedResourcesOverlap(a, b)`. -/
def managedResourcesOverlap (left right : ManagedCanonicalResource) :
    Except ManagedTaskError Bool := do
  requireSchema left.conforms
  requireSchema right.conforms
  match left.declaration, right.declaration with
  | .path _ _ leftRecursive leftNamespace, .path _ _ rightRecursive rightNamespace =>
      match left.path, right.path, left.ancestor, right.ancestor with
      | some leftPath, some rightPath, some _, some _ =>
          return pathsOverlap context left right leftPath rightPath leftRecursive leftNamespace
            rightRecursive rightNamespace
      | _, _, _, _ => throw (.policy invalidPathResource)
  | .port protocol address number _, .port protocol' address' number' _ =>
      return protocol = protocol' && number = number' && portAddressesOverlap address address'
  | .named kind identity _, .named kind' identity' _ => return kind = kind' && identity = identity'
  | _, _ => return false

/-- `managedResourcesConflict(a, b)`. -/
def managedResourcesConflict (left right : ManagedCanonicalResource) :
    Except ManagedTaskError Bool :=
  if left.declaration.mode = .write || right.declaration.mode = .write then
    managedResourcesOverlap context left right
  else return false

/-- `resourceCoversPath(resource, targetPath, needed)`. -/
def resourceCoversPath (resource : ManagedCanonicalResource) (targetPath : JsString)
    (needed : AccessMode) : Bool :=
  match resource.declaration, resource.path with
  | .path _ mode recursive _, some path =>
      if needed = .write && mode ≠ .write then false
      else path = targetPath || (recursive && within context.cwd path targetPath)
  | _, _ => false

/-! ## Coverage and conflicts -/

/-- What a covering reservation is. -/
structure Covers (resource : ManagedCanonicalResource) (targetPath path : JsString)
    (recursive : Bool) : Prop where
  declaration : ∃ location mode inNamespace,
    resource.declaration = .path location mode recursive inNamespace
  path_eq : resource.path = some path
  around : path = targetPath ∨ (recursive = true ∧ within context.cwd path targetPath = true)

variable {context}

theorem covers_of_resourceCoversPath {resource : ManagedCanonicalResource}
    {needed : AccessMode} (h : resourceCoversPath context resource targetPath needed) :
    (∃ path recursive, Covers context resource targetPath path recursive) ∧
      (needed = .write → resource.declaration.mode = .write) := by
  unfold resourceCoversPath at h
  split at h
  · rename_i location mode recursive inNamespace path hdeclaration hpath
    split_ifs at h with hmode
    simp only [Bool.or_eq_true, Bool.and_eq_true, decide_eq_true_eq] at h
    refine ⟨⟨path, recursive, ⟨location, mode, inNamespace, hdeclaration⟩, hpath, h⟩, fun hwrite ↦ ?_⟩
    rw [hdeclaration]
    by_contra hread
    exact hmode (by simpa [hwrite, ManagedResource.mode] using hread)
  · cases h

/-- Two reservations that cover a path, one of them for writing, are never found free of
conflict, and with known ancestors the test does not fail. -/
theorem conflict_eq_ok_iff (hleft : resourceCoversPath context left targetPath leftNeeded)
    (hright : resourceCoversPath context right targetPath rightNeeded)
    (hwrite : leftNeeded = .write ∨ rightNeeded = .write) {answer : Bool} :
    managedResourcesConflict context left right = .ok answer ↔ answer ∧ left.conforms ∧
      right.conforms ∧ left.ancestor.isSome ∧ right.ancestor.isSome := by
  obtain ⟨⟨leftPath, leftRecursive, hleftCovers⟩, hleftMode⟩ := covers_of_resourceCoversPath hleft
  obtain ⟨⟨rightPath, rightRecursive, hrightCovers⟩, hrightMode⟩ :=
    covers_of_resourceCoversPath hright
  obtain ⟨leftLocation, leftMode, leftNamespace, hleftDeclaration⟩ := hleftCovers.declaration
  obtain ⟨rightLocation, rightMode, rightNamespace, hrightDeclaration⟩ := hrightCovers.declaration
  have hmodes : (left.declaration.mode = .write || right.declaration.mode = .write) := by
    rcases hwrite with hwrite | hwrite
    · simp [hleftMode hwrite]
    · simp [hrightMode hwrite]
  have hoverlap : pathsOverlap context left right leftPath rightPath leftRecursive leftNamespace
      rightRecursive rightNamespace := by
    unfold pathsOverlap
    rcases hleftCovers.around with hleft | ⟨hrecursive, hleft⟩
    · rcases hrightCovers.around with hright | ⟨hrecursive, hright⟩
      · simp [hleft, hright]
      · simp [hleft, hright, hrecursive]
    · rcases hrightCovers.around with hright | ⟨hrecursive', hright⟩
      · simp [hleft, hright, hrecursive]
      · rcases within_or_within hleft hright with hwithin | hwithin
        · simp [hwithin, hrecursive]
        · simp [hwithin, hrecursive']
  rw [managedResourcesConflict, if_pos hmodes, managedResourcesOverlap, check_bind_eq_ok_iff,
    check_bind_eq_ok_iff, requireSchema_eq_ok_iff, requireSchema_eq_ok_iff]
  simp only [hleftDeclaration, hrightDeclaration, hleftCovers.path_eq, hrightCovers.path_eq]
  cases left.ancestor with
  | none => simp
  | some =>
    cases right.ancestor with
    | none => simp
    | some => simp [hoverlap, pure, Except.pure, and_comm, and_assoc]

end GajaeCode.Broker
