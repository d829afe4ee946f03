import GajaeCode.Chain.Assoc
import GajaeCode.Text.Rewriting
import GajaeCode.Text.Utf16
import Mathlib.Data.List.Sort

/-!
# The secret obfuscator

Configured secrets are replaced before a text is sent. Plain secrets are replaced first, by one pass
or by one secret after another; then every regular expression is matched against the result, and
what it finds is replaced and, in obfuscate mode, remembered with the plain secrets. The keyed
digests and the regular-expression engine are parameters.
-/

namespace GajaeCode.Secrets

open Text

/-! ## Entries and keys -/

inductive SecretType
  | plain
  | regex
  deriving DecidableEq

inductive SecretMode
  | obfuscate
  | replace
  deriving DecidableEq

structure SecretEntry where
  type : SecretType
  content : JsString
  mode : Option SecretMode
  replacement : Option JsString
  flags : Option JsString
  deriving DecidableEq

/-- `[A-Za-z0-9_-]`. -/
def isTagUnit (unit : UInt16) : Bool :=
  let code := unit.toNat
  (65 ≤ code && code ≤ 90) || (97 ≤ code && code ≤ 122) || (48 ≤ code && code ≤ 57) || code == 95 ||
    code == 45

/-- What is derived from the key: the tag of a placeholder, 16 bytes in base64url, and the text that
stands for a secret in replace mode. -/
structure ObfuscationKey where
  tag : JsString → JsString
  generateDeterministicReplacement : JsString → JsString
  tag_length : ∀ secret, (tag secret).length = 22
  tag_units : ∀ secret, ∀ unit ∈ tag secret, isTagUnit unit = true

def buildPlaceholder (secret : JsString) (key : ObfuscationKey) : JsString :=
  utf16 "#GJC1_" ++ key.tag secret ++ utf16 "#"

/-- A compiled global expression: `exec` from a last index gives the place and text of a match. -/
structure SecretRegex where
  exec : JsString → ℕ → Option (ℕ × JsString)
  inside : ∀ text lastIndex start found, exec text lastIndex = some (start, found) →
    lastIndex ≤ start ∧ found <+: text.drop start ∧ start ≤ text.length

/-- The loop over `exec`, which steps over empty matches. -/
def SecretRegex.matchesFrom (regex : SecretRegex) (text : JsString) : ℕ → ℕ → List JsString
  | 0, _ => []
  | fuel + 1, lastIndex =>
    match regex.exec text lastIndex with
    | none => []
    | some (start, found) =>
      if found = [] then regex.matchesFrom text fuel (start + 1)
      else found :: regex.matchesFrom text fuel (start + found.length)

/-- The set of matches, in the order they were found. The last index grows with every match, up to
one behind the text. -/
def SecretRegex.matchValues (regex : SecretRegex) (text : JsString) : List JsString :=
  (regex.matchesFrom text (text.length + 2) 0).eraseDups

/-! ## The state -/

/-- `map.set(key, value)`: a key that is present keeps its place. -/
def mapSet {K V : Type} [DecidableEq K] : List (K × V) → K → V → List (K × V)
  | [], key, value => [(key, value)]
  | (key', value') :: rest, key, value =>
    if key' = key then (key, value) :: rest else (key', value') :: mapSet rest key value

structure RegexEntry where
  regex : SecretRegex
  mode : SecretMode
  replacement : Option JsString

structure ObfuscateMapping where
  secret : JsString
  index : ℕ
  placeholder : JsString
  deriving DecidableEq

def ObfuscateMapping.rule (mapping : ObfuscateMapping) : Rule UInt16 := ⟨mapping.secret, mapping.placeholder⟩

structure Obfuscator where
  regexEntries : List RegexEntry
  obfuscateMappings : List (ℕ × (JsString × JsString))
  sortedReplaceMappings : List (Rule UInt16)
  sortedObfuscateMappings : List ObfuscateMapping
  obfuscateIndexBySecret : List (JsString × ℕ)
  deobfuscateMap : List (JsString × JsString)
  combinedPlainRegex : Option (List JsString)
  combinedPlainReplacementBySecret : List (JsString × JsString)
  combinedPlainRegexDirty : Bool
  useSequentialPlainReplacement : Bool
  nextIndex : ℕ
  hasAny : Bool

/-! ## Construction -/

/-- The maps that the constructor fills while it reads the entries. -/
structure Collected where
  plainMappings : List (JsString × ℕ)
  regexEntries : List RegexEntry
  obfuscateMappings : List (ℕ × (JsString × JsString))
  replaceMappings : List (JsString × JsString)
  obfuscateIndexBySecret : List (JsString × ℕ)
  deobfuscateMap : List (JsString × JsString)
  index : ℕ

section

variable (compileSecretRegex : JsString → Option JsString → Option SecretRegex) (key : ObfuscationKey)

def collectEntry (collected : Collected) (entry : SecretEntry) : Collected :=
  match entry.type, entry.mode.getD .obfuscate with
  | .plain, .obfuscate =>
    let placeholder := buildPlaceholder entry.content key
    { collected with
      plainMappings := mapSet collected.plainMappings entry.content collected.index
      obfuscateMappings := mapSet collected.obfuscateMappings collected.index (entry.content, placeholder)
      deobfuscateMap := mapSet collected.deobfuscateMap placeholder entry.content
      obfuscateIndexBySecret := mapSet collected.obfuscateIndexBySecret entry.content collected.index
      index := collected.index + 1 }
  | .plain, .replace =>
    let replacement := entry.replacement.getD (key.generateDeterministicReplacement entry.content)
    { collected with replaceMappings := mapSet collected.replaceMappings entry.content replacement }
  | .regex, mode =>
    match compileSecretRegex entry.content entry.flags with
    | some regex =>
      { collected with regexEntries := collected.regexEntries ++ [⟨regex, mode, entry.replacement⟩] }
    | none => collected

def collectEntries (entries : List SecretEntry) : Collected :=
  entries.foldl (collectEntry compileSecretRegex key) ⟨[], [], [], [], [], [], 0⟩

/-- `sort((a, b) => b[0].length - a[0].length)`; both sorts are stable. -/
def sortLongestFirst {V : Type} (mappings : List (JsString × V)) : List (JsString × V) :=
  mappings.insertionSort fun a b ↦ b.1.length ≤ a.1.length

/-- `this.#obfuscateMappings.get(index)!.placeholder`. -/
def placeholderOf (obfuscateMappings : List (ℕ × (JsString × JsString))) (index : ℕ) : JsString :=
  ((obfuscateMappings.lookup index).map Prod.snd).getD []

/-- The sorted obfuscate mappings of the constructor. -/
def sortedMappings (plainMappings : List (JsString × ℕ)) (mappings : List (ℕ × (JsString × JsString))) :
    List ObfuscateMapping :=
  (sortLongestFirst plainMappings).map fun pair ↦ ⟨pair.1, pair.2, placeholderOf mappings pair.2⟩

def newSecretObfuscator (entries : List SecretEntry) : Obfuscator :=
  let collected := collectEntries compileSecretRegex key entries
  { regexEntries := collected.regexEntries
    obfuscateMappings := collected.obfuscateMappings
    sortedReplaceMappings := (sortLongestFirst collected.replaceMappings).map fun pair ↦ ⟨pair.1, pair.2⟩
    sortedObfuscateMappings := sortedMappings collected.plainMappings collected.obfuscateMappings
    obfuscateIndexBySecret := collected.obfuscateIndexBySecret
    deobfuscateMap := collected.deobfuscateMap
    combinedPlainRegex := none
    combinedPlainReplacementBySecret := []
    combinedPlainRegexDirty := true
    useSequentialPlainReplacement := false
    nextIndex := collected.index
    hasAny := !entries.isEmpty }

end

namespace Obfuscator

/-! ## Plain secrets -/

/-- All plain mappings, those of replace mode first. -/
def plainRules (obfuscator : Obfuscator) : List (Rule UInt16) :=
  obfuscator.sortedReplaceMappings ++ obfuscator.sortedObfuscateMappings.map ObfuscateMapping.rule

/-- Whether a replacement contains a secret or a secret another one. -/
def needsSequential (rules : List (Rule UInt16)) : Bool :=
  rules.zipIdx.any fun (mapping, index) ↦
    rules.zipIdx.any fun (other, otherIndex) ↦
      decide (0 < other.pattern.length) &&
        (decide (other.pattern <:+: mapping.replacement) ||
          (decide (index ≠ otherIndex) &&
            (decide (other.pattern <:+: mapping.pattern) || decide (mapping.pattern <:+: other.pattern))))

/-- The first replacement of every secret. -/
def replacementBySecret (rules : List (Rule UInt16)) : List (JsString × JsString) :=
  rules.foldl (fun map rule ↦
    if (map.lookup rule.pattern).isSome then map else mapSet map rule.pattern rule.replacement) []

def ensureCombinedPlainRegex (obfuscator : Obfuscator) : Obfuscator :=
  if obfuscator.combinedPlainRegexDirty then
    let mappings := obfuscator.plainRules
    { obfuscator with
      combinedPlainRegexDirty := false
      useSequentialPlainReplacement := needsSequential mappings
      combinedPlainReplacementBySecret := replacementBySecret mappings
      combinedPlainRegex :=
        if 0 < mappings.length then some (mappings.map Rule.pattern) else none }
  else obfuscator

def obfuscatePlainMappingsSequential (obfuscator : Obfuscator) (text : JsString) : JsString :=
  rewriteAll (obfuscator.sortedObfuscateMappings.map ObfuscateMapping.rule)
    (rewriteAll obfuscator.sortedReplaceMappings text)

/-- `text.replace(regex, match => replacementBySecret.get(match) ?? match)` for an expression that
offers the secrets as alternatives. -/
def replaceCombined (alternatives : List JsString) (bySecret : List (JsString × JsString))
    (text : JsString) : JsString :=
  rewrite (alternatives.map fun secret ↦ ⟨secret, (bySecret.lookup secret).getD secret⟩) 0 text

/-- `#obfuscatePlainMappings`, once the combined expression is up to date. -/
def replacePlain (obfuscator : Obfuscator) (text : JsString) : JsString :=
  if obfuscator.useSequentialPlainReplacement then obfuscator.obfuscatePlainMappingsSequential text
  else
    match obfuscator.combinedPlainRegex with
    | none => text
    | some alternatives => replaceCombined alternatives obfuscator.combinedPlainReplacementBySecret text

def obfuscatePlainMappings (obfuscator : Obfuscator) (text : JsString) : Obfuscator × JsString :=
  let ready := obfuscator.ensureCombinedPlainRegex
  (ready, ready.replacePlain text)

/-! ## Regular expressions -/

/-- The binary search for the place behind all secrets that are at least as long. -/
def searchSlot (mappings : List ObfuscateMapping) (length : ℕ) : ℕ → ℕ → ℕ → ℕ
  | 0, lo, _ => lo
  | fuel + 1, lo, hi =>
    if lo < hi then
      if ((mappings[(lo + hi) / 2]?).map fun mapping ↦ mapping.secret.length).getD 0 < length then
        searchSlot mappings length fuel lo ((lo + hi) / 2)
      else searchSlot mappings length fuel ((lo + hi) / 2 + 1) hi
    else lo

def insertSortedObfuscateMapping (mappings : List ObfuscateMapping) (mapping : ObfuscateMapping) :
    List ObfuscateMapping :=
  mappings.insertIdx (searchSlot mappings mapping.secret.length (mappings.length + 1) 0 mappings.length)
    mapping

variable (key : ObfuscationKey)

/-- A secret that a regular expression found is remembered. -/
def remember (obfuscator : Obfuscator) (matchValue : JsString) : Obfuscator :=
  let index := obfuscator.nextIndex
  let placeholder := buildPlaceholder matchValue key
  { obfuscator with
    nextIndex := index + 1
    obfuscateMappings := mapSet obfuscator.obfuscateMappings index (matchValue, placeholder)
    deobfuscateMap := mapSet obfuscator.deobfuscateMap placeholder matchValue
    obfuscateIndexBySecret := mapSet obfuscator.obfuscateIndexBySecret matchValue index
    sortedObfuscateMappings :=
      insertSortedObfuscateMapping obfuscator.sortedObfuscateMappings ⟨matchValue, index, placeholder⟩
    combinedPlainRegexDirty := true }

/-- One match of one entry. -/
def replaceMatch (entry : RegexEntry) (state : Obfuscator × JsString) (matchValue : JsString) :
    Obfuscator × JsString :=
  match entry.mode with
  | .replace =>
    let replacement := entry.replacement.getD (key.generateDeterministicReplacement matchValue)
    (state.1, replaceAll state.2 matchValue replacement)
  | .obfuscate =>
    let known := if (state.1.obfuscateIndexBySecret.lookup matchValue).isSome then state.1
      else state.1.remember key matchValue
    let index := (known.obfuscateIndexBySecret.lookup matchValue).getD 0
    (known, replaceAll state.2 matchValue (placeholderOf known.obfuscateMappings index))

def replaceEntry (state : Obfuscator × JsString) (entry : RegexEntry) : Obfuscator × JsString :=
  (entry.regex.matchValues state.2).foldl (replaceMatch key entry) state

def obfuscate (obfuscator : Obfuscator) (text : JsString) : Obfuscator × JsString :=
  if obfuscator.hasAny then
    obfuscator.regexEntries.foldl (replaceEntry key) (obfuscator.obfuscatePlainMappings text)
  else (obfuscator, text)

end Obfuscator

end GajaeCode.Secrets
