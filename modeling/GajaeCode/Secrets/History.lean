import GajaeCode.Secrets.Obfuscator

/-!
# What a redaction remembers

An obfuscator keeps the secrets that its regular expressions have found. Apart from the combined
expression, which is a cache, its state is that of a fresh obfuscator with these secrets configured
as plain ones behind its own entries.
-/

namespace GajaeCode.Secrets

open Text Chain List Option

variable {obfuscator : Obfuscator} {collected : Collected} {state : Obfuscator × JsString}

theorem mapSet_eq_alter {K V : Type} [DecidableEq K] (map : List (K × V)) (key : K) (value : V) :
    mapSet map key value = alter (fun _ ↦ value) key map := by
  induction map with
  | nil => rfl
  | cons pair rest ih => rw [mapSet, alter, ih]

/-! ## Places in the sorted list -/

/-- A stable sort puts a last value behind all that are at least as long. -/
theorem insertionSort_concat {V : Type} (len : V → ℕ) (values : List V) (value : V) :
    (values ++ [value]).insertionSort (fun a b ↦ len b ≤ len a) =
      (values.insertionSort fun a b ↦ len b ≤ len a).orderedInsert
        (fun a b ↦ len b < len a) value := by
  have hstep (first) (sorted : List V) :
      (sorted.orderedInsert (fun a b ↦ len b < len a) value).orderedInsert
          (fun a b ↦ len b ≤ len a) first =
        (sorted.orderedInsert (fun a b ↦ len b ≤ len a) first).orderedInsert
          (fun a b ↦ len b < len a) value := by
    induction sorted with
    | nil =>
      simp only [orderedInsert_nil, orderedInsert_cons]
      split_ifs <;> first | rfl | omega
    | cons other rest ih =>
      simp only [orderedInsert_cons]
      split_ifs <;> simp only [orderedInsert_cons] <;> split_ifs <;> first | rfl | omega | rw [ih]
  induction values with
  | nil => rfl
  | cons first rest ih =>
    rw [cons_append, insertionSort_cons, ih, hstep, insertionSort_cons]

section

open Obfuscator

variable {mappings : List ObfuscateMapping} {len : ℕ}

/-- The secrets before `slot` are the ones that are at least as long. -/
structure IsSlot (mappings : List ObfuscateMapping) (length slot : ℕ) : Prop where
  le_length : slot ≤ mappings.length
  lt_iff : ∀ index mapping, mappings[index]? = some mapping →
    (index < slot ↔ length ≤ mapping.secret.length)

/-- Longest secrets first. -/
def LongestFirst (mappings : List ObfuscateMapping) : Prop :=
  mappings.Pairwise fun a b ↦ b.secret.length ≤ a.secret.length

theorem LongestFirst.length_le (h : LongestFirst mappings) {i j : ℕ} {a b : ObfuscateMapping} (hle : i ≤ j)
    (ha : mappings[i]? = some a) (hb : mappings[j]? = some b) : b.secret.length ≤ a.secret.length := by
  obtain ⟨hi, rfl⟩ := List.getElem?_eq_some_iff.mp ha
  obtain ⟨hj, rfl⟩ := List.getElem?_eq_some_iff.mp hb
  rcases Nat.lt_or_eq_of_le hle with hlt | rfl
  · exact pairwise_iff_getElem.mp h i j hi hj hlt
  · exact Nat.le_refl _

theorem isSlot_searchSlot (h : LongestFirst mappings) {fuel lo hi : ℕ} (hfuel : hi < fuel + lo)
    (hle : lo ≤ hi) (hhi : hi ≤ mappings.length)
    (hbefore : ∀ idx mapping, mappings[idx]? = some mapping → idx < lo →
      len ≤ mapping.secret.length)
    (hbehind : ∀ idx mapping, mappings[idx]? = some mapping → hi ≤ idx →
      mapping.secret.length < len) :
    IsSlot mappings len (searchSlot mappings len fuel lo hi) := by
  induction fuel generalizing lo hi with
  | zero => omega
  | succ fuel ih =>
    rw [searchSlot]
    split_ifs with hlt hmid
    · have hidx : (lo + hi) / 2 < mappings.length := by omega
      rw [getElem?_eq_getElem hidx, map_some, getD_some] at hmid
      refine ih (by omega) (by omega) hidx.le hbefore fun idx mapping hmapping hge ↦ ?_
      exact (h.length_le hge (getElem?_eq_getElem hidx) hmapping).trans_lt hmid
    · have hidx : (lo + hi) / 2 < mappings.length := by omega
      rw [getElem?_eq_getElem hidx, map_some, getD_some, not_lt] at hmid
      refine ih (by omega) (by omega) hhi (fun idx mapping hmapping hle ↦ ?_) hbehind
      exact hmid.trans (h.length_le (Nat.lt_succ_iff.mp hle) hmapping (getElem?_eq_getElem hidx))
    · obtain rfl : lo = hi := by omega
      refine ⟨hhi, fun idx mapping hmapping ↦ ⟨hbefore idx mapping hmapping, fun hlen ↦ ?_⟩⟩
      by_contra hge
      exact absurd (hbehind idx mapping hmapping (not_lt.mp hge)) hlen.not_gt

theorem IsSlot.insertIdx_eq {mapping : ObfuscateMapping} {slot : ℕ}
    (h : IsSlot mappings mapping.secret.length slot) :
    mappings.insertIdx slot mapping =
      mappings.orderedInsert (fun a b ↦ b.secret.length < a.secret.length) mapping := by
  induction mappings generalizing slot with
  | nil =>
    obtain rfl : slot = 0 := Nat.le_zero.mp h.le_length
    rfl
  | cons first rest ih =>
    have hfirst := h.lt_iff 0 first rfl
    rw [orderedInsert_cons]
    cases slot with
    | zero =>
      rw [if_pos (by omega), insertIdx_zero]
    | succ slot =>
      have hrest : IsSlot rest mapping.secret.length slot := by
        refine ⟨Nat.le_of_succ_le_succ h.le_length, fun idx other hother ↦ ?_⟩
        rw [← h.lt_iff (idx + 1) other hother]
        omega
      rw [if_neg (by omega), insertIdx_succ_cons, ih hrest]

/-- The binary search finds the place of a stable sort. -/
theorem insertSortedObfuscateMapping_eq (h : LongestFirst mappings) (mapping : ObfuscateMapping) :
    insertSortedObfuscateMapping mappings mapping =
      mappings.orderedInsert (fun a b ↦ b.secret.length < a.secret.length) mapping := by
  apply IsSlot.insertIdx_eq
  apply isSlot_searchSlot h (by omega) (Nat.zero_le _) (Nat.le_refl _)
  · intro idx other _ hlt
    exact absurd hlt (Nat.not_lt_zero _)
  · intro idx other hother hge
    rw [getElem?_eq_none hge] at hother
    exact absurd hother (some_ne_none _).symm

end

/-! ## The maps of a constructed obfuscator -/

section

variable {compileSecretRegex : JsString → Option JsString → Option SecretRegex} {key : ObfuscationKey}

structure Collected.Consistent (key : ObfuscationKey) (collected : Collected) : Prop where
  nodup : (collected.plainMappings.map Prod.fst).Nodup
  bySecret : collected.obfuscateIndexBySecret = collected.plainMappings
  mapped : ∀ pair ∈ collected.plainMappings,
    collected.obfuscateMappings.lookup pair.2 = some (pair.1, buildPlaceholder pair.1 key)
  below : ∀ index ∈ collected.obfuscateMappings.map Prod.fst, index < collected.index

theorem Collected.Consistent.index_lt (h : collected.Consistent key)
    {pair : JsString × ℕ} (hpair : pair ∈ collected.plainMappings) : pair.2 < collected.index := by
  apply h.below
  by_contra hnot
  rw [← lookup_eq_none_iff_notMem, h.mapped pair hpair] at hnot
  exact absurd hnot (some_ne_none _)

theorem consistent_collectEntry (h : collected.Consistent key) (entry : SecretEntry) :
    (collectEntry compileSecretRegex key collected entry).Consistent key := by
  rw [collectEntry]
  split
  · simp only [mapSet_eq_alter]
    refine ⟨nodup_alter h.nodup, by rw [h.bySecret], fun pair hpair ↦ ?_, fun idx hidx ↦ ?_⟩
    · rw [lookup_alter]
      rcases mem_alter hpair with ⟨_, rfl⟩ | hpair
      · exact if_pos rfl
      · rw [if_neg (h.index_lt hpair).ne, h.mapped pair hpair]
    · rcases mem_keys_alter.mp hidx with rfl | hidx
      · exact Nat.lt_succ_self _
      · exact (h.below idx hidx).trans (Nat.lt_succ_self _)
  · exact ⟨h.nodup, h.bySecret, h.mapped, h.below⟩
  · split
    · exact ⟨h.nodup, h.bySecret, h.mapped, h.below⟩
    · exact h

theorem consistent_collectEntries (entries : List SecretEntry) :
    (collectEntries compileSecretRegex key entries).Consistent key := by
  have hinitial : Collected.Consistent key ⟨[], [], [], [], [], [], 0⟩ :=
    ⟨nodup_nil, rfl, forall_mem_nil _, forall_mem_nil _⟩
  induction entries using reverseRecOn with
  | nil => exact hinitial
  | append_singleton entries entry ih =>
    rw [collectEntries, foldl_append]
    exact consistent_collectEntry ih entry

end

/-! ## Remembered secrets are configured secrets -/

/-- A plain secret in obfuscate mode. -/
def plainEntry (secret : JsString) : SecretEntry := ⟨.plain, secret, some .obfuscate, none, none⟩

namespace Obfuscator

variable (obfuscator : Obfuscator)

/-- The state without the combined expression. -/
def withoutCache : Obfuscator :=
  { obfuscator with
    combinedPlainRegex := none
    combinedPlainReplacementBySecret := []
    combinedPlainRegexDirty := true
    useSequentialPlainReplacement := false }

/-- A combined expression that counts as up to date is. -/
def CacheValid : Prop :=
  obfuscator.combinedPlainRegexDirty = false →
    obfuscator.withoutCache.ensureCombinedPlainRegex = obfuscator

theorem CacheValid.ensure_eq (h : obfuscator.CacheValid) :
    obfuscator.ensureCombinedPlainRegex = obfuscator.withoutCache.ensureCombinedPlainRegex := by
  cases hdirty : obfuscator.combinedPlainRegexDirty with
  | true =>
    rw [ensureCombinedPlainRegex, if_pos hdirty]
    rfl
  | false =>
    rw [h hdirty, ensureCombinedPlainRegex, hdirty, if_neg Bool.false_ne_true]

theorem withoutCache_ensureCombinedPlainRegex :
    obfuscator.ensureCombinedPlainRegex.withoutCache = obfuscator.withoutCache := by
  rw [ensureCombinedPlainRegex]
  split_ifs <;> rfl

theorem CacheValid.ensure (h : obfuscator.CacheValid) :
    obfuscator.ensureCombinedPlainRegex.CacheValid := by
  intro _
  rw [withoutCache_ensureCombinedPlainRegex, h.ensure_eq]

/-- What is sent does not depend on the cache. -/
theorem CacheValid.obfuscate_eq (h : obfuscator.CacheValid) (key : ObfuscationKey)
    (text : JsString) : (obfuscator.obfuscate key text).2 = (obfuscator.withoutCache.obfuscate key text).2 := by
  rw [obfuscate, obfuscate, obfuscatePlainMappings, obfuscatePlainMappings, h.ensure_eq]
  rw [show obfuscator.withoutCache.hasAny = obfuscator.hasAny from rfl]
  split_ifs <;> rfl

end Obfuscator

section

open Obfuscator

variable {compileSecretRegex : JsString → Option JsString → Option SecretRegex} {key : ObfuscationKey}

/-- Sorting one more plain mapping is inserting it. -/
theorem sortedMappings_concat (h : collected.Consistent key) (secret : JsString) :
    sortedMappings (collected.plainMappings ++ [(secret, collected.index)])
        (mapSet collected.obfuscateMappings collected.index (secret, buildPlaceholder secret key)) =
      (sortedMappings collected.plainMappings collected.obfuscateMappings).orderedInsert
        (fun a b ↦ b.secret.length < a.secret.length)
        ⟨secret, collected.index, buildPlaceholder secret key⟩ := by
  have hsort : sortLongestFirst (collected.plainMappings ++ [(secret, collected.index)]) =
      (sortLongestFirst collected.plainMappings).orderedInsert (fun a b ↦ b.1.length < a.1.length)
        (secret, collected.index) :=
    insertionSort_concat (fun pair : JsString × ℕ ↦ pair.1.length) _ _
  rw [sortedMappings, hsort, map_orderedInsert (fun a b : JsString × ℕ ↦ b.1.length < a.1.length)
    (fun a b : ObfuscateMapping ↦ b.secret.length < a.secret.length) _ _ _
    (fun _ _ ↦ Iff.rfl) (fun _ _ ↦ Iff.rfl)]
  congr 1
  · rw [placeholderOf, mapSet_eq_alter, lookup_alter, if_pos rfl, map_some, getD_some]
  · apply map_congr_left
    intro pair hpair
    rw [sortLongestFirst, mem_insertionSort] at hpair
    rw [placeholderOf, mapSet_eq_alter, lookup_alter, if_neg (h.index_lt hpair).ne, placeholderOf]

/-- The state after a secret was remembered is the one with the secret configured. -/
theorem withoutCache_remember {entries : List SecretEntry} (hents : entries ≠ []) {secret : JsString}
    (hsecret : (newSecretObfuscator compileSecretRegex key entries).obfuscateIndexBySecret.lookup secret =
      none) :
    ((newSecretObfuscator compileSecretRegex key entries).remember key secret).withoutCache =
      newSecretObfuscator compileSecretRegex key (entries ++ [plainEntry secret]) := by
  have hconsistent := @consistent_collectEntries compileSecretRegex key entries
  have hcollect : collectEntries compileSecretRegex key (entries ++ [plainEntry secret]) =
      collectEntry compileSecretRegex key (collectEntries compileSecretRegex key entries)
        (plainEntry secret) := by
    rw [collectEntries, foldl_append]
    rfl
  have hplain (idx) : mapSet (collectEntries compileSecretRegex key entries).plainMappings secret
      idx = (collectEntries compileSecretRegex key entries).plainMappings ++ [(secret, idx)] := by
    rw [mapSet_eq_alter]
    apply alter_of_notMem
    rw [← lookup_eq_none_iff_notMem, ← hconsistent.bySecret]
    exact hsecret
  have hsorted := sortedMappings_concat hconsistent secret
  have hlongest : LongestFirst
      (newSecretObfuscator compileSecretRegex key entries).sortedObfuscateMappings :=
    pairwise_map.mpr (pairwise_insertionSort _ _)
  have hinsert := insertSortedObfuscateMapping_eq hlongest
    ⟨secret, (collectEntries compileSecretRegex key entries).index, buildPlaceholder secret key⟩
  rw [← hplain] at hsorted
  unfold newSecretObfuscator at hinsert ⊢
  rw [hcollect]
  simp only [remember, withoutCache, collectEntry, plainEntry, getD_some, Obfuscator.mk.injEq,
    hinsert, hsorted, true_and]
  cases entries with
  | nil => exact absurd rfl hents
  | cons => rfl

/-- The state without its cache is the one with the remembered secrets configured. -/
structure Remembers (compileSecretRegex : JsString → Option JsString → Option SecretRegex)
    (key : ObfuscationKey) (entries : List SecretEntry) (discovered : List JsString)
    (obfuscator : Obfuscator) : Prop where
  state : obfuscator.withoutCache =
    newSecretObfuscator compileSecretRegex key (entries ++ discovered.map plainEntry)
  cache : obfuscator.CacheValid
  secrets : obfuscator.obfuscateMappings.map (fun mapping ↦ mapping.2.1) =
    (newSecretObfuscator compileSecretRegex key entries).obfuscateMappings.map (fun mapping ↦ mapping.2.1) ++
      discovered
  found : ∀ secret ∈ discovered,
    ∃ entry ∈ (newSecretObfuscator compileSecretRegex key entries).regexEntries,
      entry.mode = .obfuscate ∧ ∃ text, secret ∈ entry.regex.matchValues text

variable {entries : List SecretEntry} {discovered : List JsString} {obfuscator : Obfuscator}

theorem remembers_new : Remembers compileSecretRegex key entries []
    (newSecretObfuscator compileSecretRegex key entries) where
  state := by rw [map_nil, append_nil]; rfl
  cache := fun h ↦ absurd h.symm Bool.false_ne_true
  secrets := (append_nil _).symm
  found := forall_mem_nil _

theorem Remembers.ensure (h : Remembers compileSecretRegex key entries discovered obfuscator) :
    Remembers compileSecretRegex key entries discovered obfuscator.ensureCombinedPlainRegex where
  state := by rw [withoutCache_ensureCombinedPlainRegex, h.state]
  cache := h.cache.ensure
  secrets := by
    rw [← h.secrets, ensureCombinedPlainRegex]
    split_ifs <;> rfl
  found := h.found

theorem Remembers.remember (h : Remembers compileSecretRegex key entries discovered obfuscator)
    (hents : entries ≠ []) {secret : JsString}
    (hsecret : obfuscator.obfuscateIndexBySecret.lookup secret = none)
    (hfound : ∃ entry ∈ (newSecretObfuscator compileSecretRegex key entries).regexEntries,
      entry.mode = .obfuscate ∧ ∃ text, secret ∈ entry.regex.matchValues text) :
    Remembers compileSecretRegex key entries (discovered ++ [secret]) (obfuscator.remember key secret) where
  state := by
    have hsecret' : obfuscator.withoutCache.obfuscateIndexBySecret.lookup secret = none := hsecret
    rw [h.state] at hsecret'
    calc (obfuscator.remember key secret).withoutCache
        = (obfuscator.withoutCache.remember key secret).withoutCache := rfl
      _ = newSecretObfuscator compileSecretRegex key
          (entries ++ discovered.map plainEntry ++ [plainEntry secret]) := by
        rw [h.state]
        exact withoutCache_remember (by simp [hents]) hsecret'
      _ = newSecretObfuscator compileSecretRegex key
          (entries ++ (discovered ++ [secret]).map plainEntry) := by
        rw [map_append, map_singleton, append_assoc]
  cache := fun hclean ↦ absurd hclean.symm Bool.false_ne_true
  secrets := by
    have hfresh : obfuscator.nextIndex ∉ obfuscator.obfuscateMappings.map Prod.fst := by
      change obfuscator.withoutCache.nextIndex ∉ obfuscator.withoutCache.obfuscateMappings.map Prod.fst
      rw [h.state]
      exact fun hmem ↦ lt_irrefl _ ((consistent_collectEntries _).below _ hmem)
    rw [Obfuscator.remember]
    rw [mapSet_eq_alter, alter_of_notMem hfresh, map_append, h.secrets, append_assoc, map_singleton]
  found := by
    intro other hother
    rcases mem_append.mp hother with hold | hnew
    · exact h.found other hold
    · rw [mem_singleton.mp hnew]
      exact hfound

theorem exists_remembers_replaceMatch (hents : entries ≠ [])
    (h : ∃ discovered, Remembers compileSecretRegex key entries discovered state.1) {entry : RegexEntry}
    (hentry : entry ∈ (newSecretObfuscator compileSecretRegex key entries).regexEntries)
    {matchValue : JsString} (hmatch : ∃ text, matchValue ∈ entry.regex.matchValues text) :
    ∃ discovered, Remembers compileSecretRegex key entries discovered
      (replaceMatch key entry state matchValue).1 := by
  rw [replaceMatch]
  cases hmode : entry.mode with
  | replace => exact h
  | obfuscate =>
    split_ifs with hknown
    · exact h
    · obtain ⟨discovered, h⟩ := h
      rw [Bool.not_eq_true, isSome_eq_false_iff, isNone_iff_eq_none] at hknown
      exact ⟨discovered ++ [matchValue], h.remember hents hknown ⟨entry, hentry, hmode, hmatch⟩⟩

theorem regexEntries_append_plain (secrets : List JsString) :
    (newSecretObfuscator compileSecretRegex key (entries ++ secrets.map plainEntry)).regexEntries =
      (newSecretObfuscator compileSecretRegex key entries).regexEntries := by
  change (collectEntries compileSecretRegex key _).regexEntries =
    (collectEntries compileSecretRegex key entries).regexEntries
  induction secrets using reverseRecOn with
  | nil => rw [map_nil, append_nil]
  | append_singleton secrets secret ih =>
    rw [← ih, map_append, ← append_assoc, collectEntries, foldl_append]
    rfl

/-- A call keeps the state that of a fresh obfuscator with what it has found configured. -/
theorem exists_remembers_obfuscate
    (h : ∃ discovered, Remembers compileSecretRegex key entries discovered obfuscator) (text : JsString) :
    ∃ discovered, Remembers compileSecretRegex key entries discovered (obfuscator.obfuscate key text).1 := by
  rw [obfuscate]
  split_ifs with hany
  · obtain ⟨discovered, h⟩ := h
    have hents : entries ≠ [] := by
      rintro rfl
      have hnone : discovered = [] := by
        rw [eq_nil_iff_forall_not_mem]
        intro secret hsecret
        obtain ⟨entry, hentry, -⟩ := h.found secret hsecret
        exact absurd hentry not_mem_nil
      have hany' := congrArg Obfuscator.hasAny h.state
      rw [hnone] at hany'
      exact absurd (hany.symm.trans hany') (Bool.false_ne_true).symm
    have hregex : obfuscator.regexEntries =
        (newSecretObfuscator compileSecretRegex key entries).regexEntries :=
      (congrArg Obfuscator.regexEntries h.state).trans (regexEntries_append_plain discovered)
    rw [hregex]
    apply foldlRecOn (motive := fun cur : Obfuscator × JsString ↦
      ∃ discovered, Remembers compileSecretRegex key entries discovered cur.1) _ _ ⟨discovered, h.ensure⟩
    intro cur hcur entry hentry
    apply foldlRecOn (motive := fun next : Obfuscator × JsString ↦
      ∃ discovered, Remembers compileSecretRegex key entries discovered next.1) _ _ hcur
    intro next hnext matchValue hmatch
    exact exists_remembers_replaceMatch hents hnext hentry ⟨cur.2, hmatch⟩
  · exact h

variable (compileSecretRegex key) in
/-- The obfuscator after calls on some texts. -/
def afterTexts (entries : List SecretEntry) (texts : List JsString) : Obfuscator :=
  texts.foldl (fun obfuscator text ↦ (obfuscator.obfuscate key text).1)
    (newSecretObfuscator compileSecretRegex key entries)

variable (compileSecretRegex key) in
/-- The secrets that were mapped since the construction, in their order. -/
def discoveredSecrets (entries : List SecretEntry) (texts : List JsString) : List JsString :=
  ((afterTexts compileSecretRegex key entries texts).obfuscateMappings.drop
    (newSecretObfuscator compileSecretRegex key entries).obfuscateMappings.length).map fun mapping ↦
      mapping.2.1

theorem remembers_afterTexts (entries : List SecretEntry) (texts : List JsString) :
    Remembers compileSecretRegex key entries (discoveredSecrets compileSecretRegex key entries texts)
      (afterTexts compileSecretRegex key entries texts) := by
  have hexists : ∃ discovered, Remembers compileSecretRegex key entries discovered
      (afterTexts compileSecretRegex key entries texts) := by
    apply foldlRecOn (motive := fun cur : Obfuscator ↦
      ∃ discovered, Remembers compileSecretRegex key entries discovered cur) _ _ ⟨[], remembers_new⟩
    intro cur hcur text _
    exact exists_remembers_obfuscate hcur text
  obtain ⟨discovered, h⟩ := hexists
  have hdiscovered : discoveredSecrets compileSecretRegex key entries texts = discovered := by
    rw [discoveredSecrets, map_drop, h.secrets, drop_left' (length_map _)]
  rw [hdiscovered]
  exact h

end

/-- What is sent depends on earlier texts only through the secrets that the regular expressions found
in them: it is what a fresh obfuscator sends that has these secrets configured as well. -/
theorem obfuscate_afterTexts
    (compileSecretRegex : JsString → Option JsString → Option SecretRegex) (key : ObfuscationKey)
    (entries : List SecretEntry) (texts : List JsString) :
    (∀ secret ∈ discoveredSecrets compileSecretRegex key entries texts,
      ∃ entry ∈ (newSecretObfuscator compileSecretRegex key entries).regexEntries,
        entry.mode = .obfuscate ∧ ∃ text, secret ∈ entry.regex.matchValues text) ∧
      ∀ text, ((afterTexts compileSecretRegex key entries texts).obfuscate key text).2 =
        ((newSecretObfuscator compileSecretRegex key (entries ++
          (discoveredSecrets compileSecretRegex key entries texts).map plainEntry)).obfuscate key text).2 := by
  have h := @remembers_afterTexts compileSecretRegex key entries texts
  refine ⟨h.found, fun text ↦ ?_⟩
  rw [h.cache.obfuscate_eq, h.state]

/-! ## A discovery that changes a later redaction -/

/-- The expression for a run of exclamation marks. -/
def bangRegex : SecretRegex where
  exec text lastIndex :=
    let skip := ((text.drop lastIndex).takeWhile (· ≠ 0x21)).length
    let run := (text.drop (lastIndex + skip)).takeWhile (· = 0x21)
    if run = [] then none else some (lastIndex + skip, run)
  inside := by
    intro text lastIndex start found h
    dsimp only at h
    split_ifs at h with hrun
    rw [Option.some.injEq, Prod.mk.injEq] at h
    obtain ⟨rfl, rfl⟩ := h
    refine ⟨Nat.le_add_right _ _, List.takeWhile_prefix _, ?_⟩
    by_contra hlong
    rw [List.drop_eq_nil_of_le (by omega)] at hrun
    exact hrun rfl

def sampleKey : ObfuscationKey where
  tag secret := (if secret.length = 1 then 0x41 else 0x42) :: List.replicate 21 0x41
  generateDeterministicReplacement secret := List.replicate secret.length 0x41
  tag_length secret := rfl
  tag_units secret unit hunit := by
    rcases List.mem_cons.mp hunit with rfl | hunit
    · split_ifs <;> decide
    · rw [List.eq_of_mem_replicate hunit]
      decide

def bangEntries : List SecretEntry := [⟨.regex, utf16 "!+", none, none, none⟩]

/-- Once `!` was found, the longer match is no longer seen. -/
theorem discovery_changes_redaction :
    ((newSecretObfuscator (fun _ _ ↦ some bangRegex) sampleKey bangEntries).obfuscate sampleKey
        (utf16 "!!")).2 = buildPlaceholder (utf16 "!!") sampleKey ∧
      ((afterTexts (fun _ _ ↦ some bangRegex) sampleKey bangEntries [utf16 "!"]).obfuscate sampleKey
        (utf16 "!!")).2 = buildPlaceholder (utf16 "!") sampleKey ++ buildPlaceholder (utf16 "!") sampleKey ∧
      buildPlaceholder (utf16 "!!") sampleKey ≠
        buildPlaceholder (utf16 "!") sampleKey ++ buildPlaceholder (utf16 "!") sampleKey := by
  refine ⟨?_, ?_, ?_⟩
  · decide +kernel
  · decide +kernel
  · decide +kernel

end GajaeCode.Secrets
