import GajaeCode.Secrets.History

/-!
# One pass or one secret after another

Plain secrets are replaced in one pass unless a secret or a replacement contains a secret. Secrets
that only overlap are not looked for: the pass takes the one that begins first, one secret after
another takes the longest.
-/

namespace GajaeCode.Secrets

open Text Chain Obfuscator List ObfuscateMapping

variable {key : ObfuscationKey} {rules : List (Rule UInt16)}

/-- The number sign that opens and closes a placeholder. -/
def hashUnit : UInt16 := 0x23

/-! ## The mappings of an obfuscator -/

section

variable {compileSecretRegex : JsString → Option JsString → Option SecretRegex} {key : ObfuscationKey}

/-- Every secret once, with its placeholder. -/
structure IsMappingList (key : ObfuscationKey) (rules : List (Rule UInt16)) : Prop where
  nodup : (rules.map Rule.pattern).Nodup
  placeholder : ∀ rule ∈ rules, rule.replacement = buildPlaceholder rule.pattern key

theorem isMappingList_new (entries : List SecretEntry) :
    IsMappingList key ((newSecretObfuscator compileSecretRegex key entries).sortedObfuscateMappings.map
      rule) := by
  have hconsistent := @consistent_collectEntries compileSecretRegex key entries
  have hsorted : (newSecretObfuscator compileSecretRegex key entries).sortedObfuscateMappings =
    sortedMappings (collectEntries compileSecretRegex key entries).plainMappings
      (collectEntries compileSecretRegex key entries).obfuscateMappings := rfl
  rw [hsorted]
  constructor
  · rw [sortedMappings, map_map, map_map]
    exact ((perm_insertionSort _ _).map Prod.fst).nodup_iff.mpr hconsistent.nodup
  · intro rule hrule
    rw [sortedMappings, map_map, mem_map] at hrule
    obtain ⟨pair, hpair, rfl⟩ := hrule
    rw [sortLongestFirst, mem_insertionSort] at hpair
    change placeholderOf _ pair.2 = _
    rw [placeholderOf, hconsistent.mapped pair hpair, Option.map_some, Option.getD_some]
    rfl

end

/-! ## The two ways as rewriting -/

theorem rewrite_no_rules (text : JsString) : rewrite [] 0 text = text := by
  have hkeep := @rewrite_append_of_forall UInt16 _ [] text [] fun _ _ _ ↦ rfl
  rwa [append_nil, rewrite_nil (by simp), append_nil] at hkeep

theorem replacementBySecret_eq (h : (rules.map Rule.pattern).Nodup) :
    replacementBySecret rules = rules.map fun rule ↦ (rule.pattern, rule.replacement) := by
  induction rules using reverseRecOn with
  | nil => rfl
  | append_singleton rules rule ih =>
    rw [map_append, nodup_append] at h
    have hfresh : rule.pattern ∉ (rules.map fun rule ↦ (rule.pattern, rule.replacement)).map Prod.fst := by
      rw [map_map]
      intro hmem
      exact h.2.2 rule.pattern hmem rule.pattern (mem_singleton_self _) rfl
    have hnone := (@lookup_eq_none_iff_notMem JsString JsString _ _
      (rules.map fun rule ↦ (rule.pattern, rule.replacement)) rule.pattern).mpr hfresh
    rw [replacementBySecret, foldl_append, ← replacementBySecret, ih h.1, foldl_cons,
      foldl_nil, hnone, Option.isSome_none, if_neg Bool.false_ne_true, mapSet_eq_alter,
      alter_of_notMem hfresh, map_append, map_singleton]

theorem replaceCombined_eq (h : (rules.map Rule.pattern).Nodup) (text : JsString) :
    replaceCombined (rules.map Rule.pattern) (replacementBySecret rules) text = rewrite rules 0 text := by
  have hkeys : ((rules.map fun rule ↦ (rule.pattern, rule.replacement)).map Prod.fst).Nodup := by
    rw [map_map]
    exact h
  have hrules : (rules.map Rule.pattern).map (fun secret ↦ (⟨secret,
      ((rules.map fun rule ↦ (rule.pattern, rule.replacement)).lookup secret).getD secret⟩ : Rule UInt16)) =
      rules := by
    rw [map_map]
    apply (map_congr_left _).trans (map_id rules)
    intro rule hrule
    have hlookup := lookup_of_mem hkeys (mem_map_of_mem hrule)
    rw [Function.comp_apply, hlookup, Option.getD_some, id]
  rw [replaceCombined, replacementBySecret_eq h, hrules]

section

variable {rules : List (Rule UInt16)} {obfuscator : Obfuscator}

section

variable (hreplace : obfuscator.sortedReplaceMappings = [])
  (hrules : obfuscator.sortedObfuscateMappings.map ObfuscateMapping.rule = rules)

include hreplace hrules

theorem plainRules_withoutCache : obfuscator.withoutCache.plainRules = rules := by
  rw [← hrules, plainRules]
  change obfuscator.sortedReplaceMappings ++ _ = _
  rw [hreplace, nil_append]
  rfl

theorem useSequentialPlainReplacement_eq (hcache : obfuscator.CacheValid) :
    obfuscator.ensureCombinedPlainRegex.useSequentialPlainReplacement = needsSequential rules := by
  rw [hcache.ensure_eq, ← plainRules_withoutCache hreplace hrules]
  rfl

/-- What the two ways give when there are only mappings of obfuscate mode. -/
theorem obfuscatePlainMappings_eq (hcache : obfuscator.CacheValid)
    (hnodup : (rules.map Rule.pattern).Nodup) (hfast : needsSequential rules = false) (text : JsString) :
    (obfuscator.obfuscatePlainMappings text).2 = rewrite rules 0 text ∧
      obfuscator.obfuscatePlainMappingsSequential text = rewriteAll rules text := by
  have hplain := plainRules_withoutCache hreplace hrules
  constructor
  · have hregex : obfuscator.withoutCache.ensureCombinedPlainRegex.combinedPlainRegex =
        if 0 < rules.length then some (rules.map Rule.pattern) else none := by
      rw [← hplain]
      rfl
    have hbySecret : obfuscator.withoutCache.ensureCombinedPlainRegex.combinedPlainReplacementBySecret =
        replacementBySecret rules := by
      rw [← hplain]
      rfl
    have hsequential := useSequentialPlainReplacement_eq hreplace hrules hcache
    rw [hcache.ensure_eq] at hsequential
    rw [obfuscatePlainMappings, hcache.ensure_eq]
    rw [replacePlain, hsequential, hfast, if_neg Bool.false_ne_true, hregex, hbySecret]
    cases hlist : rules with
    | nil =>
      exact (rewrite_no_rules text).symm
    | cons =>
      rw [← hlist, if_pos (by rw [hlist]; exact Nat.succ_pos _)]
      exact replaceCombined_eq hnodup text
  · rw [obfuscatePlainMappingsSequential, hreplace, hrules]
    rfl

end

/-! ## When the pass is chosen -/

theorem not_needsSequential (hfast : needsSequential rules = false) {i j : ℕ} {mapping other : Rule UInt16}
    (hi : rules[i]? = some mapping) (hj : rules[j]? = some other) (hne : other.pattern ≠ []) :
    ¬ other.pattern <:+: mapping.replacement ∧
      (i ≠ j → ¬ other.pattern <:+: mapping.pattern ∧ ¬ mapping.pattern <:+: other.pattern) := by
  have hpos := length_pos_iff.mpr hne
  rw [needsSequential, any_eq_false] at hfast
  have hmapping := hfast (mapping, i) (mem_zipIdx_iff_getElem?.mpr hi)
  rw [Bool.not_eq_true, any_eq_false] at hmapping
  have hother := hmapping (other, j) (mem_zipIdx_iff_getElem?.mpr hj)
  simp only [hpos, decide_true, Bool.true_and, Bool.or_eq_true, Bool.and_eq_true, decide_eq_true_eq,
    not_or, not_and] at hother
  exact hother

/-- No secret is empty, and no secret runs into one that is replaced before it or meets its
placeholder. -/
def PlainApart (rules : List (Rule UInt16)) : Prop :=
  (∀ rule ∈ rules, rule.pattern ≠ []) ∧ rules.Pairwise Rule.Apart

theorem pairwise_distinct_of_fast (hfast : needsSequential rules = false)
    (hne : ∀ rule ∈ rules, rule.pattern ≠ []) : rules.Pairwise Rule.Distinct := by
  rw [pairwise_iff_getElem]
  intro i j hi hj hij
  have hnot := (not_needsSequential hfast (getElem?_eq_getElem hi) (getElem?_eq_getElem hj)
    (hne _ (getElem_mem hj))).2 hij.ne
  exact ⟨hnot.2, hnot.1⟩

theorem rewrite_eq_of_plainApart (hfast : needsSequential rules = false) (h : PlainApart rules)
    (text : JsString) : rewrite rules 0 text = rewriteAll rules text := by
  apply rewrite_eq_rewriteAll h.1
  exact (pairwise_distinct_of_fast hfast h.1).and h.2

/-- The pass inserts the placeholder of an empty secret everywhere. -/
theorem ne_nil_of_agree (hlist : IsMappingList key rules)
    (h : ∀ text, rewrite rules 0 text = rewriteAll rules text) : ∀ rule ∈ rules, rule.pattern ≠ [] := by
  intro rule hrule hnil
  have hsequential : rewriteAll rules [] = [] := by
    apply foldlRecOn (motive := fun text : JsString ↦ text = []) _ _ rfl
    intro text htext other _
    rw [htext, replaceAll]
    apply if_pos
    by_cases hother : other.pattern = []
    · exact .inl hother
    · exact .inr fun hcont ↦ hother (infix_nil.mp hcont)
  have hempty := (h []).trans hsequential
  rw [rewrite] at hempty
  cases hat : ruleAt rules [] with
  | none =>
    rw [ruleAt_eq_none_iff] at hat
    exact hat rule hrule (hnil ▸ nil_prefix)
  | some first =>
    rw [hat, Option.map_some, Option.getD_some, hlist.placeholder first (of_ruleAt_eq_some hat).1] at hempty
    exact cons_ne_nil _ _ hempty

/-- A secret without number signs does not meet a placeholder that does not contain it. -/
theorem not_meets_placeholder {secret other : JsString} (hhash : hashUnit ∉ secret)
    (hcont : ¬ secret <:+: buildPlaceholder other key) : ¬ Meets secret (buildPlaceholder other key) := by
  rintro (⟨shared, hne, hsuffix, hbegins⟩ | ⟨shared, hne, hsuffix, hbegins⟩ | hinside | hinside)
  · obtain ⟨unit, rest, rfl⟩ := exists_cons_of_ne_nil hne
    have hunit : unit = hashUnit := (cons_prefix_cons.mp hbegins).1
    exact hhash (hunit ▸ hsuffix.subset mem_cons_self)
  · obtain ⟨front, hfront, -⟩ := (suffix_concat_iff.mp hsuffix).resolve_left hne
    apply hhash
    apply hbegins.subset
    rw [hfront]
    exact mem_append_right _ (mem_singleton_self _)
  · exact hcont hinside
  · exact hhash (hinside.subset (mem_append_right _ (mem_singleton_self _)))

/-- Without number signs in the secrets, the two ways agree only if no secret runs into one that is
replaced before it. -/
theorem plainApart_of_agree (hlist : IsMappingList key rules)
    (hfast : needsSequential rules = false) (hhash : ∀ rule ∈ rules, hashUnit ∉ rule.pattern)
    (h : ∀ text, rewrite rules 0 text = rewriteAll rules text) : PlainApart rules := by
  have hne := ne_nil_of_agree hlist h
  have hmarked : Marked hashUnit rules := by
    refine ⟨hne, hhash, fun rule hrule ↦ ?_, fun left hleft right hright hcontains ↦ ?_⟩
    · rw [hlist.placeholder rule hrule]
      exact ⟨_, rfl⟩
    · obtain ⟨i, hi⟩ := getElem?_of_mem hleft
      obtain ⟨j, hj⟩ := getElem?_of_mem hright
      by_cases hij : i = j
      · subst hij
        rwa [hi, Option.some.injEq] at hj
      · exact absurd hcontains ((not_needsSequential hfast hi hj (hne right hright)).2 hij).2
  refine ⟨hne, pairwise_iff_forall_sublist.mpr fun {earlier later} hsub ↦ ?_⟩
  obtain ⟨front, middle, hsplit, hearlier, hlater⟩ := cons_sublist_iff.mp hsub
  rw [singleton_sublist] at hlater
  have hmem : earlier ∈ rules := hsplit ▸ mem_append_left _ hearlier
  have hmem' : later ∈ rules := hsplit ▸ mem_append_right _ hlater
  constructor
  · intro hruns
    obtain ⟨before, after, hfront⟩ := append_of_mem hearlier
    have hcut : rules = before ++ earlier :: (after ++ middle) := by
      rw [hsplit, hfront, append_assoc, cons_append]
    obtain ⟨text, hdiffer⟩ := exists_rewrite_ne_rewriteAll hmarked hcut
      (mem_append_right _ hlater) (Nodup.of_map _ hlist.nodup) hruns
    exact hdiffer (h text)
  · rw [hlist.placeholder earlier hmem]
    apply not_meets_placeholder (hhash later hmem')
    rw [← hlist.placeholder earlier hmem]
    obtain ⟨i, hi⟩ := getElem?_of_mem hmem
    obtain ⟨j, hj⟩ := getElem?_of_mem hmem'
    exact (not_needsSequential hfast hi hj (hne later hmem')).1

end

/-- Where the single pass is chosen, it gives what one secret after another gives if the secrets and
placeholders keep apart, and for secrets without number signs only then. -/
theorem singlePass_agrees
    (compileSecretRegex : JsString → Option JsString → Option SecretRegex) (key : ObfuscationKey)
    (entries : List SecretEntry) (texts : List JsString) {obfuscator : Obfuscator}
    (hobfuscator : obfuscator = afterTexts compileSecretRegex key entries texts)
    (hreplace : obfuscator.sortedReplaceMappings = [])
    (hfast : obfuscator.ensureCombinedPlainRegex.useSequentialPlainReplacement = false) :
    (PlainApart (obfuscator.sortedObfuscateMappings.map rule) →
      ∀ text, (obfuscator.obfuscatePlainMappings text).2 =
        obfuscator.obfuscatePlainMappingsSequential text) ∧
      ((∀ mapping ∈ obfuscator.sortedObfuscateMappings, hashUnit ∉ mapping.secret) →
        ((∀ text, (obfuscator.obfuscatePlainMappings text).2 =
          obfuscator.obfuscatePlainMappingsSequential text) ↔
          PlainApart (obfuscator.sortedObfuscateMappings.map rule))) := by
  have hcache := (@remembers_afterTexts compileSecretRegex key entries texts).cache
  have hstate := (@remembers_afterTexts compileSecretRegex key entries texts).state
  have hlist := @isMappingList_new compileSecretRegex key
    (entries ++ (discoveredSecrets compileSecretRegex key entries texts).map plainEntry)
  rw [← congrArg Obfuscator.sortedObfuscateMappings hstate] at hlist
  rw [← hobfuscator] at hcache hlist
  rw [useSequentialPlainReplacement_eq hreplace rfl hcache] at hfast
  have hways := fun text ↦ obfuscatePlainMappings_eq hreplace rfl hcache hlist.nodup hfast text
  have hiff : (∀ text, (obfuscator.obfuscatePlainMappings text).2 =
      obfuscator.obfuscatePlainMappingsSequential text) ↔
      ∀ text, rewrite (obfuscator.sortedObfuscateMappings.map rule) 0 text =
        rewriteAll (obfuscator.sortedObfuscateMappings.map rule) text := by
    apply forall_congr'
    intro text
    rw [(hways text).1, (hways text).2]
  rw [hiff]
  refine ⟨rewrite_eq_of_plainApart hfast, fun hhash ↦ ⟨fun h ↦ ?_, rewrite_eq_of_plainApart hfast⟩⟩
  apply plainApart_of_agree hlist hfast _ h
  intro rule hrule
  obtain ⟨mapping, hmapping, rfl⟩ := mem_map.mp hrule
  exact hhash mapping hmapping

/-- Two secrets that only overlap. -/
def overlappingEntries : List SecretEntry := [plainEntry (utf16 "bcd"), plainEntry (utf16 "ab")]

/-- The pass takes `ab`, which begins first; one secret after another takes `bcd`. -/
theorem singlePass_differs_on_overlap : (newSecretObfuscator (fun _ _ ↦ none) sampleKey
        overlappingEntries).ensureCombinedPlainRegex.useSequentialPlainReplacement = false ∧
      ((newSecretObfuscator (fun _ _ ↦ none) sampleKey overlappingEntries).obfuscatePlainMappings
        (utf16 "abcd")).2 = buildPlaceholder (utf16 "ab") sampleKey ++ utf16 "cd" ∧
      (newSecretObfuscator (fun _ _ ↦ none) sampleKey overlappingEntries).obfuscatePlainMappingsSequential
        (utf16 "abcd") = utf16 "a" ++ buildPlaceholder (utf16 "bcd") sampleKey ∧
      buildPlaceholder (utf16 "ab") sampleKey ++ utf16 "cd" ≠
        utf16 "a" ++ buildPlaceholder (utf16 "bcd") sampleKey := by
  refine ⟨?_, ?_, ?_, ?_⟩
  · decide +kernel
  · decide +kernel
  · decide +kernel
  · decide +kernel

/-- Two secrets that keep apart. -/
theorem singlePass_agrees_on_apart :
    ((afterTexts (fun _ _ ↦ none) sampleKey [plainEntry (utf16 "xy"), plainEntry (utf16 "ab")]
      []).obfuscatePlainMappings (utf16 "xyab")).2 =
        (afterTexts (fun _ _ ↦ none) sampleKey [plainEntry (utf16 "xy"), plainEntry (utf16 "ab")]
          []).obfuscatePlainMappingsSequential (utf16 "xyab") := by
  refine ((singlePass_agrees (fun _ _ ↦ none) sampleKey
    [plainEntry (utf16 "xy"), plainEntry (utf16 "ab")] [] rfl (by decide +kernel) (by decide +kernel)).2
    (by decide +kernel)).mpr ?_ (utf16 "xyab")
  refine ⟨by decide, pairwise_pair.mpr ⟨?_, ?_⟩⟩
  · rintro ⟨shared, hne, hsuffix, hbegins⟩
    obtain ⟨unit, rest, rfl⟩ := exists_cons_of_ne_nil hne
    have hunit : unit = 0x78 := (cons_prefix_cons.mp hbegins).1
    exact absurd (hunit ▸ hsuffix.subset mem_cons_self) (by decide)
  · exact not_meets_placeholder (by decide) (by decide +kernel)

end GajaeCode.Secrets
