import GajaeCode.Session.Replay

/-!
# Rebuilding the context from the sidecar

Once a session is compacted, the entries before the first kept one are retired to a sidecar. A
read then builds the context from two parts: the newest provider-state entry of each kind, chained
by synthetic parents, and the entries from the first kept one on, hung below that chain. The first
part is taken over the whole branch, so it can end with an entry of the second.
-/

namespace GajaeCode.Session

open Text Json Chain List Option SessionEntry Replay CompactionData

open SessionEntry (modelWrite assistantWrite ttsrEvents unlinked)

variable {β : Type} {front hot : List SessionEntry}

inductive ProviderStateKey
  | modelProfileOwnership
  | configuredModelChain (role : JsString)
  | thinkingLevelChange
  | modelChange
  | serviceTierChange
  | mcpToolSelection
  | discoveredBuiltinToolSelection
  | modeChange
  | ttsrInjection
  deriving DecidableEq

/-- The key under which the newest entry of its kind is retained. -/
def providerStateEntryKey (entry : SessionEntry) : Option ProviderStateKey :=
  match entry.body with
  | .custom customType _ =>
    if customType = modelProfileOwnershipEntry then some .modelProfileOwnership else none
  | .configuredModelChain role _ _ _ _ _ => some (.configuredModelChain role)
  | .thinkingLevelChange _ => some .thinkingLevelChange
  | .modelChange _ _ _ => some .modelChange
  | .serviceTierChange _ => some .serviceTierChange
  | .mcpToolSelection _ _ => some .mcpToolSelection
  | .discoveredBuiltinToolSelection _ => some .discoveredBuiltinToolSelection
  | .modeChange _ _ => some .modeChange
  | .ttsrInjection _ _ _ => some .ttsrInjection
  | _ => none

variable (path : List SessionEntry)

/-- The newest provider-state entry of each key on a path, in path order. -/
def resolvedProviderStateEntries : List SessionEntry :=
  (latestByKey providerStateEntryKey [] path.reverse).reverse

/-- The walk from the leaf up to the first kept entry of the first compaction it meets. -/
def cutAtFirstKept : Option JsString → List SessionEntry → List SessionEntry
  | _, [] => []
  | active, entry :: above =>
    let active := active.or (entry.compaction?.map CompactionData.firstKeptEntryId)
    if active = some entry.id then [entry] else entry :: cutAtFirstKept active above

def activePathEntriesForProviderContext : List SessionEntry :=
  (cutAtFirstKept none path.reverse).reverse

/-- Each entry becomes the parent of the next. -/
def chainUnder : Option JsString → List SessionEntry → List SessionEntry
  | _, [] => []
  | parentId, entry :: rest => { entry with parentId } :: chainUnder (some entry.id) rest

variable (parentId : Option JsString)

/-- The first entry is hung below `parentId`, if there is one. -/
def hangUnder : List SessionEntry → List SessionEntry
  | [] => []
  | entry :: rest => { entry with parentId := parentId.or entry.parentId } :: rest

def detachedEntries (state hot : List SessionEntry) : List SessionEntry :=
  chainUnder none state ++ hangUnder ((state.getLast?.map SessionEntry.id).filter (· ≠ [])) hot

/-- A read of the context of the leaf while the sidecar holds the retired entries. -/
def getSessionContextForRead (measure : SessionContext → ℕ) (budgetBytes : ℕ)
    (entries : List SessionEntry) (leafId : JsString) : Except ContextError SessionContext :=
  let path := walkPath entries (lookup SessionEntry.id entries leafId)
  buildSessionContext measure budgetBytes
    (detachedEntries (resolvedProviderStateEntries path) (activePathEntriesForProviderContext path))
    (.entry leafId)

/-! ## The detached entries -/

theorem map_chainUnder (f : SessionEntry → β)
    (hf : ∀ entry parentId, f { entry with parentId := parentId } = f entry)
    (entries : List SessionEntry) :
    ∀ parentId, (chainUnder parentId entries).map f = entries.map f := by
  induction entries with
  | nil => exact fun _ ↦ rfl
  | cons entry rest ih =>
    intro parentId
    rw [chainUnder, map_cons, map_cons, hf, ih]

theorem map_hangUnder (f : SessionEntry → β)
    (hf : ∀ entry parentId, f { entry with parentId := parentId } = f entry)
    (parentId : Option JsString) (entries : List SessionEntry) :
    (hangUnder parentId entries).map f = entries.map f := by
  cases entries with
  | nil => rfl
  | cons => rw [hangUnder, map_cons, map_cons, hf]

variable (entries : List SessionEntry)

theorem map_id_chainUnder :
    (chainUnder parentId entries).map SessionEntry.id = entries.map SessionEntry.id :=
  map_chainUnder SessionEntry.id (fun _ _ ↦ rfl) entries parentId

theorem map_id_hangUnder :
    (hangUnder parentId entries).map SessionEntry.id = entries.map SessionEntry.id :=
  map_hangUnder SessionEntry.id (fun _ _ ↦ rfl) parentId entries

/-- A child follows its parent. -/
abbrev Follows (above child : SessionEntry) : Prop := child.parentId = some above.id

theorem isChain_hangUnder {parentId : Option JsString} {entries : List SessionEntry}
    (h : entries.IsChain Follows) : (hangUnder parentId entries).IsChain Follows := by
  cases entries with
  | nil => exact h
  | cons entry rest =>
    cases rest with
    | nil => exact isChain_singleton _
    | cons =>
      have hlinks := isChain_cons_cons.mp h
      exact isChain_cons_cons.mpr ⟨hlinks.1, hlinks.2⟩

theorem isChain_chainUnder : ∀ parentId, (chainUnder parentId entries).IsChain Follows := by
  induction entries with
  | nil => exact fun _ ↦ isChain_nil
  | cons entry rest ih =>
    intro parentId
    cases rest with
    | nil => exact isChain_singleton _
    | cons => exact isChain_cons_cons.mpr ⟨rfl, ih (some entry.id)⟩

theorem ne_nil_of_map_id {left right : List SessionEntry}
    (hids : left.map SessionEntry.id = right.map SessionEntry.id)
    (hnamed : ∀ entry ∈ right, entry.id ≠ []) : ∀ entry ∈ left, entry.id ≠ [] := by
  rw [← forall_mem_map (P := fun id ↦ id ≠ [])] at hnamed ⊢
  rwa [hids]

/-- The walk from the end of `hot` stays in `hot` when the parent of its first entry is there. -/
theorem walkPath_append_of_root_mem
    (hlinked : hot.IsChain Follows) (hnodup : (hot.map SessionEntry.id).Nodup)
    (hnamed : ∀ entry ∈ hot, entry.id ≠ [])
    (hroot : ∀ entry ∈ hot.head?, ∀ id ∈ entry.parent, id ∈ hot.map SessionEntry.id) :
    walkPath (front ++ hot) hot.getLast? = hot := by
  have hlookup : ∀ entry ∈ hot, lookup SessionEntry.id (front ++ hot) entry.id = some entry := by
    intro entry hentry
    rw [Chain.lookup_append, lookup_of_nodup hnodup hentry, some_or]
  have hascent : IsAscent SessionEntry.id parent (front ++ hot) [] hot.reverse :=
    { linked := by
        rw [isChain_reverse]
        apply IsChain.imp_of_mem_imp _ hlinked
        intro above child habove _ hlink
        have hparent : child.parent = some above.id := by
          simp [parent, hlink, hnamed above habove]
        rw [parentNode, hparent, bind_some, hlookup above habove]
      nodup := by
        rw [map_reverse]
        exact nodup_reverse.mpr hnodup
      fresh := by simp
      ends := by
        intro entry hentry above habove
        rw [getLast?_reverse] at hentry
        obtain ⟨id, hid, hfound⟩ := bind_eq_some_iff.mp habove
        right
        rw [(mem_of_lookup hfound).2, map_reverse, mem_reverse]
        exact hroot entry hentry id hid }
  have hfuel : hot.reverse.length ≤ (front ++ hot).length := by simp
  have hascend := ascend_eq_of_isAscent hascent hfuel
  rw [head?_reverse] at hascend
  rw [walkPath, hascend, reverse_reverse]

/-! ## The path a read walks -/

theorem cutAtFirstKept_append {first : SessionEntry} (above : List SessionEntry) :
    ∀ (below : List SessionEntry) (active : Option JsString),
      (∀ entry ∈ below, entry.id ≠ first.id) →
      active.or ((below ++ [first]).findSome? fun entry ↦
        entry.compaction?.map firstKeptEntryId) = some first.id →
      cutAtFirstKept active (below ++ first :: above) = below ++ [first] := by
  intro below
  induction below with
  | nil =>
    intro active _ hactive
    have hfirst : active.or (first.compaction?.map firstKeptEntryId) = some first.id := by
      rw [← hactive]
      cases hcompact : first.compaction? <;> simp [hcompact]
    simp [cutAtFirstKept, hfirst]
  | cons entry below ih =>
    intro active hne hactive
    have hstep : (active.or (entry.compaction?.map firstKeptEntryId)).or
        ((below ++ [first]).findSome? fun entry ↦
          entry.compaction?.map firstKeptEntryId) = some first.id := by
      rw [← hactive, Option.or_assoc, cons_append, findSome?_cons]
      cases hcompact : entry.compaction? <;> simp
    have hother : active.or (entry.compaction?.map firstKeptEntryId) ≠ some entry.id := by
      intro hsame
      rw [hsame, some_or, some.injEq] at hstep
      exact hne entry mem_cons_self hstep
    simp only [cons_append, cutAtFirstKept, if_neg hother, cons.injEq, true_and]
    exact ih _ (fun other hmem ↦ hne other (mem_cons_of_mem _ hmem)) hstep

/-- A linear chain split before the first kept entry of its latest compaction. -/
structure RetirementSplit (cold hot : List SessionEntry) : Prop where
  path : IsPath (cold ++ hot)
  kinds : ∀ entry ∈ cold ++ hot, entry.isLinearKind = true
  split : ∃ compaction, lastWrite SessionEntry.asCompaction? hot = some compaction ∧
    hot.head?.map SessionEntry.id = some compaction.data.firstKeptEntryId

namespace RetirementSplit

variable {cold hot : List SessionEntry} (h : RetirementSplit cold hot)

include h

theorem hot_ne_nil : hot ≠ [] := by
  obtain ⟨compaction, hlast, _⟩ := h.split
  rintro rfl
  cases hlast

theorem getLast?_append : (cold ++ hot).getLast? = hot.getLast? := by
  rw [List.getLast?_append, getLast?_eq_getLast_of_ne_nil h.hot_ne_nil, some_or]

theorem disjoint : ∀ old ∈ cold, ∀ recent ∈ hot, old.id ≠ recent.id := by
  have hnodup := h.path.nodup
  rw [map_append, nodup_append] at hnodup
  intro old hold recent hrecent
  exact hnodup.2.2 _ (mem_map_of_mem hold) _ (mem_map_of_mem hrecent)

theorem nodup_hot : (hot.map SessionEntry.id).Nodup :=
  h.path.nodup.sublist ((sublist_append_right cold hot).map SessionEntry.id)

theorem named_hot : ∀ entry ∈ hot, entry.id ≠ [] :=
  fun entry hentry ↦ h.path.named entry (mem_append_right _ hentry)

theorem linked_hot : hot.IsChain Follows := (isChain_append.mp h.path.linked).2.1

/-- The walk of a read stops where the chain was split. -/
theorem activePathEntries_eq : activePathEntriesForProviderContext (cold ++ hot) = hot := by
  obtain ⟨compaction, hlast, hhead⟩ := h.split
  obtain ⟨first, rest, rfl⟩ := exists_cons_of_ne_nil h.hot_ne_nil
  have hfirst : first.id = compaction.data.firstKeptEntryId := by simpa using hhead
  have hne : ∀ entry ∈ rest.reverse, entry.id ≠ first.id := by
    intro entry hentry heq
    have hnodup := h.nodup_hot
    rw [map_cons, nodup_cons, ← heq] at hnodup
    exact hnodup.1 (mem_map_of_mem (mem_reverse.mp hentry))
  have hactive : (none : Option JsString).or ((rest.reverse ++ [first]).findSome? fun entry ↦
      entry.compaction?.map firstKeptEntryId) = some first.id := by
    rw [none_or, ← reverse_cons, ← lastWrite_eq_findSome?, hfirst]
    have hmap := congrArg (Option.map fun entry : CompactionEntry ↦ entry.data.firstKeptEntryId) hlast
    rw [lastWrite, ← getLast?_map, map_filterMap] at hmap
    simpa [lastWrite, asCompaction?, Function.comp_def] using hmap
  have hcut := cutAtFirstKept_append cold.reverse rest.reverse none hne hactive
  rw [activePathEntriesForProviderContext, reverse_append, reverse_cons,
    append_assoc, singleton_append, hcut, reverse_append, reverse_reverse]
  rfl

end RetirementSplit

/-- The retired provider-state entries that a read still replays: none of them once the hot part
has a provider-state entry of its own, since the synthetic chain then ends in the hot part. -/
def survivingState (cold hot : List SessionEntry) : List SessionEntry :=
  if hot.any fun entry ↦ (providerStateEntryKey entry).isSome then []
  else resolvedProviderStateEntries cold

theorem resolvedProviderStateEntries_sublist : (resolvedProviderStateEntries path).Sublist path := by
  have h : (latestByKey providerStateEntryKey [] path.reverse).Sublist path.reverse :=
    latestByKey_sublist path.reverse []
  simpa only [resolvedProviderStateEntries, reverse_reverse] using h.reverse

theorem survivingState_sublist (cold hot : List SessionEntry) :
    (survivingState cold hot).Sublist cold := by
  rw [survivingState]
  split_ifs
  · exact nil_sublist cold
  · exact resolvedProviderStateEntries_sublist cold

namespace RetirementSplit

variable {cold hot : List SessionEntry} (h : RetirementSplit cold hot)

include h

/-- With a provider-state entry in the hot part, the hot part is hung below one of its own
entries. -/
theorem detachedEntries_of_state
    (hstate : (hot.any fun entry ↦ (providerStateEntryKey entry).isSome)) :
    ∃ last ∈ hot, detachedEntries (resolvedProviderStateEntries (cold ++ hot)) hot =
        chainUnder none (resolvedProviderStateEntries (cold ++ hot)) ++
          hangUnder (some last.id) hot := by
  obtain ⟨entry, hentry, hkey⟩ := any_eq_true.mp hstate
  have hfind : ∃ last, (resolvedProviderStateEntries (cold ++ hot)).getLast? = some last ∧
      last ∈ hot := by
    rw [resolvedProviderStateEntries, getLast?_reverse, head?_latestByKey,
      reverse_append, find?_append]
    cases hfound : hot.reverse.find? fun entry ↦ (providerStateEntryKey entry).isSome with
    | none =>
      have hnone := find?_eq_none.mp hfound entry (mem_reverse.mpr hentry)
      exact absurd hkey hnone
    | some last =>
      exact ⟨last, rfl, mem_reverse.mp (mem_of_find?_eq_some hfound)⟩
  obtain ⟨last, hlast, hmem⟩ := hfind
  refine ⟨last, hmem, ?_⟩
  rw [detachedEntries, hlast, map_some, filter_some]
  simp [decide_eq_true (h.named_hot last hmem)]

/-- The walk of such a read never leaves the hot part. -/
theorem walkPath_hangUnder (front : List SessionEntry) {last : SessionEntry} (hlast : last ∈ hot) :
    walkPath (front ++ hangUnder (some last.id) hot) (hangUnder (some last.id) hot).getLast? =
      hangUnder (some last.id) hot := by
  have hids := map_id_hangUnder (some last.id) hot
  apply walkPath_append_of_root_mem
  · exact isChain_hangUnder h.linked_hot
  · rw [hids]
    exact h.nodup_hot
  · exact ne_nil_of_map_id hids h.named_hot
  · intro entry hentry id hid
    have hparent : entry.parentId = some last.id := by
      cases hot with
      | nil => cases hentry
      | cons =>
        cases hentry
        rfl
    rw [parent, hparent, mem_filter_iff] at hid
    rw [hids, ← mem_some_iff.mp hid.1]
    exact mem_map_of_mem hlast

theorem root_hot : ∀ entry ∈ hot.head?, ∀ id ∈ entry.parent, id ∉ hot.map SessionEntry.id := by
  intro entry hentry id hid hmem
  cases hcold : cold.getLast? with
  | none =>
    rw [getLast?_eq_none_iff] at hcold
    subst hcold
    exact h.path.root entry hentry id hid hmem
  | some old =>
    have hlink : entry.parentId = some old.id :=
      (isChain_append.mp h.path.linked).2.2 old hcold entry hentry
    rw [parent, hlink, mem_filter_iff] at hid
    obtain ⟨recent, hrecent, heq⟩ := mem_map.mp hmem
    apply h.disjoint old (mem_of_getLast? hcold) recent hrecent
    rw [heq]
    exact mem_some_iff.mp hid.1

/-- Without a provider-state entry in the hot part the detached entries form a branch. -/
theorem isPath_detachedEntries {state : List SessionEntry}
    (hstate : state.Sublist cold) : IsPath (detachedEntries state hot) := by
  have hids : (detachedEntries state hot).map SessionEntry.id =
      (state ++ hot).map SessionEntry.id := by
    rw [detachedEntries, map_append, map_append, map_id_chainUnder, map_id_hangUnder]
  have hsublist : (state ++ hot).Sublist (cold ++ hot) := hstate.append_right hot
  have hnamed : ∀ entry ∈ state ++ hot, entry.id ≠ [] :=
    fun entry hentry ↦ h.path.named entry (hsublist.subset hentry)
  refine ⟨?_, ?_, ne_nil_of_map_id hids hnamed, ?_⟩
  · rw [detachedEntries, isChain_append]
    refine ⟨isChain_chainUnder state none, isChain_hangUnder h.linked_hot, ?_⟩
    intro above habove child hchild
    have hlast := congrArg getLast? (map_id_chainUnder none state)
    rw [getLast?_map, getLast?_map, mem_def.mp habove] at hlast
    have hne : above.id ≠ [] := by
      apply ne_nil_of_map_id (map_id_chainUnder none state) _ above (mem_of_getLast? habove)
      exact fun entry hentry ↦ hnamed entry (mem_append_left _ hentry)
    rw [← hlast] at hchild
    cases hot with
    | nil => cases hchild
    | cons =>
      cases hchild
      simp [hne]
  · rw [hids]
    exact h.path.nodup.sublist (hsublist.map SessionEntry.id)
  · intro entry hentry id hid
    cases state with
    | nil =>
      rw [hids]
      apply h.root_hot entry _ id hid
      cases hot with
      | nil => cases hentry
      | cons =>
        cases hentry
        rfl
    | cons =>
      cases hentry
      cases hid

/-- A build from the detached entries replays the surviving state and the hot part. -/
theorem buildSessionContext_detached
    (measure : SessionContext → ℕ) (budgetBytes : ℕ) {leaf : SessionEntry}
    (hleaf : hot.getLast? = some leaf) :
    buildSessionContext measure budgetBytes
        (detachedEntries (resolvedProviderStateEntries (cold ++ hot)) hot) (.entry leaf.id) =
      contextOfPath measure budgetBytes (survivingState cold hot ++ hot) := by
  have hid : ∀ parentId, ∃ last, (hangUnder parentId hot).getLast? = some last ∧
      last.id = leaf.id := by
    intro parentId
    have hlast := congrArg getLast? (map_id_hangUnder parentId hot)
    rw [getLast?_map, getLast?_map, hleaf, map_some, map_eq_some_iff] at hlast
    exact hlast
  by_cases hstate : (hot.any fun entry ↦ (providerStateEntryKey entry).isSome)
  · obtain ⟨last, hmem, hdetached⟩ := h.detachedEntries_of_state hstate
    obtain ⟨leaf', hleaf', hid'⟩ := hid (some last.id)
    have hids := map_id_hangUnder (some last.id) hot
    have hnodup : ((hangUnder (some last.id) hot).map SessionEntry.id).Nodup := by
      rw [hids]
      exact h.nodup_hot
    have hmem' := mem_of_getLast? hleaf'
    have hne : leaf'.id ≠ [] := ne_nil_of_map_id hids h.named_hot leaf' hmem'
    have hlookup : lookup SessionEntry.id
        (chainUnder none (resolvedProviderStateEntries (cold ++ hot)) ++
          hangUnder (some last.id) hot) leaf'.id = some leaf' := by
      rw [Chain.lookup_append, lookup_of_nodup hnodup hmem', some_or]
    rw [hdetached, ← hid', buildSessionContext_of_findLeaf (by simp) (findLeaf_of_lookup hne hlookup),
      ← hleaf', h.walkPath_hangUnder _ hmem, survivingState, if_pos hstate, nil_append]
    apply contextOfPath_congr
    exact map_hangUnder unlinked (fun _ _ ↦ rfl) (some last.id) hot
  · have hquiet : ∀ entry ∈ hot.reverse, providerStateEntryKey entry = none := by simpa using hstate
    have hresolved : resolvedProviderStateEntries (cold ++ hot) =
        resolvedProviderStateEntries cold := by
      rw [resolvedProviderStateEntries, reverse_append, latestByKey_append_of_quiet hquiet,
        resolvedProviderStateEntries]
    have hpath := h.isPath_detachedEntries (resolvedProviderStateEntries_sublist cold)
    obtain ⟨leaf', hleaf', hid'⟩ :=
      hid (((resolvedProviderStateEntries cold).getLast?.map SessionEntry.id).filter (· ≠ []))
    have hlast : (detachedEntries (resolvedProviderStateEntries cold) hot).getLast? = some leaf' := by
      rw [detachedEntries, List.getLast?_append, hleaf', some_or]
    rw [hresolved, ← hid', hpath.buildSessionContext_entry hlast, survivingState, if_neg hstate]
    apply contextOfPath_congr
    rw [detachedEntries, map_append, map_append, map_chainUnder unlinked (fun _ _ ↦ rfl),
      map_hangUnder unlinked (fun _ _ ↦ rfl)]

end RetirementSplit

/-! ## Parity with the whole chain -/

/-- A setting survives the retirement: it is written again, or the retired entries had left its
initial value. -/
def SettingKept {β : Type} (write : SessionEntry → Option β) (initial : β)
    (cold hot : List SessionEntry) : Prop :=
  (lastWrite write (survivingState cold hot ++ hot)).isSome ∨
    ∀ value ∈ lastWrite write cold, value = initial

/-- The default model survives: it is chosen again; or it was chosen before and the last
assistant message after it was produced by that model; or it was never chosen, and there is an
assistant message after the retirement or none before. -/
def DefaultModelKept (cold hot : List SessionEntry) : Prop :=
  (lastWrite (modelWrite defaultRole) (survivingState cold hot ++ hot)).isSome ∨
    match lastWrite (modelWrite defaultRole) cold with
    | some choice => choice = lastWrite assistantWrite hot
    | none =>
      (lastWrite assistantWrite hot).isSome ∨
        lastWrite assistantWrite cold = none

/-- The names of the rules injected by a path, in the order they are first mentioned. -/
def injectedRuleNames : List JsString :=
  firstMentions
    ((path.flatMap ttsrEvents).map (RowEvent.rowName TtsrInjectionRecord.name))

/-- The last record a path carries for a rule. -/
def lastRuleRecord (name : JsString) : Option TtsrInjectionRecord :=
  lastWrite (RowEvent.written TtsrInjectionRecord.name name) (path.flatMap ttsrEvents)

/-- What the retired entries set is set again, or was what a session starts with. -/
structure ContextParity (cold hot : List SessionEntry) : Prop where
  thinking : SettingKept SessionEntry.thinkingWrite (utf16 "off") cold hot
  mode : SettingKept SessionEntry.modeWrite (utf16 "none", none) cold hot
  count : SettingKept SessionEntry.countWrite .zero cold hot
  models : ∀ role ≠ defaultRole, SettingKept (modelWrite role) none cold hot
  defaultModel : DefaultModelKept cold hot
  ruleNames : injectedRuleNames cold <+: injectedRuleNames (survivingState cold hot ++ hot)
  ruleRecords : ∀ name ∈ injectedRuleNames cold,
    (lastRuleRecord (survivingState cold hot ++ hot) name).isSome ∨
      ∀ record ∈ lastRuleRecord cold name, record = defaultRecord name

theorem lastWrite_survivingState {write : SessionEntry → Option β} {k : ProviderStateKey}
    (hkey : ∀ entry, (write entry).isSome → providerStateEntryKey entry = some k)
    (cold hot : List SessionEntry) :
    lastWrite write (survivingState cold hot) = none ∨
      lastWrite write (survivingState cold hot) = lastWrite write cold := by
  rw [survivingState]
  split_ifs
  · exact Or.inl rfl
  · exact lastWrite_latestByKey hkey cold

/-- Since the surviving state wrote nothing, or ended with the same value, a setting is kept exactly when
it is written again or the older entries had left its initial value. -/
theorem setting_eq_iff {write : SessionEntry → Option β} {k : ProviderStateKey}
    (hkey : ∀ entry, (write entry).isSome → providerStateEntryKey entry = some k)
    (initial : β) (cold hot : List SessionEntry) :
    (lastWrite write (cold ++ hot)).getD initial =
        (lastWrite write (survivingState cold hot ++ hot)).getD initial ↔
      SettingKept write initial cold hot := by
  rw [SettingKept, lastWrite_append, lastWrite_append]
  cases lastWrite write hot with
  | some => simp
  | none =>
    rcases lastWrite_survivingState hkey cold hot with hnone | hsame
    · rw [hnone]
      cases lastWrite write cold <;> simp
    · rw [hsame]
      cases lastWrite write cold <;> simp

/-- The key of an entry is that of the setting it writes. -/
theorem providerStateEntryKey_of_write (entry : SessionEntry) :
    (entry.thinkingWrite.isSome → providerStateEntryKey entry = some .thinkingLevelChange) ∧
      (entry.modeWrite.isSome → providerStateEntryKey entry = some .modeChange) ∧
      (entry.countWrite.isSome → providerStateEntryKey entry = some .ttsrInjection) ∧
      (∀ role, (entry.modelWrite role).isSome → providerStateEntryKey entry = some .modelChange) ∧
      (entry.assistantWrite.isSome → providerStateEntryKey entry = none) := by
  obtain ⟨id, parentId, timestamp, body⟩ := entry
  refine ⟨?_, ?_, ?_, fun role ↦ ?_, ?_⟩
  all_goals
    intro h
    cases body <;> first | rfl | cases h

theorem assistantWrite_survivingState (cold hot : List SessionEntry) :
    lastWrite assistantWrite (survivingState cold hot) = none := by
  rw [lastWrite_eq_none_iff, survivingState]
  split_ifs
  · exact forall_mem_nil _
  · intro entry hentry
    have hkey := isSome_key_of_mem_latestByKey (mem_reverse.mp hentry)
    rw [← not_isSome_iff_eq_none]
    intro hwrite
    rw [(providerStateEntryKey_of_write entry).2.2.2.2 hwrite] at hkey
    cases hkey

/-- The rule events of one entry, if it injects rules. -/
def SessionEntry.ttsrWrite (entry : SessionEntry) :
    Option (List (RowEvent JsString TtsrInjectionRecord)) :=
  match entry.body with
  | .ttsrInjection _ _ _ => some entry.ttsrEvents
  | _ => none

theorem isSome_ttsrWrite_iff (entry : SessionEntry) :
    entry.ttsrWrite.isSome ↔ providerStateEntryKey entry = some .ttsrInjection := by
  obtain ⟨id, parentId, timestamp, body⟩ := entry
  cases body with
  | custom =>
    simp only [ttsrWrite, providerStateEntryKey]
    split_ifs <;> simp
  | _ => simp [ttsrWrite, providerStateEntryKey]

theorem flatMap_ttsrEvents : path.flatMap ttsrEvents = (path.filterMap ttsrWrite).flatten := by
  induction path with
  | nil => rfl
  | cons entry path ih =>
    obtain ⟨id, parentId, timestamp, body⟩ := entry
    rw [flatMap_cons, ih]
    cases body <;> rfl

/-- The rule events that survive are the last ones of the retired entries, or none. -/
theorem flatMap_ttsrEvents_survivingState (cold hot : List SessionEntry) :
    ∃ older, cold.flatMap ttsrEvents = older ++ (survivingState cold hot).flatMap ttsrEvents := by
  rw [survivingState]
  split_ifs
  · exact ⟨_, (append_nil _).symm⟩
  · rw [flatMap_ttsrEvents, flatMap_ttsrEvents, resolvedProviderStateEntries,
      filterMap_reverse_latestByKey isSome_ttsrWrite_iff]
    refine ⟨(cold.filterMap ttsrWrite).dropLast.flatten, ?_⟩
    rw [← flatten_append, lastWrite]
    cases hlast : (cold.filterMap ttsrWrite).getLast? with
    | none =>
      rw [getLast?_eq_none_iff.mp hlast]
      rfl
    | some events => rw [toList_some, dropLast_append_getLast? events hlast]

namespace RetirementSplit

variable {cold hot : List SessionEntry} {leaf : SessionEntry}

/-- The messages of the chain are those of the hot part, with or without what precedes it. -/
theorem contextMessages_of_sublist (h : RetirementSplit cold hot)
    (hfront : front.Sublist cold) {state : Replay} (hrun : run (front ++ hot) = .ok state) :
    contextMessages (front ++ hot) state.compaction =
      contextMessages hot (lastWrite asCompaction? hot) := by
  obtain ⟨compaction, hlast, hhead⟩ := h.split
  have hcompact : state.compaction = some compaction := by
    rw [run_compaction hrun, lastWrite_append, hlast, some_or]
  rw [hcompact, hlast]
  apply contextMessages_append
  · obtain ⟨entry, hentry, hwrite⟩ : ∃ entry ∈ hot, entry.asCompaction? = some compaction := by
      rw [lastWrite_eq_findSome?] at hlast
      obtain ⟨entry, hentry, hwrite⟩ := exists_of_findSome?_eq_some hlast
      exact ⟨entry, mem_reverse.mp hentry, hwrite⟩
    have hid : compaction.id = entry.id := by
      rw [asCompaction?, map_eq_some_iff] at hwrite
      obtain ⟨data, _, rfl⟩ := hwrite
      rfl
    intro old hold
    rw [hid]
    exact h.disjoint old (hfront.subset hold) entry hentry
  · obtain ⟨first, hfirst, hid⟩ := map_eq_some_iff.mp hhead
    intro old hold
    rw [← hid]
    exact h.disjoint old (hfront.subset hold) first (mem_of_mem_head? hfirst)

end RetirementSplit

theorem models_eq_iff {cold : List SessionEntry} {whole rebuilt : Replay}
    (hwhole : run (cold ++ hot) = .ok whole)
    (hrebuilt : run (survivingState cold hot ++ hot) = .ok rebuilt) :
    (∀ role, whole.models role = rebuilt.models role) ↔
      (∀ role ≠ defaultRole, SettingKept (modelWrite role) none cold hot) ∧
        DefaultModelKept cold hot := by
  have hother : ∀ role ≠ defaultRole, whole.models role = rebuilt.models role ↔
      SettingKept (modelWrite role) none cold hot := by
    intro role hrole
    rw [run_models hwhole hrole, run_models hrebuilt hrole,
      setting_eq_iff fun entry ↦ (providerStateEntryKey_of_write entry).2.2.2.1 role]
  have hdefault : whole.models defaultRole = rebuilt.models defaultRole ↔
      DefaultModelKept cold hot := by
    have hsurviving := lastWrite_survivingState
      (fun entry ↦ (providerStateEntryKey_of_write entry).2.2.2.1 defaultRole) cold hot
    rw [(run_defaultModel hwhole).2, (run_defaultModel hrebuilt).2, DefaultModelKept,
      lastWrite_append _ cold hot, lastWrite_append _ cold hot,
      lastWrite_append _ (survivingState cold hot) hot, lastWrite_append _ (survivingState cold hot) hot,
      assistantWrite_survivingState, or_none]
    generalize lastWrite (modelWrite defaultRole) cold = written at *
    cases lastWrite (modelWrite defaultRole) hot with
    | some => simp
    | none =>
      rcases hsurviving with hkept | hkept
      all_goals
        rw [hkept]
        cases written with
        | some => simp
        | none =>
          cases lastWrite assistantWrite hot <;> simp
  constructor
  · intro hall
    exact ⟨fun role hrole ↦ (hother role hrole).mp (hall role), hdefault.mp (hall defaultRole)⟩
  · rintro ⟨hroles, hkept⟩ role
    by_cases hrole : role = defaultRole
    · rw [hrole]
      exact hdefault.mpr hkept
    · exact (hother role hrole).mpr (hroles role hrole)

/-- A read from the sidecar gives the context of the whole chain exactly when what the retired
entries set is set again or was initial. -/
theorem getSessionContextForRead_eq_buildSessionContext_iff (measure : SessionContext → ℕ)
    {cold hot : List SessionEntry} (h : RetirementSplit cold hot) {leaf : SessionEntry}
    (hleaf : (cold ++ hot).getLast? = some leaf) :
    (∀ budgetBytes, getSessionContextForRead measure budgetBytes (cold ++ hot) leaf.id =
        buildSessionContext measure budgetBytes (cold ++ hot) (.entry leaf.id)) ↔
      ContextParity cold hot := by
  have hfront := survivingState_sublist cold hot
  obtain ⟨older, holder⟩ := flatMap_ttsrEvents_survivingState cold hot
  obtain ⟨whole, hwhole, huntouched⟩ := run_of_isLinearKind h.kinds
  obtain ⟨rebuilt, hrebuilt, huntouched'⟩ := run_of_isLinearKind
    fun entry hentry ↦ h.kinds entry ((hfront.append_right hot).subset hentry)
  have hmessages : contextMessages (cold ++ hot) whole.compaction =
      contextMessages (survivingState cold hot ++ hot) rebuilt.compaction := by
    rw [h.contextMessages_of_sublist (Sublist.refl cold) hwhole,
      h.contextMessages_of_sublist hfront hrebuilt]
  have hread : ∀ budgetBytes, (getSessionContextForRead measure budgetBytes (cold ++ hot) leaf.id =
        buildSessionContext measure budgetBytes (cold ++ hot) (.entry leaf.id)) ↔
      assertSessionContextWithinBudget measure budgetBytes (whole.context (cold ++ hot)) =
        assertSessionContextWithinBudget measure budgetBytes
          (rebuilt.context (survivingState cold hot ++ hot)) := by
    intro budgetBytes
    have hlookup := lookup_of_nodup h.path.nodup (mem_of_getLast? hleaf)
    have hdetached := h.buildSessionContext_detached measure budgetBytes (h.getLast?_append ▸ hleaf)
    rw [getSessionContextForRead, hlookup, ← hleaf, h.path.walkPath_getLast?, h.activePathEntries_eq,
      hdetached, h.path.buildSessionContext_entry hleaf, contextOfPath, contextOfPath, hwhole, hrebuilt]
    exact eq_comm
  rw [forall_congr' hread, forall_assertSessionContextWithinBudget_eq_iff,
    context_eq_iff hwhole hrebuilt huntouched huntouched' hmessages,
    run_thinkingLevel hwhole, run_thinkingLevel hrebuilt,
    setting_eq_iff fun entry ↦ (providerStateEntryKey_of_write entry).1,
    run_mode hwhole, run_mode hrebuilt, setting_eq_iff fun entry ↦ (providerStateEntryKey_of_write entry).2.1,
    run_ttsrMessageCount hwhole, run_ttsrMessageCount hrebuilt,
    setting_eq_iff fun entry ↦ (providerStateEntryKey_of_write entry).2.2.1,
    run_injectedTtsrRuleRecords hwhole, run_injectedTtsrRuleRecords hrebuilt, flatMap_append, flatMap_append,
    holder, table_append_eq_iff (fun _ ↦ rfl), ← holder, ← flatMap_append]
  rw [models_eq_iff hwhole hrebuilt]
  constructor
  · rintro ⟨hthinking, hmode, hcount, ⟨hnames, hrecords⟩, hroles, hdefault⟩
    exact ⟨hthinking, hmode, hcount, hroles, hdefault, hnames,
      fun name hname ↦ hrecords name (mem_firstMentions.mp hname)⟩
  · intro hparity
    exact ⟨hparity.thinking, hparity.mode, hparity.count, ⟨hparity.ruleNames,
        fun name hname ↦ hparity.ruleRecords name (mem_firstMentions.mpr hname)⟩,
      hparity.models, hparity.defaultModel⟩

/-! ## A chain on which the read agrees, and one on which it does not -/

def thinkingEntry : SessionEntry :=
  ⟨utf16 "a", none, utf16 "2026-01-01T00:00:00.000Z", .thinkingLevelChange (some (utf16 "high"))⟩

def questionEntry : SessionEntry :=
  ⟨utf16 "b", some (utf16 "a"), utf16 "2026-01-01T00:00:01.000Z",
    .message ⟨.user, [(utf16 "content", .str (utf16 "hi"))], none⟩⟩

def planModeEntry : SessionEntry :=
  ⟨utf16 "c", some (utf16 "b"), utf16 "2026-01-01T00:00:02.000Z", .modeChange (utf16 "plan") none⟩

def compactionAfter (parentId : String) : SessionEntry :=
  ⟨utf16 "d", some (utf16 parentId), utf16 "2026-01-01T00:00:03.000Z",
    .compaction ⟨utf16 "summary", none, utf16 "b", .zero, .undefined⟩⟩

theorem retirementSplit_question :
    RetirementSplit [thinkingEntry] [questionEntry, compactionAfter "b"] where
  path := ⟨by decide, by decide, by decide, by decide⟩
  kinds := by decide
  split := ⟨_, rfl, rfl⟩

theorem retirementSplit_planMode :
    RetirementSplit [thinkingEntry] [questionEntry, planModeEntry, compactionAfter "c"] where
  path := ⟨by decide, by decide, by decide, by decide⟩
  kinds := by decide
  split := ⟨_, rfl, rfl⟩

theorem read_eq_build_question : getSessionContextForRead (fun _ ↦ 0) 0
        ([thinkingEntry] ++ [questionEntry, compactionAfter "b"]) (compactionAfter "b").id =
      buildSessionContext (fun _ ↦ 0) 0 ([thinkingEntry] ++ [questionEntry, compactionAfter "b"])
        (.entry (compactionAfter "b").id) := by
  refine (getSessionContextForRead_eq_buildSessionContext_iff _ retirementSplit_question rfl).mpr ?_ 0
  exact {
    thinking := Or.inl rfl
    mode := .inr (by decide)
    count := .inr (by decide)
    models := fun role _ ↦ Or.inr fun value hvalue ↦ by cases hvalue
    defaultModel := .inr (Or.inr rfl)
    ruleNames := nil_prefix
    ruleRecords := fun name hname ↦ by cases hname }

/-- A mode change after the first kept entry makes the read forget the thinking level. -/
theorem read_forgets_thinkingLevel :
    RetirementSplit [thinkingEntry] [questionEntry, planModeEntry, compactionAfter "c"] ∧
      (getSessionContextForRead (fun _ ↦ 0) 0
          [thinkingEntry, questionEntry, planModeEntry, compactionAfter "c"]
          (utf16 "d")).toOption.map SessionContext.thinkingLevel = some (utf16 "off") ∧
      (buildSessionContext (fun _ ↦ 0) 0
          [thinkingEntry, questionEntry, planModeEntry, compactionAfter "c"]
          (.entry (utf16 "d"))).toOption.map SessionContext.thinkingLevel =
        some (utf16 "high") := by
  refine ⟨retirementSplit_planMode, ?_, ?_⟩
  · decide
  · decide

end GajaeCode.Session
