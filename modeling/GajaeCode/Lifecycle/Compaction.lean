import GajaeCode.Lifecycle.Reading

/-!
# Appending and compacting keep the evidence

The invariant of a process that has the ledger open: its file holds the evidence of every effect,
every known identity that lost no row has an accepted row in it, and what each write of the current
operation can leave behind is again such a file. Once the identities with effects have latest rows
beyond `accepted`, the file may be rewritten from the latest rows.
-/

namespace GajaeCode.Lifecycle

open Text Json Chain List Bool LifecycleLedgerEntry

variable {latest anchorEntry row : LifecycleLedgerEntry} {latests : List LifecycleLedgerEntry}

/-! ## Snapshots -/

/-- Every row beyond `accepted` has an accepted row of its identity in front of it. -/
def AreAnchored (rows : List LifecycleLedgerEntry) : Prop :=
  ∀ (index : ℕ) (row : LifecycleLedgerEntry), rows[index]? = some row → row.state ≠ .accepted →
    ∃ earlier < index, ∃ first : LifecycleLedgerEntry, rows[earlier]? = some first ∧
      first.identity = row.identity ∧ first.state = .accepted

theorem AreAnchored.append {left right : List LifecycleLedgerEntry} (hleft : AreAnchored left)
    (hright : AreAnchored right) : AreAnchored (left ++ right) := by
  intro idx row hrow hstate
  by_cases hidx : idx < left.length
  · rw [getElem?_append_left hidx] at hrow
    obtain ⟨earlier, hlt, first, hfirst, hrest⟩ := hleft idx row hrow hstate
    exact ⟨earlier, hlt, first, by rwa [getElem?_append_left (hlt.trans hidx)], hrest⟩
  · rw [getElem?_append_right (by omega)] at hrow
    obtain ⟨earlier, hlt, first, hfirst, hrest⟩ := hright _ row hrow hstate
    refine ⟨left.length + earlier, by omega, first, ?_, hrest⟩
    rwa [getElem?_append_right (by omega), Nat.add_sub_cancel_left]

section

variable {anchor : JsString → Option LifecycleLedgerEntry} {repl : Option LifecycleLedgerEntry}
  (hanchor : ∀ identity entry, anchor identity = some entry →
    entry.identity = identity ∧ entry.state = .accepted)
  {latests rows : List LifecycleLedgerEntry}

/-- The first row that stands for an identity. -/
def snapshotHead (replacement : Option LifecycleLedgerEntry) (anchorEntry latest : LifecycleLedgerEntry) :
    LifecycleLedgerEntry :=
  if (replacement.any fun entry ↦ entry.identity = latest.identity) && latest.state = .accepted then latest
  else anchorEntry

theorem snapshotRows_eq (anchorEntry latest : LifecycleLedgerEntry) :
    snapshotRows repl anchorEntry latest =
      snapshotHead repl anchorEntry latest :: if latest.state ≠ .accepted then [latest] else [] := rfl

include hanchor

variable (repl) in
theorem snapshotHead_spec (h : anchor latest.identity = some anchorEntry) :
    (snapshotHead repl anchorEntry latest).identity = latest.identity ∧
      (snapshotHead repl anchorEntry latest).state = .accepted := by
  rw [snapshotHead]
  split_ifs with hown
  · rw [and_eq_true, decide_eq_true_eq] at hown
    exact ⟨rfl, hown.2⟩
  · exact hanchor _ _ h

theorem areAnchored_snapshotRows (h : anchor latest.identity = some anchorEntry) :
    AreAnchored (snapshotRows repl anchorEntry latest) := by
  have hhead := snapshotHead_spec repl hanchor h
  intro idx row hrow hstate
  rw [snapshotRows_eq] at hrow ⊢
  cases idx with
  | zero =>
    rw [getElem?_cons_zero, Option.some.injEq] at hrow
    exact absurd (hrow ▸ hhead.2) hstate
  | succ idx =>
    rw [getElem?_cons_succ] at hrow
    have hmem := mem_of_getElem? hrow
    split_ifs at hmem with hacc
    · obtain rfl := mem_singleton.mp hmem
      exact ⟨0, Nat.succ_pos idx, _, getElem?_cons_zero, hhead⟩
    · exact absurd hmem not_mem_nil

/-- The rows beyond `accepted` are the latest ones, and every identity keeps an accepted row. -/
theorem buildSnapshot_spec (h : buildSnapshot anchor repl latests = some rows) : AreAnchored rows ∧
    (∀ row, row.state ≠ .accepted → (row ∈ rows ↔ row ∈ latests)) ∧
      ∀ latest ∈ latests, ∃ row ∈ rows, row.identity = latest.identity ∧ row.state = .accepted := by
  induction latests generalizing rows with
  | nil =>
    cases h
    exact ⟨by simp [AreAnchored], by simp, by simp⟩
  | cons latest rest ih =>
    obtain ⟨anchorEntry, hentry, h⟩ := Option.bind_eq_some_iff.mp h
    obtain ⟨tail, htail, rfl⟩ := Option.map_eq_some_iff.mp h
    obtain ⟨htailAnchored, hmem, hacc⟩ := ih htail
    have hhead := snapshotHead_spec repl hanchor hentry
    refine ⟨(areAnchored_snapshotRows hanchor hentry).append htailAnchored, fun row hstate ↦ ?_, ?_⟩
    · have hne : row ≠ snapshotHead repl anchorEntry latest := by
        rintro rfl
        exact hstate hhead.2
      have hlatest : (row ∈ if latest.state ≠ .accepted then [latest] else []) ↔ row = latest := by
        split_ifs with hlast
        · exact mem_singleton
        · exact iff_of_false not_mem_nil (by rintro rfl; exact hlast hstate)
      rw [snapshotRows_eq, cons_append, mem_cons, mem_append, hlatest, hmem row hstate, mem_cons]
      simp [hne]
    · refine forall_mem_cons.mpr ⟨⟨_, mem_append_left _ mem_cons_self, hhead⟩, fun latest hlatest ↦ ?_⟩
      obtain ⟨row, hrow, hrest⟩ := hacc latest hlatest
      exact ⟨row, mem_append_right _ hrow, hrest⟩

end

theorem anchorOf_spec (entries compacted : List LifecycleLedgerEntry) (identity : JsString)
    (entry : LifecycleLedgerEntry) (h : anchorOf entries compacted identity = some entry) :
    entry.identity = identity ∧ entry.state = .accepted := by
  have hentry := find?_some h
  rw [and_eq_true, and_eq_true, decide_eq_true_eq, decide_eq_true_eq] at hentry
  exact hentry.1

/-! ## Plans -/

section

variable {limits : LifecycleLedgerLimits} {ledger : LifecycleLedger}
  {repl : Option LifecycleLedgerEntry} {incoming : Option Incoming} {plan : Compaction}

/-- What a plan for a compaction is. -/
structure IsPlan (ledger : LifecycleLedger) (replacement : Option LifecycleLedgerEntry)
    (plan : Compaction) : Prop where
  compacted : plan.compacted = (replacedLatest ledger replacement).filter fun latest ↦
    latest.identity ∉ plan.evicted.map (·.identity)
  snapshot : buildSnapshot (anchorOf ledger.entries (replacedLatest ledger replacement)) replacement
    plan.compacted = some plan.snapshot
  evicted : ∀ latest ∈ plan.evicted, latest.state.terminal = true ∧
    ∀ entry ∈ replacement, entry.identity ≠ latest.identity

theorem mem_of_mem_chooseEvicted {incoming : Incoming} {snapshot : List LifecycleLedgerEntry}
    {rows bytes : ℕ}
    (h : latest ∈ chooseEvicted limits incoming snapshot rows bytes latests) : latest ∈ latests := by
  induction latests generalizing rows bytes with
  | nil => exact h
  | cons first rest ih =>
    rw [chooseEvicted] at h
    split_ifs at h
    · exact absurd h not_mem_nil
    · rcases mem_cons.mp h with rfl | h
      · exact mem_cons_self
      · exact mem_cons_of_mem _ (ih h)

theorem mem_evictedFrom {before : List LifecycleLedgerEntry}
    (h : latest ∈ evictedFrom limits repl incoming latests before) :
    isEvictable latests repl latest := by
  rw [evictedFrom] at h
  split_ifs at h
  · have hmem := mem_of_mem_chooseEvicted h
    rw [mem_insertionSort, mem_filter] at hmem
    exact hmem.2
  · exact absurd h not_mem_nil

theorem isPlan_of_planCompaction (h : planCompaction limits ledger repl incoming = .ok plan) :
    IsPlan ledger repl plan := by
  simp only [planCompaction] at h
  split at h
  · cases h
  · split at h
    · cases h
    · rename_i hsnapshot
      split at h
      · cases h
      · cases h
        refine ⟨rfl, hsnapshot, fun latest hlatest ↦ ?_⟩
        have hevictable := mem_evictedFrom hlatest
        simp only [isEvictable, and_eq_true, not_eq_true'] at hevictable
        obtain ⟨⟨⟨⟨⟨⟨hother, hterm⟩, -⟩, -⟩, -⟩, -⟩, -⟩ := hevictable
        refine ⟨hterm, fun entry hentry ↦ ?_⟩
        rw [Option.mem_def] at hentry
        simpa [hentry] using hother

/-- A compaction drops latest rows, and changes only that of the replacement. -/
theorem IsPlan.latestOf_compacted (h : IsPlan ledger repl plan) (identity : JsString) :
    latestOf plan.compacted identity = if identity ∈ plan.evicted.map (·.identity) then none
      else latestOf (replacedLatest ledger repl) identity := by
  rw [h.compacted, latestOf, find?_filter]
  split_ifs with hevicted
  · rw [find?_eq_none]
    intro latest _ heq
    simp only [decide_not, not_eq_true', decide_eq_false_iff_not, decide_eq_true_eq] at heq
    exact heq.1 (heq.2 ▸ hevicted)
  · rw [latestOf]
    congr 1
    funext latest
    by_cases heq : latest.identity = identity
    · simp [heq, hevicted]
    · simp [heq]

theorem latestOf_replacedLatest (identity : JsString) :
    latestOf (replacedLatest ledger repl) identity =
      (repl.filter fun entry ↦ entry.identity = identity).or (latestOf ledger.byIdentity identity) := by
  cases repl with
  | none => rfl
  | some entry =>
    change latestOf (setLatest ledger.byIdentity entry) identity = _
    rw [latestOf_setLatest, Option.filter_some]
    by_cases h : entry.identity = identity
    · rw [if_pos h, if_pos (decide_eq_true h), Option.some_or]
    · rw [if_neg h, if_neg (by simpa using h), Option.none_or]

end

/-! ## The invariant -/

section

variable (sha256 : JsString → JsString)

namespace FileWrite

/-- The rows that a write puts into the file. -/
def rows : FileWrite → List LifecycleLedgerEntry
  | append entry => [entry]
  | «seal» => []
  | replace snapshot _ => snapshot

def AreReadable (write : FileWrite) : Prop := ∀ entry ∈ write.rows, IsReadable sha256 entry

end FileWrite

structure LedgerInv (replaced : List JsString) (ledger : LifecycleLedger) : Prop where
  durable : DurableInv sha256 replaced ledger.durable
  closed : ledger.durable.file.terminated = true
  known : ∀ identity ∉ replaced, (latestOf ledger.byIdentity identity).isSome →
    ∃ index, RowAt sha256 ledger.durable.file.lines identity (· = .accepted) index
  nodup : (ledger.byIdentity.map LifecycleLedgerEntry.identity).Nodup
  points : ∀ point ∈ ledger.points, ∀ kept, DurableInv sha256 replaced (point.1.crash kept point.2)

variable (ledger : LifecycleLedger)

/-- The identities with effects have latest rows beyond `accepted`. -/
def IsMarked : Prop :=
  ∀ identity ∈ ledger.durable.effects, IsBegun ledger.byIdentity identity

/-- The object after `appendRow`. -/
def LifecycleLedger.appended (entry : LifecycleLedgerEntry) : LifecycleLedger :=
  { ledger with
    durable := ledger.durable.apply (.append entry)
    points := ledger.points ++ [(ledger.durable, .append entry)]
    entries := ledger.entries ++ [entry]
    byIdentity := setLatest ledger.byIdentity entry
    rowCount := ledger.rowCount + 1
    byteCount := ledger.byteCount + lineLength entry }

/-- The object after a compaction. -/
def LifecycleLedger.compactedTo (plan : Compaction) : LifecycleLedger :=
  { ledger with
    durable := ledger.durable.apply (.replace plan.snapshot plan.evicted)
    points := ledger.points ++ [(ledger.durable, .replace plan.snapshot plan.evicted)]
    entries := plan.snapshot
    byIdentity := plan.compacted
    rowCount := plan.snapshot.length
    byteCount := contentsLength plan.snapshot }

variable {sha256} {replaced : List JsString} {ledger : LifecycleLedger} {entry : LifecycleLedgerEntry}

theorem appended_lines (h : ledger.durable.file.terminated) :
    (ledger.appended entry).durable.file = ⟨ledger.durable.file.lines ++ [entry.rowBytes], true⟩ :=
  LedgerFile.close_write h entry.rowBytes_ne_nil

/-- A row beyond `accepted` may be appended for a known identity. -/
theorem LedgerInv.appended (h : LedgerInv sha256 replaced ledger) (hread : IsReadable sha256 entry)
    (hknown : entry.state ≠ .accepted → (latestOf ledger.byIdentity entry.identity).isSome) :
    LedgerInv sha256 replaced (ledger.appended entry) where
  durable := h.durable.apply_append hread
    (fun hstate hfresh ↦ h.known entry.identity hfresh (hknown hstate)) h.closed
  closed := by rw [appended_lines h.closed]
  known identity hfresh hlatest := by
    rw [appended_lines h.closed]
    by_cases hsame : entry.identity = identity
    · subst hsame
      by_cases hstate : entry.state = .accepted
      · have hlast : RowAt sha256 (ledger.durable.file.lines ++ [entry.rowBytes]) entry.clean.identity
            (· = .accepted) ledger.durable.file.lines.length :=
          RowAt.last hread.attributedRow hstate
        exact ⟨_, hlast⟩
      · obtain ⟨idx, hrow⟩ := h.known entry.identity hfresh (hknown hstate)
        exact ⟨idx, hrow.append _⟩
    · change (latestOf (setLatest ledger.byIdentity entry) identity).isSome at hlatest
      rw [latestOf_setLatest, if_neg hsame] at hlatest
      obtain ⟨idx, hrow⟩ := h.known identity hfresh hlatest
      exact ⟨idx, hrow.append _⟩
  nodup := nodup_putRow h.nodup entry
  points := by
    change ∀ point ∈ ledger.points ++ [(ledger.durable, FileWrite.append entry)], _
    rw [forall_mem_append, forall_mem_singleton]
    refine ⟨h.points, fun kept ↦ ?_⟩
    exact h.durable.crash_append hread
      (fun hstate hfresh ↦ h.known entry.identity hfresh (hknown hstate)) h.closed kept

theorem IsMarked.appended (h : IsMarked ledger)
    (hnew : entry.state = .accepted → latestOf ledger.byIdentity entry.identity = none) :
    IsMarked (ledger.appended entry) := by
  intro identity hident
  rcases mem_append.mp hident with hmem | hmem
  · obtain ⟨row, hrow, rfl, hstate⟩ := exists_of_mem_effectIdentities hmem
    obtain rfl := mem_singleton.mp hrow
    exact isBegun_setLatest_self hstate
  · have hbegun := h identity hmem
    refine hbegun.setLatest fun hsame hacc ↦ ?_
    obtain ⟨latest, hlatest, -⟩ := hbegun
    rw [← hsame, hnew hacc] at hlatest
    exact absurd hlatest (by simp)

/-! ## Compaction -/

theorem rowAt_map_rowBytes_iff {rows : List LifecycleLedgerEntry}
    (h : ∀ row ∈ rows, IsReadable sha256 row) {identity : JsString} {property : LifecycleState → Prop}
    {idx : ℕ} :
    RowAt sha256 (rows.map rowBytes) identity property idx ↔
      ∃ row, rows[idx]? = some row ∧ row.identity = identity ∧ property row.state := by
  rw [RowAt, getElem?_map]
  constructor
  · rintro ⟨read, hread, hident, hproperty⟩
    obtain ⟨line, hline, hread⟩ := Option.bind_eq_some_iff.mp hread
    obtain ⟨row, hrow, rfl⟩ := Option.map_eq_some_iff.mp hline
    rw [(h row (mem_of_getElem? hrow)).attributedRow, Option.some.injEq] at hread
    subst hread
    exact ⟨row, hrow, hident, hproperty⟩
  · rintro ⟨row, hrow, hident, hproperty⟩
    refine ⟨row.clean, ?_, hident, hproperty⟩
    rw [hrow, Option.map_some, Option.bind_some, (h row (mem_of_getElem? hrow)).attributedRow]

section

variable {repl : Option LifecycleLedgerEntry} {plan : Compaction}
  (hplan : IsPlan ledger repl plan)

include hplan

variable (hmarked : IsMarked ledger)
  (hrepl : ∀ row ∈ repl, IsBegun ledger.byIdentity row.identity → row.state ≠ .accepted)

include hmarked hrepl

/-- An identity with effects keeps a latest row beyond `accepted`, unless its outcome was proven and it
was dropped. -/
theorem IsPlan.isBegun_compacted {identity : JsString} (hident : identity ∈ ledger.durable.effects)
    (hkept : ∀ latest ∈ plan.evicted, latest.identity = identity → latest.state.terminal = false) :
    IsBegun plan.compacted identity := by
  have hnot : identity ∉ plan.evicted.map (·.identity) := by
    intro hmem
    obtain ⟨latest, hlatest, heq⟩ := mem_map.mp hmem
    have hterminal := (hplan.evicted latest hlatest).1
    rw [hkept latest hlatest heq] at hterminal
    cases hterminal
  rw [IsBegun, hplan.latestOf_compacted, if_neg hnot, latestOf_replacedLatest]
  have hbegun := hmarked identity hident
  cases hfilter : repl.filter (fun row ↦ row.identity = identity) with
  | none =>
    exact hbegun
  | some row =>
    obtain ⟨hrow, hsame⟩ := Option.filter_eq_some_iff.mp hfilter
    obtain rfl : row.identity = identity := by simpa using hsame
    exact ⟨row, rfl, hrepl row hrow hbegun⟩

theorem IsMarked.compactedTo (hnodup : (plan.compacted.map identity).Nodup) :
    IsMarked (ledger.compactedTo plan) := by
  intro identity hident
  rcases mem_append.mp hident with hmem | hmem
  · obtain ⟨row, hrow, rfl, hstate⟩ := exists_of_mem_effectIdentities hmem
    refine ⟨row, ?_, hstate⟩
    refine (find?_name_eq_some_iff hnodup).mpr ⟨?_, rfl⟩
    exact ((buildSnapshot_spec (anchorOf_spec _ _) hplan.snapshot).2.1 row hstate).mp hrow
  · obtain ⟨hold, hkept⟩ := mem_filter.mp hmem
    apply hplan.isBegun_compacted hmarked hrepl hold
    intro latest hlatest heq
    simp only [not_eq_true', any_eq_false] at hkept
    simpa [heq] using hkept latest hlatest

theorem LedgerInv.compactedTo (h : LedgerInv sha256 replaced ledger)
    (hreadable : ∀ row ∈ plan.snapshot, IsReadable sha256 row) :
    LedgerInv sha256 replaced (ledger.compactedTo plan) := by
  have hnodup : (plan.compacted.map identity).Nodup := by
    rw [hplan.compacted]
    have hlatests : ((replacedLatest ledger repl).map identity).Nodup := by
      cases repl with
      | none => exact h.nodup
      | some row => exact nodup_putRow h.nodup row
    exact hlatests.sublist (filter_sublist.map _)
  obtain ⟨hanchored, hmem, hacc⟩ := buildSnapshot_spec (anchorOf_spec _ _) hplan.snapshot
  have hrows {identity} {property} {idx} :
      RowAt sha256 (plan.snapshot.map rowBytes) identity property idx ↔ _ :=
    rowAt_map_rowBytes_iff hreadable
  have hdurable : DurableInv sha256 replaced (ledger.compactedTo plan).durable := by
    refine ⟨fun line hline read hread ↦ ?_, fun identity _ idx hrow ↦ ?_, fun identity hident ↦ ?_⟩
    · obtain ⟨row, hrow, rfl⟩ := mem_map.mp hline
      rw [(hreadable row hrow).attributedRow, eq_clean_of_readRow hread]
    · obtain ⟨row, hplace, rfl, hstate⟩ := hrows.mp hrow
      obtain ⟨earlier, hlt, first, hfirst, hrest⟩ := hanchored idx row hplace hstate
      exact ⟨earlier, hlt, hrows.mpr ⟨first, hfirst, hrest⟩⟩
    · obtain ⟨latest, hlatest, hstate⟩ :=
        IsMarked.compactedTo hplan hmarked hrepl hnodup identity hident
      obtain ⟨idx, hidx, rfl⟩ :=
        getElem_of_mem ((hmem latest hstate).mpr (mem_of_find?_eq_some hlatest))
      refine .inl ⟨idx, hrows.mpr ⟨_, getElem?_eq_getElem hidx, ?_, hstate⟩⟩
      exact identity_of_latestOf hlatest
  refine ⟨hdurable, rfl, fun identity _ hlatest ↦ ?_, hnodup, ?_⟩
  · obtain ⟨latest, hkept, rfl⟩ := isSome_latestOf_iff.mp hlatest
    obtain ⟨row, hrow, hrest⟩ := hacc latest hkept
    obtain ⟨idx, hidx, rfl⟩ := getElem_of_mem hrow
    exact ⟨idx, hrows.mpr ⟨_, getElem?_eq_getElem hidx, hrest⟩⟩
  · change ∀ point ∈ ledger.points ++ [(ledger.durable, FileWrite.replace plan.snapshot plan.evicted)], _
    rw [forall_mem_append, forall_mem_singleton]
    refine ⟨h.points, fun kept ↦ ?_⟩
    change DurableInv sha256 replaced (if kept = 0 then ledger.durable else
      ledger.durable.apply (.replace plan.snapshot plan.evicted))
    split_ifs
    · exact h.durable
    · exact hdurable

end

end

end GajaeCode.Lifecycle
