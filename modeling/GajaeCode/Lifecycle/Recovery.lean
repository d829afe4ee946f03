import GajaeCode.Lifecycle.Calls

/-!
# Recovery

`open` reads the file and then marks, one row at a time, the identities whose rows were quarantined
and those that were under way. If it only adds rows, every identity with evidence of effects has a
latest row beyond `accepted` in the end, and a crash on the way loses no evidence.
-/

namespace GajaeCode.Lifecycle

open Text Json Chain Machine List FileWrite

variable {marker : LifecycleLedgerEntry}

section

variable {sha256 : JsString → JsString} {limits : LifecycleLedgerLimits} {clock : ℕ → Timestamp}
  {replaced : List JsString} {ledger after : LifecycleLedger} {entry : LifecycleLedgerEntry}

variable (sha256) in
/-- Rows are appended that can be read back, and the file is not rewritten. -/
def FileWrite.AddsReadable : FileWrite → Prop
  | append entry => IsReadable sha256 entry
  | «seal» => True
  | replace _ _ => False

variable (sha256 replaced) in
/-- A crash in any of the writes leaves the evidence. -/
structure CrashSafe (ledger : LifecycleLedger) : Prop where
  durable : DurableInv sha256 replaced ledger.durable
  points : ∀ point ∈ ledger.points, ∀ kept, DurableInv sha256 replaced (point.1.crash kept point.2)

theorem LedgerInv.crashSafe (h : LedgerInv sha256 replaced ledger) : CrashSafe sha256 replaced ledger :=
  ⟨h.durable, h.points⟩

/-- The identity is marked, or one of the markers and marks to come is for it. -/
def IsPending (markers : List LifecycleLedgerEntry) (marks : List JsString)
    (rows : List LifecycleLedgerEntry) (identity : JsString) : Prop :=
  IsBegun rows identity ∨ (∃ marker ∈ markers, marker.identity = identity) ∨
    identity ∈ marks ∧ (latestOf rows identity).isSome

variable (sha256 replaced) in
/-- What holds while markers and marks are being written. -/
structure Recovering (markers : List LifecycleLedgerEntry) (marks : List JsString)
    (ledger : LifecycleLedger) : Prop where
  inv : LedgerInv sha256 replaced ledger
  pending : ∀ identity ∈ ledger.durable.effects, IsPending markers marks ledger.byIdentity identity
  markers : ∀ marker ∈ markers, marker.state = .terminalUncertain ∧ (marker.identity ∉ replaced →
    ∃ index, RowAt sha256 ledger.durable.file.lines marker.identity (· = .accepted) index)

/-- During recovery a row is appended or nothing is. -/
theorem AppendOutcome.adds {returned : Bool} (h : AppendOutcome limits entry ledger returned after)
    (hwrites : WritesAre (AddsReadable sha256) after) :
    WritesAre (AddsReadable sha256) ledger ∧
      (returned = false ∧ after = ledger ∨ IsReadable sha256 entry ∧ after = ledger.appended entry) := by
  cases h with
  | refused => exact ⟨hwrites, .inl ⟨rfl, rfl⟩⟩
  | row =>
    obtain ⟨hold, hlast⟩ := WritesAre.of_append hwrites
    exact ⟨hold, .inr ⟨hlast, rfl⟩⟩
  | replacing => exact (WritesAre.of_append hwrites).2.elim
  | compactedRow => exact (WritesAre.of_append (WritesAre.of_append hwrites).1).2.elim
  | compactedRefused => exact (WritesAre.of_append hwrites).2.elim

theorem IsPending.setLatest {markers rows : List LifecycleLedgerEntry} {marks : List JsString}
    {identity : JsString} (h : IsPending markers marks rows identity) {row : LifecycleLedgerEntry}
    (hstate : row.state ≠ .accepted) : IsPending markers marks (setLatest rows row) identity := by
  rcases h with hbegun | hmarker | ⟨hmark, hknown⟩
  · exact .inl (hbegun.setLatest fun _ ↦ hstate)
  · exact .inr (.inl hmarker)
  · exact .inr (.inr ⟨hmark, isSome_latestOf_setLatest hknown row⟩)

section

variable {markers : List LifecycleLedgerEntry} {marks : List JsString}

theorem Recovering.tick (h : Recovering sha256 replaced markers marks ledger) (ticks : ℕ) :
    Recovering sha256 replaced markers marks { ledger with ticks } :=
  ⟨⟨h.inv.durable, h.inv.closed, h.inv.known, h.inv.nodup, h.inv.points⟩, h.pending, h.markers⟩

theorem Recovering.appended (h : Recovering sha256 replaced markers marks ledger)
    (hread : IsReadable sha256 entry) (hstate : entry.state ≠ .accepted)
    (hknown : (latestOf ledger.byIdentity entry.identity).isSome) :
    Recovering sha256 replaced markers marks (ledger.appended entry) := by
  refine ⟨h.inv.appended hread fun _ ↦ hknown, fun ident hident ↦ ?_, fun marker hmarker ↦ ?_⟩
  · rcases mem_append.mp hident with hmem | hmem
    · obtain ⟨row, hrow, rfl, -⟩ := exists_of_mem_effectIdentities hmem
      obtain rfl := mem_singleton.mp hrow
      exact .inl (isBegun_setLatest_self hstate)
    · exact (h.pending ident hmem).setLatest hstate
  · refine ⟨(h.markers marker hmarker).1, fun hfresh ↦ ?_⟩
    obtain ⟨idx, hrow⟩ := (h.markers marker hmarker).2 hfresh
    rw [appended_lines h.inv.closed]
    exact ⟨idx, hrow.append _⟩

/-- A marker is kept in memory. -/
theorem Recovering.setMarker (h : Recovering sha256 replaced (marker :: markers) marks ledger) :
    Recovering sha256 replaced markers marks
      { ledger with byIdentity := setLatest ledger.byIdentity marker } := by
  obtain ⟨hmarker, hrest⟩ := forall_mem_cons.mp h.markers
  have hstate : marker.state ≠ .accepted := by
    rw [hmarker.1]
    decide
  refine ⟨⟨h.inv.durable, h.inv.closed, fun ident hfresh hlatest ↦ ?_, nodup_putRow h.inv.nodup marker,
    h.inv.points⟩, fun ident hident ↦ ?_, hrest⟩
  · by_cases hsame : marker.identity = ident
    · subst hsame
      exact hmarker.2 hfresh
    · change (latestOf (Lifecycle.setLatest ledger.byIdentity marker) ident).isSome at hlatest
      rw [latestOf_setLatest, if_neg hsame] at hlatest
      exact h.inv.known ident hfresh hlatest
  · by_cases hsame : marker.identity = ident
    · subst hsame
      exact .inl (isBegun_setLatest_self hstate)
    · have hpending := (h.pending ident hident).setLatest hstate
      refine hpending.imp_right (Or.imp_left fun hmem ↦ ?_)
      obtain ⟨other, hother, rfl⟩ := hmem
      rcases mem_cons.mp hother with rfl | hother
      · exact absurd rfl hsame
      · exact ⟨other, hother, rfl⟩

theorem Recovering.dropMark {mark : JsString}
    (h : Recovering sha256 replaced markers (mark :: marks) ledger)
    (hbegun : (latestOf ledger.byIdentity mark).isSome → IsBegun ledger.byIdentity mark) :
    Recovering sha256 replaced markers marks ledger := by
  refine ⟨h.inv, fun ident hident ↦ ?_, h.markers⟩
  rcases h.pending ident hident with hdone | hmarker | ⟨hmark, hknown⟩
  · exact .inl hdone
  · exact .inr (.inl hmarker)
  · rcases mem_cons.mp hmark with rfl | hmark
    · exact .inl (hbegun hknown)
    · exact .inr (.inr ⟨hmark, hknown⟩)

variable (sha256 replaced) in
/-- As long as the writes only add rows that can be read back, recovery goes on. -/
def Recovers (markers : List LifecycleLedgerEntry) (marks : List JsString) (ledger : LifecycleLedger) :
    Prop :=
  WritesAre (FileWrite.AddsReadable sha256) ledger → Recovering sha256 replaced markers marks ledger

variable (sha256 replaced) in
def StaysSafe (ledger : LifecycleLedger) : Prop :=
  WritesAre (FileWrite.AddsReadable sha256) ledger → CrashSafe sha256 replaced ledger

/-- A row beyond `accepted` is appended for a known identity. -/
theorem append_recovers (h : Recovers sha256 replaced markers marks ledger) (hstate : entry.state ≠ .accepted)
    (hknown : WritesAre (AddsReadable sha256) ledger →
      (latestOf ledger.byIdentity entry.identity).isSome) :
    Triple (· = ledger) (append limits entry)
      (fun _ after ↦ Recovers sha256 replaced markers marks after ∧
        (WritesAre (AddsReadable sha256) after →
          WritesAre (AddsReadable sha256) ledger ∧ after = ledger.appended entry))
      (StaysSafe sha256 replaced) := by
  apply Triple.weaken (append_triple limits entry ledger)
  · intro _ after hafter
    have happended (hwrites : WritesAre (AddsReadable sha256) after) :
        WritesAre (AddsReadable sha256) ledger ∧ IsReadable sha256 entry ∧
          after = ledger.appended entry := by
      obtain ⟨hold, hnot | hrow⟩ := hafter.adds hwrites
      · cases hnot.1
      · exact ⟨hold, hrow⟩
    refine ⟨fun hwrites ↦ ?_, fun hwrites ↦ ⟨(happended hwrites).1, (happended hwrites).2.2⟩⟩
    obtain ⟨hold, hread, rfl⟩ := happended hwrites
    exact (h hold).appended hread hstate (hknown hold)
  · intro after hafter hwrites
    obtain ⟨hold, hsame | hrow⟩ := hafter.adds hwrites
    · rw [hsame.2]
      exact (h hold).inv.crashSafe
    · rw [hrow.2]
      exact ((h hold).appended hrow.1 hstate (hknown hold)).inv.crashSafe

theorem markInvalid_triple (hstate : marker.state ≠ .accepted) :
    Triple (Recovers sha256 replaced (marker :: markers) marks) (markInvalid limits marker)
      (fun _ ↦ Recovers sha256 replaced markers marks) (StaysSafe sha256 replaced) := by
  refine Triple.modify_bind fun state h ↦ Triple.get_bind fun read hread ↦ ?_
  subst hread
  have hset : Recovers sha256 replaced markers marks
      { state with byIdentity := setLatest state.byIdentity marker } := fun hwrites ↦ (h hwrites).setMarker
  refine Triple.ite (fun _ ↦ ?_) fun _ ↦ Triple.pure_self hset
  have hknown : (latestOf (setLatest state.byIdentity marker) marker.identity).isSome := by
    rw [latestOf_setLatest, if_pos rfl]
    rfl
  exact (append_recovers hset hstate fun _ ↦ hknown).weaken (fun _ _ h ↦ h.1) fun _ h ↦ h

/-- The uncertain row of a known identity is appended and becomes its latest row. -/
theorem appendUncertain_triple (h : Recovers sha256 replaced markers marks ledger)
    (hknown : WritesAre (AddsReadable sha256) ledger →
      (latestOf ledger.byIdentity entry.identity).isSome) :
    Triple (· = ledger) (appendUncertain limits clock entry)
      (fun _ after ↦ Recovers sha256 replaced markers marks after ∧
        (WritesAre (AddsReadable sha256) after → WritesAre (AddsReadable sha256) ledger ∧
            ∃ now, after.byIdentity = setLatest ledger.byIdentity (uncertainFrom entry now)))
      (StaysSafe sha256 replaced) := by
  refine readClock_bind_triple fun now ↦ ?_
  have htick : Recovers sha256 replaced markers marks { ledger with ticks := ledger.ticks + 1 } :=
    fun hwrites ↦ (h hwrites).tick _
  have hstate : (uncertainFrom entry now).state ≠ .accepted := by simp [uncertainFrom]
  apply (append_recovers htick hstate hknown).weaken (fun _ after hafter ↦ ?_) fun _ h ↦ h
  refine ⟨hafter.1, fun hwrites ↦ ⟨(hafter.2 hwrites).1, now, ?_⟩⟩
  rw [(hafter.2 hwrites).2]
  rfl

theorem markUncertain_triple {mark : JsString} :
    Triple (Recovers sha256 replaced markers (mark :: marks)) (markUncertain limits clock mark)
      (fun _ ↦ Recovers sha256 replaced markers marks) (StaysSafe sha256 replaced) := by
  refine Triple.get_bind fun state h ↦ ?_
  cases hlatest : latestOf state.byIdentity mark with
  | none =>
    refine Triple.pure_self fun hwrites ↦ (h hwrites).dropMark fun hknown ↦ ?_
    rw [hlatest] at hknown
    cases hknown
  | some row =>
    refine Triple.ite (fun hfinal ↦ Triple.pure_self fun hwrites ↦ ?_) fun _ ↦ ?_
    · exact (h hwrites).dropMark fun _ ↦ ⟨row, hlatest, ne_accepted_of_final hfinal⟩
    · obtain rfl := identity_of_latestOf hlatest
      have hknown : (latestOf state.byIdentity row.identity).isSome := by
        rw [hlatest]
        rfl
      refine (appendUncertain_triple h fun _ ↦ hknown).weaken (fun _ after hafter hwrites ↦ ?_) fun _ h ↦ h
      obtain ⟨-, now, hrows⟩ := hafter.2 hwrites
      refine (hafter.1 hwrites).dropMark fun _ ↦ ?_
      rw [hrows]
      have hbegun : IsBegun (setLatest state.byIdentity (uncertainFrom row now))
          (uncertainFrom row now).identity := isBegun_setLatest_self (by simp [uncertainFrom])
      exact hbegun

theorem markUnderway_triple (items : List LifecycleLedgerEntry) :
    Triple (fun ledger ↦ WritesAre (AddsReadable sha256) ledger →
        Recovering sha256 replaced markers marks ledger ∧
          ∀ row ∈ entry :: items, (latestOf ledger.byIdentity row.identity).isSome)
      (markUnderway limits clock entry)
      (fun _ ledger ↦ WritesAre (AddsReadable sha256) ledger →
        Recovering sha256 replaced markers marks ledger ∧
          ∀ row ∈ items, (latestOf ledger.byIdentity row.identity).isSome)
      (StaysSafe sha256 replaced) := by
  refine Triple.ite (fun _ ↦ Triple.of_forall fun state h ↦ ?_) fun _ ↦ Triple.pure fun state h hwrites ↦ ?_
  · have hrecovers : Recovers sha256 replaced markers marks state := fun hwrites ↦ (h hwrites).1
    refine (appendUncertain_triple hrecovers fun hwrites ↦ (h hwrites).2 entry mem_cons_self).weaken
      (fun _ after hafter hwrites ↦ ?_) fun _ h ↦ h
    obtain ⟨hold, now, hrows⟩ := hafter.2 hwrites
    refine ⟨hafter.1 hwrites, fun row hrow ↦ ?_⟩
    rw [hrows]
    exact isSome_latestOf_setLatest ((h hold).2 row (mem_cons_of_mem _ hrow)) _
  · exact ⟨(h hwrites).1, fun row hrow ↦ (h hwrites).2 row (mem_cons_of_mem _ hrow)⟩

end

theorem recover_triple {state : OpenState}
    (hmarkers : ∀ marker ∈ state.syntheticUncertain, marker.state ≠ .accepted) :
    Triple (Recovers sha256 replaced state.syntheticUncertain state.uncertainAfterCorruption)
      (recover limits clock state)
      (fun _ ledger ↦ WritesAre (AddsReadable sha256) ledger →
        LedgerInv sha256 replaced ledger ∧ IsMarked ledger)
      (StaysSafe sha256 replaced) := by
  have hinvalid : Triple (Recovers sha256 replaced state.syntheticUncertain state.uncertainAfterCorruption)
      (state.syntheticUncertain.forM (markInvalid limits))
      (fun _ ↦ Recovers sha256 replaced [] state.uncertainAfterCorruption) (StaysSafe sha256 replaced) :=
    Triple.forM (fun rest ↦ Recovers sha256 replaced rest state.uncertainAfterCorruption)
      fun marker hmarker _ ↦ markInvalid_triple (hmarkers marker hmarker)
  have huncertain : Triple (Recovers sha256 replaced [] state.uncertainAfterCorruption)
      (state.uncertainAfterCorruption.forM (markUncertain limits clock))
      (fun _ ↦ Recovers sha256 replaced [] []) (StaysSafe sha256 replaced) :=
    Triple.forM (fun rest ↦ Recovers sha256 replaced [] rest) fun _ _ _ ↦ markUncertain_triple
  refine hinvalid.bind fun _ ↦ huncertain.bind fun _ ↦ Triple.get_bind fun ledger h ↦ ?_
  refine ((Triple.forM (fun rest ledger ↦ WritesAre (AddsReadable sha256) ledger →
    Recovering sha256 replaced [] [] ledger ∧
      ∀ row ∈ rest, (latestOf ledger.byIdentity row.identity).isSome)
    fun _ _ rest ↦ markUnderway_triple rest).strengthen fun other hother hwrites ↦ ?_).weaken
    (fun _ after hafter hwrites ↦ ?_) fun _ h ↦ h
  · rw [hother] at hwrites ⊢
    exact ⟨h hwrites, fun row hrow ↦ isSome_latestOf_iff.mpr ⟨row, hrow, rfl⟩⟩
  · obtain ⟨hrecovering, -⟩ := hafter hwrites
    refine ⟨hrecovering.inv, fun ident hident ↦ ?_⟩
    rcases hrecovering.pending ident hident with hbegun | ⟨marker, hmarker, -⟩ | ⟨hmark, -⟩
    · exact hbegun
    · exact absurd hmarker not_mem_nil
    · exact absurd hmark not_mem_nil

/-- What was read from a file with the evidence, before anything is marked. -/
theorem recovering_loaded {state : OpenState} {ticks : ℕ}
    (hdurable : DurableInv sha256 replaced ledger.durable)
    (hclosed : ledger.durable.file.terminated)
    (hread : ledger.durable.file.lines.foldlM (readLine sha256 limits clock) (.initial ticks) = .ok state)
    (hrows : ledger.byIdentity = state.byIdentity)
    (hpoints : ∀ point ∈ ledger.points, ∀ kept, DurableInv sha256 replaced (point.1.crash kept point.2)) :
    Recovering sha256 replaced state.syntheticUncertain state.uncertainAfterCorruption ledger := by
  have hsound := sound_of_foldlM_readLine hread
  -- an identity that is named has a row, and in front of a later row an accepted one
  have hanchored (row) (hrow : row ∈ state.byIdentity ++ state.syntheticUncertain)
      (hfresh : row.identity ∉ replaced) :
      ∃ index, RowAt sha256 ledger.durable.file.lines row.identity (· = .accepted) index := by
    obtain ⟨line, hline, read, hattributed, heq⟩ := hsound.named row hrow
    obtain ⟨index, hidx, rfl⟩ := getElem_of_mem hline
    have hplace : ledger.durable.file.lines[index]?.bind (attributedRow sha256) = some read := by
      rw [getElem?_eq_getElem hidx, Option.bind_some, hattributed]
    by_cases hstate : read.state = .accepted
    · exact ⟨index, read, hplace, heq, hstate⟩
    · obtain ⟨earlier, -, hearlier⟩ :=
        hdurable.anchored row.identity hfresh index ⟨read, hplace, heq, hstate⟩
      exact ⟨earlier, hearlier⟩
  refine ⟨⟨hdurable, hclosed, fun ident hfresh hlatest ↦ ?_, ?_, hpoints⟩,
    fun ident hident ↦ ?_, fun marker hmarker ↦ ⟨hsound.synthetic marker hmarker, ?_⟩⟩
  · rw [hrows] at hlatest
    obtain ⟨row, hrow, rfl⟩ := isSome_latestOf_iff.mp hlatest
    exact hanchored row (mem_append_left _ hrow) hfresh
  · rw [hrows]
    exact hsound.nodup
  · rw [hrows]
    have hevidence := (hdurable.evidence ident hident).imp_right And.right
    rcases flagged_of_evidence hread hevidence with hinvalid | huncertain | hbegun
    · exact .inr (.inl (hsound.invalid ident hinvalid))
    · exact .inr (.inr ⟨huncertain, hsound.uncertain ident huncertain⟩)
    · exact .inl hbegun
  · exact hanchored marker (mem_append_right _ hmarker)

/-- Opening a file with the evidence. -/
theorem open_triple (hdurable : DurableInv sha256 replaced ledger.durable) (hpoints : ledger.points = []) :
    Triple (· = ledger) («open» sha256 limits clock)
      (fun _ ledger ↦ WritesAre (AddsReadable sha256) ledger →
        LedgerInv sha256 replaced ledger ∧ IsMarked ledger)
      (StaysSafe sha256 replaced) := by
  have hsafe : StaysSafe sha256 replaced ledger := fun _ ↦ ⟨hdurable, by simp [hpoints]⟩
  refine Triple.get_bind_self (Triple.ite (fun _ ↦ Triple.throw_self hsafe) fun _ ↦ ?_)
  cases hstate : ledger.durable.file.lines.foldlM (readLine sha256 limits clock) (.initial ledger.ticks) with
  | error => exact Triple.throw_self hsafe
  | ok state =>
    have hsound := sound_of_foldlM_readLine hstate
    have hmarkers : ∀ marker ∈ state.syntheticUncertain, marker.state ≠ .accepted := by
      intro marker hmarker
      rw [hsound.synthetic marker hmarker]
      decide
    have hload : Triple (· = ledger) (load state)
        (fun _ ↦ Recovers sha256 replaced state.syntheticUncertain state.uncertainAfterCorruption)
        (StaysSafe sha256 replaced) := by
      refine Triple.modify_bind fun first hfirst ↦ Triple.get_bind fun loaded hloaded ↦ ?_
      subst hfirst
      refine Triple.ite (fun hclosed ↦ Triple.pure fun other hother _ ↦ ?_) fun hopen ↦ ?_
      · rw [hother]
        exact recovering_loaded (by rw [hloaded]; exact hdurable) hclosed (by rw [hloaded]; exact hstate)
          (by rw [hloaded]) (by rw [hloaded]; simp [hpoints])
      · subst hloaded
        have hfile : first.durable.file.terminated = false := by simpa using hopen
        have hclosed : (first.durable.apply .seal).file = ⟨first.durable.file.lines, true⟩ :=
          LedgerFile.close_lines hfile
        have hsealed := hdurable.apply_seal hfile
        intro other hother
        rw [hother]
        intro _
        refine recovering_loaded hsealed (by rw [hclosed]) (by rw [hclosed]; exact hstate) rfl ?_
        change ∀ point ∈ first.points ++ [(first.durable, FileWrite.seal)], _
        rw [hpoints, nil_append, forall_mem_singleton]
        intro kept
        change DurableInv sha256 replaced (if kept = 0 then first.durable else first.durable.apply .seal)
        split_ifs
        · exact hdurable
        · exact hsealed
    exact hload.bind fun _ ↦ (recover_triple hmarkers).bind fun _ ↦ Triple.pure fun _ h ↦ h

end

end GajaeCode.Lifecycle
