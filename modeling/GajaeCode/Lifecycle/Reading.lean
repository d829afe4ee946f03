import GajaeCode.Lifecycle.Evidence
import GajaeCode.Lifecycle.Operations
import GajaeCode.Machine.Checks

/-!
# What reading the file leaves

Each line of the file is skipped, accepted as the next row of its identity, or quarantined. What
was quarantined marks identities, and marks are never taken back. So an identity with evidence of
effects is marked after the last line, or its latest row is beyond `accepted`.
-/

namespace GajaeCode.Lifecycle

open Text Json Chain Machine List Option

variable {entry : LifecycleLedgerEntry}

/-! ## Latest rows -/

section

variable {rows : List LifecycleLedgerEntry} {identity : JsString}

theorem latestOf_setLatest (entry : LifecycleLedgerEntry) :
    latestOf (setLatest rows entry) identity =
      if entry.identity = identity then some entry else latestOf rows identity :=
  find?_putRow rows entry identity

theorem isSome_latestOf_iff : (latestOf rows identity).isSome ↔ ∃ row ∈ rows, row.identity = identity := by
  simp [latestOf]

theorem identity_of_latestOf (h : latestOf rows identity = some entry) : entry.identity = identity := by
  simpa using find?_some h

theorem isSome_latestOf_setLatest (h : (latestOf rows identity).isSome) (entry : LifecycleLedgerEntry) :
    (latestOf (setLatest rows entry) identity).isSome := by
  rw [latestOf_setLatest]
  split_ifs
  · rfl
  · exact h

/-- The latest row of the identity is beyond `accepted`. -/
def IsBegun (rows : List LifecycleLedgerEntry) (identity : JsString) : Prop :=
  ∃ entry, latestOf rows identity = some entry ∧ entry.state ≠ .accepted

theorem IsBegun.setLatest (h : IsBegun rows identity)
    (hentry : entry.identity = identity → entry.state ≠ .accepted) :
    IsBegun (setLatest rows entry) identity := by
  obtain ⟨latest, hlatest, hstate⟩ := h
  rw [IsBegun, latestOf_setLatest]
  split_ifs with hsame
  · exact ⟨entry, rfl, hentry hsame⟩
  · exact ⟨latest, hlatest, hstate⟩

theorem isBegun_setLatest_self (h : entry.state ≠ .accepted) :
    IsBegun (setLatest rows entry) entry.identity :=
  ⟨entry, by rw [latestOf_setLatest, if_pos rfl], h⟩

end

theorem ne_accepted_of_final {state : LifecycleState} (h : state.final) : state ≠ .accepted := by
  rintro rfl
  cases h

/-- No row continues a row beyond `accepted` by an accepted one. -/
theorem ne_accepted_of_continuation {prev next : LifecycleLedgerEntry}
    (h : isValidHistoryContinuation (some prev) next) (hstate : prev.state ≠ .accepted) :
    next.state ≠ .accepted := by
  intro hnext
  rw [isValidHistoryContinuation] at h
  cases hprev : prev.state <;> simp_all [LifecycleState.final, LifecycleState.terminal]

theorem state_syntheticFrom (prior : Option LifecycleLedgerEntry) (entry : LifecycleLedgerEntry)
    (now : Timestamp) : (syntheticFrom prior entry now).state = .terminalUncertain := by
  cases prior <;> cases h : nestedCleanupSessionId entry <;> simp [syntheticFrom, h] <;> rfl

theorem identity_syntheticFrom {prior : Option LifecycleLedgerEntry}
    (h : ∀ prev ∈ prior, prev.identity = entry.identity) (now : Timestamp) :
    (syntheticFrom prior entry now).identity = entry.identity := by
  cases prior with
  | none => cases hnested : nestedCleanupSessionId entry <;> simp [syntheticFrom, hnested] <;> rfl
  | some prev =>
    rw [← h prev rfl]
    cases hnested : nestedCleanupSessionId entry <;> simp [syntheticFrom, hnested] <;> rfl

/-! ## One line -/

section

variable (sha256 : JsString → JsString) (clock : ℕ → Timestamp)

/-- What a line does. -/
inductive LineRead (state : OpenState) (line : Bytes) : OpenState → Prop
  | blank (hline : line = []) : LineRead state line state
  | corrupt (hrow : attributedRow sha256 line = none) :
      LineRead state line (state.countRow.quarantineLine line)
  | marked (entry : LifecycleLedgerEntry) (hrow : readRow line = some entry)
      (hmarked : entry.identity ∈ state.invalidIdentities ∨
        entry.identity ∈ state.uncertainAfterCorruption) :
      LineRead state line (state.countRow.quarantineRow clock line entry)
  | invalid (entry : LifecycleLedgerEntry) (hrow : attributedRow sha256 line = some entry) :
      LineRead state line (state.countRow.quarantineRow clock line entry)
  | accepted (entry : LifecycleLedgerEntry) (hrow : attributedRow sha256 line = some entry)
      (hnext : isValidHistoryContinuation (latestOf state.byIdentity entry.identity) entry = true) :
      LineRead state line (state.countRow.acceptRow entry)

variable {sha256 clock} {limits : LifecycleLedgerLimits} {state after : OpenState} {line : Bytes}

theorem lineRead_readEntryRow (hrow : readRow line = some entry) :
    LineRead sha256 clock state line (readEntryRow sha256 clock state.countRow line entry) := by
  rw [readEntryRow]
  split_ifs with hmarked
  · rw [Bool.or_eq_true, decide_eq_true_eq, decide_eq_true_eq] at hmarked
    exact .marked entry hrow hmarked
  · cases hdigests : hasValidTerminalDigests sha256 entry with
    | none =>
      apply LineRead.corrupt
      rw [attributedRow, hrow, filter_some, hdigests]
      rfl
    | some =>
      have hattributed : attributedRow sha256 line = some entry := by
        rw [attributedRow, hrow, filter_some, hdigests]
        rfl
      dsimp only
      split_ifs with hvalid
      · exact .accepted entry hattributed (Bool.and_eq_true_iff.mp hvalid).2
      · exact .invalid entry hattributed

theorem lineRead_of_readContent (h : readContent sha256 clock state.countRow line = .ok after) :
    LineRead sha256 clock state line after := by
  rw [readContent] at h
  cases hparse : parseLifecycleJson line with
  | none =>
    rw [hparse] at h
    cases h
    apply LineRead.corrupt
    rw [attributedRow, readRow, hparse]
    rfl
  | some value =>
    rw [hparse] at h
    dsimp only at h
    split_ifs at h with hversion
    have hread : readRow line = readEntry value := by
      rw [readRow, hparse, bind_some, if_pos (by simpa using hversion)]
    cases hentry : readEntry value with
    | none =>
      rw [hentry] at h
      cases h
      apply LineRead.corrupt
      rw [attributedRow, hread, hentry]
      rfl
    | some =>
      rw [hentry] at h
      cases h
      exact lineRead_readEntryRow (hread.trans hentry)

theorem lineRead_of_readLine (h : readLine sha256 limits clock state line = .ok after) :
    LineRead sha256 clock state line after := by
  rw [readLine] at h
  split_ifs at h with hblank
  · cases h
    exact .blank hblank
  · exact lineRead_of_readContent h

/-! ## Marks -/

variable {identity : JsString}

/-- The identity is marked, or its latest row is beyond `accepted`. -/
def OpenState.Flagged (state : OpenState) (identity : JsString) : Prop :=
  identity ∈ state.invalidIdentities ∨ identity ∈ state.uncertainAfterCorruption ∨
    IsBegun state.byIdentity identity

theorem readRow_nil : readRow [] = none := by decide

theorem mem_quarantineLine :
    identity ∈ (state.countRow.quarantineLine line).uncertainAfterCorruption ↔
      identity ∈ state.uncertainAfterCorruption ∨
        ∃ latest ∈ state.byIdentity, latest.state.final = false ∧ latest.identity = identity := by
  simp [OpenState.quarantineLine, OpenState.countRow, mem_foldl_pushNew, and_assoc]

theorem mem_quarantineRow :
    identity ∈ (state.countRow.quarantineRow clock line entry).invalidIdentities ↔
      identity ∈ state.invalidIdentities ∨ identity = entry.identity :=
  mem_pushNew

section

variable (h : LineRead sha256 clock state line after)

include h

/-- Marks are never taken back. -/
theorem LineRead.flagged (hflag : state.Flagged identity) : after.Flagged identity := by
  cases h with
  | blank => exact hflag
  | corrupt => exact hflag.imp_right (Or.imp_left fun hmem ↦ mem_quarantineLine.mpr (.inl hmem))
  | marked | invalid => exact hflag.imp_left fun hmem ↦ mem_quarantineRow.mpr (.inl hmem)
  | accepted entry _ hnext =>
    refine hflag.imp_right (Or.imp_right fun hbegun ↦ hbegun.setLatest fun hsame ↦ ?_)
    obtain ⟨latest, hlatest, hstate⟩ := hbegun
    rw [hsame, hlatest] at hnext
    exact ne_accepted_of_continuation hnext hstate

/-- A row is accepted or marks its identity. -/
theorem LineRead.row_cases (hrow : attributedRow sha256 line = some entry) :
    entry.identity ∈ after.invalidIdentities ∨ after = state.countRow.acceptRow entry := by
  cases h with
  | blank hline =>
    rw [hline, attributedRow, readRow_nil] at hrow
    exact absurd hrow (by simp)
  | corrupt hnone => exact absurd (hnone.symm.trans hrow) (by simp)
  | marked read hread =>
    obtain rfl := some.inj ((readRow_of_attributedRow hrow).symm.trans hread)
    exact .inl (mem_quarantineRow.mpr (Or.inr rfl))
  | invalid read hread =>
    obtain rfl := some.inj (hrow.symm.trans hread)
    exact .inl (mem_quarantineRow.mpr (Or.inr rfl))
  | accepted read hread =>
    obtain rfl := some.inj (hrow.symm.trans hread)
    exact Or.inr rfl

/-- A line that does not parse marks what is under way. -/
theorem LineRead.flagged_of_undecodable
    (hline : IsUndecodable line) (hknown : (latestOf state.byIdentity identity).isSome) :
    after.Flagged identity := by
  have hread := readRow_of_undecodable hline
  have hnone : attributedRow sha256 line = none := attributedRow_of_undecodable hline
  cases h with
  | blank hblank => exact absurd hblank hline.1
  | corrupt =>
    obtain ⟨latest, hlatest⟩ := isSome_iff_exists.mp hknown
    cases hfinal : latest.state.final with
    | true => exact .inr (.inr ⟨latest, hlatest, ne_accepted_of_final hfinal⟩)
    | false =>
      refine .inr (.inl (mem_quarantineLine.mpr (.inr ⟨latest, ?_, hfinal, ?_⟩)))
      · exact mem_of_find?_eq_some hlatest
      · exact identity_of_latestOf hlatest
  | marked entry hrow => exact absurd (hread.symm.trans hrow) (by simp)
  | invalid entry hrow | accepted entry hrow => exact absurd (hnone.symm.trans hrow) (by simp)

/-- A known identity stays known, and a row makes its identity known unless it marks it. -/
theorem LineRead.known (hknown : (latestOf state.byIdentity identity).isSome) :
    (latestOf after.byIdentity identity).isSome := by
  cases h with
  | accepted entry => exact isSome_latestOf_setLatest hknown entry
  | _ => exact hknown

theorem LineRead.known_of_row (hrow : attributedRow sha256 line = some entry) :
    after.Flagged entry.identity ∨ (latestOf after.byIdentity entry.identity).isSome := by
  rcases h.row_cases hrow with hmem | rfl
  · exact .inl (.inl hmem)
  · refine Or.inr ?_
    change (latestOf (setLatest state.byIdentity entry) entry.identity).isSome
    rw [latestOf_setLatest, if_pos rfl]
    rfl

end

/-! ## All lines -/

variable {lines : List Bytes} {first last : OpenState}

/-- Reading stops at every line on its way. -/
theorem foldlM_readLine_split (h : lines.foldlM (readLine sha256 limits clock) first = .ok last)
    {idx : ℕ} (hline : lines[idx]? = some line) :
    ∃ before after, (lines.take idx).foldlM (readLine sha256 limits clock) first = .ok before ∧
      LineRead sha256 clock before line after ∧
        (lines.drop (idx + 1)).foldlM (readLine sha256 limits clock) after = .ok last := by
  have hsplit : lines = lines.take idx ++ line :: lines.drop (idx + 1) := by
    obtain ⟨hlength, rfl⟩ := List.getElem?_eq_some_iff.mp hline
    rw [getElem_cons_drop, take_append_drop]
  rw [hsplit, foldlM_append] at h
  obtain ⟨before, hbefore, h⟩ := bind_eq_ok_iff.mp h
  obtain ⟨after, hafter, h⟩ := bind_eq_ok_iff.mp h
  exact ⟨before, after, hbefore, lineRead_of_readLine hafter, h⟩

theorem foldlM_readLine_keeps (property : OpenState → Prop)
    (hstep : ∀ state after, ∀ line ∈ lines, property state → LineRead sha256 clock state line after →
      property after)
    (h : lines.foldlM (readLine sha256 limits clock) first = .ok last) (hfirst : property first) :
    property last := by
  induction lines generalizing first with
  | nil => exact Except.ok.inj h ▸ hfirst
  | cons line rest ih =>
    obtain ⟨after, hafter, h⟩ := bind_eq_ok_iff.mp h
    have hread := lineRead_of_readLine hafter
    refine ih (fun state after line hline ↦ hstep state after line (mem_cons_of_mem _ hline)) h ?_
    exact hstep first after line mem_cons_self hfirst hread

/-- An identity with evidence of effects is flagged in the end. -/
theorem flagged_of_evidence (h : lines.foldlM (readLine sha256 limits clock) first = .ok last)
    (hevidence : (∃ idx, RowAt sha256 lines identity (· ≠ .accepted) idx) ∨
      ∃ earlier later, earlier < later ∧ RowAt sha256 lines identity (· = .accepted) earlier ∧
        UndecodableAt lines later) : last.Flagged identity := by
  have hkeeps {start} {rest' : List Bytes}
      (h : rest'.foldlM (readLine sha256 limits clock) start = .ok last)
      (hflag : start.Flagged identity) : last.Flagged identity :=
    foldlM_readLine_keeps (·.Flagged identity) (fun _ _ _ _ hflag hread ↦ hread.flagged hflag) h hflag
  rcases hevidence with ⟨idx, entry, hentry, rfl, hstate⟩ | ⟨earlier, later, hlt, hrow, hlost⟩
  · obtain ⟨line, hline, hrow⟩ := bind_eq_some_iff.mp hentry
    obtain ⟨before, after, -, hread, hrest⟩ := foldlM_readLine_split h hline
    apply hkeeps hrest
    rcases hread.row_cases hrow with hmem | rfl
    · exact .inl hmem
    · exact .inr (.inr (isBegun_setLatest_self hstate))
  · obtain ⟨entry, hentry, rfl, -⟩ := hrow
    obtain ⟨line, hline, hrow⟩ := bind_eq_some_iff.mp hentry
    obtain ⟨lost, hlost, hundecodable⟩ := hlost
    obtain ⟨before, after, hbefore, hread, hrest⟩ := foldlM_readLine_split h hlost
    -- the accepted row is among the lines in front of the lost one
    have htaken : (lines.take later)[earlier]? = some line := by
      rw [getElem?_take_of_lt hlt, hline]
    obtain ⟨_, known, -, hreadRow, hmiddle⟩ := foldlM_readLine_split hbefore htaken
    have hknown : before.Flagged entry.identity ∨ (latestOf before.byIdentity entry.identity).isSome := by
      refine foldlM_readLine_keeps (fun state ↦ state.Flagged entry.identity ∨
        (latestOf state.byIdentity entry.identity).isSome) (fun _ _ _ _ hknown hread ↦ ?_) hmiddle
        (hreadRow.known_of_row hrow)
      exact hknown.imp hread.flagged hread.known
    apply hkeeps hrest
    rcases hknown with hflag | hknown
    · exact hread.flagged hflag
    · exact hread.flagged_of_undecodable hundecodable hknown

/-! ## What the marks refer to -/

variable (sha256) in
/-- Marks refer to identities that the markers or the latest rows name, and these have rows in the
file. -/
structure OpenState.Sound (lines : List Bytes) (state : OpenState) : Prop where
  invalid : ∀ identity ∈ state.invalidIdentities, ∃ row ∈ state.syntheticUncertain, row.identity = identity
  uncertain : ∀ identity ∈ state.uncertainAfterCorruption, (latestOf state.byIdentity identity).isSome
  named : ∀ row ∈ state.byIdentity ++ state.syntheticUncertain, ∃ line ∈ lines, ∃ entry,
    attributedRow sha256 line = some entry ∧ entry.identity = row.identity
  synthetic : ∀ row ∈ state.syntheticUncertain, row.state = .terminalUncertain
  nodup : (state.byIdentity.map LifecycleLedgerEntry.identity).Nodup

theorem mem_setLatest {rows : List LifecycleLedgerEntry} {row : LifecycleLedgerEntry}
    (h : row ∈ setLatest rows entry) : row = entry ∨ row ∈ rows := by
  rw [setLatest, putRow] at h
  split_ifs at h
  · obtain ⟨old, hold, rfl⟩ := mem_map.mp h
    split_ifs
    · exact Or.inl rfl
    · exact .inr hold
  · rw [mem_append, mem_singleton] at h
    exact h.symm

/-- A row that is quarantined needs a row of its identity in the file. -/
theorem OpenState.Sound.quarantineRow (h : state.Sound sha256 lines)
    (hnamed : ∃ line ∈ lines, ∃ row, attributedRow sha256 line = some row ∧
      row.identity = entry.identity) :
    (state.countRow.quarantineRow clock line entry).Sound sha256 lines := by
  have hprior : ∀ prev ∈ latestOf state.byIdentity entry.identity,
      prev.identity = entry.identity := fun prev hprev ↦ identity_of_latestOf hprev
  have hmarker := identity_syntheticFrom hprior (clock state.ticks)
  -- a marker is added unless the identity has one
  have hrows (row) : row ∈ (state.countRow.quarantineRow clock line entry).syntheticUncertain ↔
      row ∈ state.syntheticUncertain ∨ ¬ (latestOf state.syntheticUncertain entry.identity).isSome ∧
        row = syntheticFrom (latestOf state.byIdentity entry.identity) entry (clock state.ticks) := by
    simp only [OpenState.quarantineRow, OpenState.countRow]
    split_ifs with hknown
    · simp [hknown]
    · simp [hknown]
  refine ⟨fun identity hmem ↦ ?_, h.uncertain, fun row hrow ↦ ?_, fun row hrow ↦ ?_, h.nodup⟩
  · rcases mem_quarantineRow.mp hmem with hmem | rfl
    · obtain ⟨row, hrow, heq⟩ := h.invalid identity hmem
      exact ⟨row, (hrows row).mpr (.inl hrow), heq⟩
    · by_cases hknown : (latestOf state.syntheticUncertain entry.identity).isSome
      · obtain ⟨row, hrow, heq⟩ := isSome_latestOf_iff.mp hknown
        exact ⟨row, (hrows row).mpr (.inl hrow), heq⟩
      · exact ⟨_, (hrows _).mpr (.inr ⟨hknown, rfl⟩), hmarker⟩
  · rw [mem_append, hrows] at hrow
    rcases hrow with hrow | hrow | ⟨-, rfl⟩
    · exact h.named row (mem_append_left _ hrow)
    · exact h.named row (mem_append_right _ hrow)
    · rw [hmarker]
      exact hnamed
  · rcases (hrows row).mp hrow with hrow | ⟨-, rfl⟩
    · exact h.synthetic row hrow
    · exact state_syntheticFrom _ _ _

theorem OpenState.Sound.lineRead (h : state.Sound sha256 lines) (hline : line ∈ lines)
    (hread : LineRead sha256 clock state line after) : after.Sound sha256 lines := by
  cases hread with
  | blank => exact h
  | corrupt =>
    refine ⟨h.invalid, fun identity hmem ↦ ?_, h.named, h.synthetic, h.nodup⟩
    rcases mem_quarantineLine.mp hmem with hmem | ⟨latest, hlatest, -, rfl⟩
    · exact h.uncertain identity hmem
    · exact isSome_latestOf_iff.mpr ⟨latest, hlatest, rfl⟩
  | marked entry _ hmarked =>
    apply h.quarantineRow
    rcases hmarked with hmarked | hmarked
    · obtain ⟨row, hrow, heq⟩ := h.invalid _ hmarked
      rw [← heq]
      exact h.named row (mem_append_right _ hrow)
    · obtain ⟨row, hrow, heq⟩ := isSome_latestOf_iff.mp (h.uncertain _ hmarked)
      rw [← heq]
      exact h.named row (mem_append_left _ hrow)
  | invalid entry hrow => exact h.quarantineRow ⟨line, hline, entry, hrow, rfl⟩
  | accepted entry hrow =>
    refine ⟨h.invalid, fun identity hmem ↦ ?_, fun row hmem ↦ ?_, h.synthetic, nodup_putRow h.nodup entry⟩
    · exact isSome_latestOf_setLatest (h.uncertain identity hmem) entry
    · rcases mem_append.mp hmem with hmem | hmem
      · rcases mem_setLatest hmem with rfl | hmem
        · exact ⟨line, hline, row, hrow, rfl⟩
        · exact h.named row (mem_append_left _ hmem)
      · exact h.named row (mem_append_right _ hmem)

theorem sound_of_foldlM_readLine {ticks : ℕ}
    (h : lines.foldlM (readLine sha256 limits clock) (.initial ticks) = .ok last) :
    last.Sound sha256 lines := by
  refine foldlM_readLine_keeps (·.Sound sha256 lines)
    (fun _ _ _ hline hsound hread ↦ hsound.lineRead hline hread) h ?_
  exact ⟨by simp [OpenState.initial], by simp [OpenState.initial], by simp [OpenState.initial],
    by simp [OpenState.initial], by simp [OpenState.initial]⟩

end

end GajaeCode.Lifecycle
