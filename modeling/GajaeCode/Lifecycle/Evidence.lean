import GajaeCode.Lifecycle.Ledger

/-!
# Evidence of effects in the file

A row beyond `accepted` that can be read is evidence that the effects of its identity may have run.
If the row is lost to a line that does not parse, the accepted row in front of that line still is.
Both kinds of evidence survive whatever is written behind them, and a file in which every row
beyond `accepted` has an accepted row in front of it loses none when one row of it is replaced.
-/

namespace GajaeCode.Lifecycle

open Text Json List

variable {entry : LifecycleLedgerEntry} {property : LifecycleState → Prop} {identity : JsString}
  {line : Bytes} {lines : List Bytes} {place : ℕ} {effects : List JsString}

/-! ## Writing lines -/

theorem LifecycleLedgerEntry.rowBytes_ne_nil (entry : LifecycleLedgerEntry) : entry.rowBytes ≠ [] := by
  intro h
  have hdecode := entry.decode_rowBytes
  rw [h, valueText] at hdecode
  exact cons_ne_nil _ _ hdecode.symm

namespace LedgerFile

variable {file : LedgerFile}

theorem write_lines (h : file.terminated) {bytes : Bytes} (hbytes : bytes ≠ []) :
    file.write bytes = ⟨file.lines ++ [bytes], false⟩ := by
  rw [write, if_neg hbytes, if_pos h]

theorem close_write (h : file.terminated) {bytes : Bytes} (hbytes : bytes ≠ []) :
    (file.write bytes).close = ⟨file.lines ++ [bytes], true⟩ := by
  rw [write_lines h hbytes]
  rfl

theorem close_lines (h : file.terminated = false) : file.close = ⟨file.lines, true⟩ := by
  simp [close, h]

end LedgerFile

section

variable (sha256 : JsString → JsString)

/-- The entry of a line whose digests can be checked. -/
def attributedRow (line : Bytes) : Option LifecycleLedgerEntry :=
  (readRow line).filter fun entry ↦ (hasValidTerminalDigests sha256 entry).isSome

/-- The reader attributes the row to its identity. -/
def IsReadable (entry : LifecycleLedgerEntry) : Prop :=
  (attributedRow sha256 entry.rowBytes).isSome = true

/-- The line is no JSON text. -/
def IsUndecodable (line : Bytes) : Prop := line ≠ [] ∧ parseLifecycleJson line = none

/-- A row of the identity, in a state with the property. -/
def RowAt (lines : List Bytes) (identity : JsString) (property : LifecycleState → Prop) (index : ℕ) :
    Prop :=
  ∃ entry, lines[index]?.bind (attributedRow sha256) = some entry ∧ entry.identity = identity ∧
    property entry.state

def UndecodableAt (lines : List Bytes) (index : ℕ) : Prop := ∃ line ∈ lines[index]?, IsUndecodable line

/-- `replaced` are the identities that lost a row. -/
structure DurableInv (replaced : List JsString) (durable : Durable) : Prop where
  attributed : ∀ line ∈ durable.file.lines, ∀ entry, readRow line = some entry →
    attributedRow sha256 line = some entry
  anchored : ∀ identity ∉ replaced, ∀ index,
    RowAt sha256 durable.file.lines identity (· ≠ .accepted) index →
      ∃ earlier < index, RowAt sha256 durable.file.lines identity (· = .accepted) earlier
  evidence : ∀ identity ∈ durable.effects,
    (∃ index, RowAt sha256 durable.file.lines identity (· ≠ .accepted) index) ∨
      identity ∈ replaced ∧ ∃ earlier later, earlier < later ∧
        RowAt sha256 durable.file.lines identity (· = .accepted) earlier ∧
          UndecodableAt durable.file.lines later

variable {sha256}

theorem readRow_of_attributedRow
    (h : attributedRow sha256 line = some entry) : readRow line = some entry :=
  (Option.filter_eq_some_iff.mp h).1

theorem readRow_of_undecodable (h : IsUndecodable line) : readRow line = none := by
  rw [readRow, h.2]
  rfl

theorem attributedRow_of_undecodable (h : IsUndecodable line) : attributedRow sha256 line = none := by
  rw [attributedRow, readRow_of_undecodable h]
  rfl

theorem IsReadable.attributedRow (h : IsReadable sha256 entry) :
    attributedRow sha256 entry.rowBytes = some entry.clean := by
  obtain ⟨read, hread⟩ := Option.isSome_iff_exists.mp h
  rw [hread, eq_clean_of_readRow (readRow_of_attributedRow hread)]

namespace RowAt

variable {lines : List Bytes} {identity : JsString} {property : LifecycleState → Prop} {index : ℕ}

theorem lt_length (h : RowAt sha256 lines identity property index) : index < lines.length := by
  obtain ⟨entry, hentry, -⟩ := h
  obtain ⟨line, hline, -⟩ := Option.bind_eq_some_iff.mp hentry
  exact (List.getElem?_eq_some_iff.mp hline).1

theorem append (h : RowAt sha256 lines identity property index) (more : List Bytes) :
    RowAt sha256 (lines ++ more) identity property index := by
  have hindex := h.lt_length
  obtain ⟨entry, hentry, hrest⟩ := h
  have hsame : (lines ++ more)[index]? = lines[index]? := getElem?_append_left hindex
  exact ⟨entry, hsame ▸ hentry, hrest⟩

theorem last (h : attributedRow sha256 line = some entry) (hproperty : property entry.state) :
    RowAt sha256 (lines ++ [line]) entry.identity property lines.length := by
  refine ⟨entry, ?_, rfl, hproperty⟩
  rw [getElem?_concat_length, Option.bind_some, h]

/-- A row of a longer file is one of the shorter file or the new one. -/
theorem of_concat (h : RowAt sha256 (lines ++ [line]) identity property index) :
    RowAt sha256 lines identity property index ∨ index = lines.length ∧
      ∃ entry, attributedRow sha256 line = some entry ∧ entry.identity = identity ∧ property entry.state := by
  have hindex := h.lt_length
  obtain ⟨entry, hentry, hrest⟩ := h
  rw [length_append, length_singleton] at hindex
  rcases Nat.lt_succ_iff_lt_or_eq.mp hindex with hlt | rfl
  · rw [getElem?_append_left hlt] at hentry
    exact .inl ⟨entry, hentry, hrest⟩
  · rw [getElem?_concat_length, Option.bind_some] at hentry
    exact .inr ⟨rfl, entry, hentry, hrest⟩

end RowAt

theorem UndecodableAt.append {index : ℕ} (h : UndecodableAt lines index)
    (more : List Bytes) : UndecodableAt (lines ++ more) index := by
  obtain ⟨line, hline, hundecodable⟩ := h
  have hindex := (List.getElem?_eq_some_iff.mp hline).1
  exact ⟨line, by rwa [getElem?_append_left hindex], hundecodable⟩

/-! ## What the writes keep -/

section

variable {replaced : List JsString} {durable : Durable}

/-- A line is written behind the others. A row beyond `accepted` needs an accepted row already. -/
theorem DurableInv.extend (h : DurableInv sha256 replaced durable) {closed : Bool}
    (hread : ∀ entry, readRow line = some entry → attributedRow sha256 line = some entry)
    (hanchor : ∀ entry, attributedRow sha256 line = some entry → entry.state ≠ .accepted →
      entry.identity ∉ replaced →
        ∃ index, RowAt sha256 durable.file.lines entry.identity (· = .accepted) index)
    (heffects : ∀ identity ∈ effects, identity ∈ durable.effects ∨
      ∃ entry, attributedRow sha256 line = some entry ∧ entry.identity = identity ∧
        entry.state ≠ .accepted) :
    DurableInv sha256 replaced ⟨⟨durable.file.lines ++ [line], closed⟩, effects⟩ where
  attributed := by
    rw [forall_mem_append, forall_mem_singleton]
    exact ⟨h.attributed, hread⟩
  anchored identity hidentity index hrow := by
    rcases hrow.of_concat with hrow | ⟨rfl, entry, hentry, rfl, hstate⟩
    · obtain ⟨earlier, hearlier, hanchored⟩ := h.anchored identity hidentity index hrow
      exact ⟨earlier, hearlier, hanchored.append [line]⟩
    · obtain ⟨earlier, hanchored⟩ := hanchor entry hentry hstate hidentity
      exact ⟨earlier, hanchored.lt_length, hanchored.append [line]⟩
  evidence identity hidentity := by
    rcases heffects identity hidentity with hold | ⟨entry, hentry, rfl, hstate⟩
    · rcases h.evidence identity hold with ⟨index, hrow⟩ | ⟨hreplaced, earlier, later, hlt, hrow, hlost⟩
      · exact .inl ⟨index, hrow.append [line]⟩
      · exact .inr ⟨hreplaced, earlier, later, hlt, hrow.append [line], hlost.append [line]⟩
    · exact .inl ⟨durable.file.lines.length, RowAt.last hentry hstate⟩

theorem exists_of_mem_effectIdentities {rows : List LifecycleLedgerEntry}
    (h : identity ∈ effectIdentities rows) : ∃ row ∈ rows, row.identity = identity ∧ row.state ≠ .accepted := by
  simp only [effectIdentities, mem_map, mem_filter, decide_eq_true_eq] at h
  obtain ⟨row, ⟨hmem, hstate⟩, rfl⟩ := h
  exact ⟨row, hmem, rfl, hstate⟩

section

variable {entry : LifecycleLedgerEntry} (h : DurableInv sha256 replaced durable)
  (hreadable : IsReadable sha256 entry)
  (hanchor : entry.state ≠ .accepted → entry.identity ∉ replaced →
    ∃ index, RowAt sha256 durable.file.lines entry.identity (· = .accepted) index)

include h hreadable hanchor

theorem DurableInv.extend_row {closed : Bool}
    (heffects : ∀ identity ∈ effects, identity ∈ durable.effects ∨
      entry.identity = identity ∧ entry.state ≠ .accepted) :
    DurableInv sha256 replaced ⟨⟨durable.file.lines ++ [entry.rowBytes], closed⟩, effects⟩ := by
  have hrow := hreadable.attributedRow
  apply h.extend
  · intro read hread
    rw [hrow, eq_clean_of_readRow hread]
  · intro read hread
    rw [hrow, Option.some.injEq] at hread
    rw [← hread]
    exact hanchor
  · intro identity hident
    exact (heffects identity hident).imp_right fun hentry ↦ ⟨entry.clean, hrow, hentry⟩

theorem DurableInv.apply_append (hclosed : durable.file.terminated) :
    DurableInv sha256 replaced (durable.apply (.append entry)) := by
  rw [Durable.apply, LedgerFile.close_write hclosed entry.rowBytes_ne_nil]
  apply h.extend_row hreadable hanchor
  intro identity hident
  rcases mem_append.mp hident with hnew | hold
  · obtain ⟨row, hrow, heq, hstate⟩ := exists_of_mem_effectIdentities hnew
    obtain rfl := mem_singleton.mp hrow
    exact .inr ⟨heq, hstate⟩
  · exact .inl hold

/-- A torn row does not parse, and a row that only lacks its newline reads as the row. -/
theorem DurableInv.crash_append (hclosed : durable.file.terminated) (kept : ℕ) :
    DurableInv sha256 replaced (durable.crash kept (.append entry)) := by
  rw [Durable.crash]
  split_ifs with hkept
  · exact h.apply_append hreadable hanchor hclosed
  · by_cases hnil : entry.rowBytes.take kept = []
    · rw [hnil]
      exact h
    · rw [LedgerFile.write_lines hclosed hnil]
      by_cases hwhole : entry.rowBytes.take kept = entry.rowBytes
      · rw [hwhole]
        exact h.extend_row hreadable hanchor fun _ ↦ Or.inl
      · have hlost : IsUndecodable _ := ⟨hnil, entry.parseLifecycleJson_torn (List.take_prefix _ _) hwhole⟩
        apply h.extend
        · simp [readRow_of_undecodable hlost]
        · simp [attributedRow_of_undecodable hlost]
        · exact fun _ ↦ Or.inl

end

theorem DurableInv.apply_seal (h : DurableInv sha256 replaced durable)
    (hopen : durable.file.terminated = false) : DurableInv sha256 replaced (durable.apply .seal) := by
  rw [Durable.apply, LedgerFile.close_lines hopen]
  refine ⟨h.attributed, h.anchored, fun identity hident ↦ ?_⟩
  rcases mem_append.mp hident with hnew | hold
  · -- the last line was a whole row, and its sync makes it count
    obtain ⟨row, hrow, rfl, hstate⟩ := exists_of_mem_effectIdentities hnew
    obtain ⟨line, hline, hread⟩ := Option.bind_eq_some_iff.mp (Option.mem_toList.mp hrow)
    have hattributed := h.attributed line (mem_of_getLast? hline) row hread
    refine .inl ⟨durable.file.lines.length - 1, row, ?_, rfl, hstate⟩
    rw [← getLast?_eq_getElem?, hline, Option.bind_some, hattributed]
  · exact h.evidence identity hold

end

/-! ## A row is replaced -/

section

variable {replaced : List JsString} {durable : Durable} {index : ℕ} {old line : Bytes}
  {entry : LifecycleLedgerEntry}

theorem RowAt.set (h : RowAt sha256 lines identity property place) (hne : place ≠ index) :
    RowAt sha256 (lines.set index line) identity property place := by
  obtain ⟨read, hread, hrest⟩ := h
  exact ⟨read, by rwa [getElem?_set_ne hne.symm], hrest⟩

theorem RowAt.of_set (hline : IsUndecodable line)
    (h : RowAt sha256 (lines.set index line) identity property place) :
    RowAt sha256 lines identity property place := by
  have hplace := h.lt_length
  obtain ⟨read, hread, hrest⟩ := h
  have hne : place ≠ index := by
    rintro rfl
    rw [length_set] at hplace
    rw [getElem?_set_self hplace, Option.bind_some, attributedRow_of_undecodable hline] at hread
    exact absurd hread (by simp)
  rw [getElem?_set_ne hne.symm] at hread
  exact ⟨read, hread, hrest⟩

variable (h : DurableInv sha256 replaced durable) (hold : durable.file.lines[index]? = some old)
  (hread : readRow old = some entry) (hfresh : entry.identity ∉ replaced) (hline : IsUndecodable line)

include h hold hread

/-- A place with the row of another identity is not the place of the row. -/
theorem RowAt.ne_of_identity_ne
    (hrow : RowAt sha256 durable.file.lines identity property place) (hne : identity ≠ entry.identity) :
    place ≠ index := by
  rintro rfl
  obtain ⟨read, hplace, rfl, -⟩ := hrow
  rw [hold, Option.bind_some, h.attributed old (mem_of_getElem? hold) entry hread,
    Option.some.injEq] at hplace
  exact hne (congrArg LifecycleLedgerEntry.identity hplace.symm)

include hfresh hline

theorem DurableInv.damage : DurableInv sha256 (entry.identity :: replaced)
      ⟨{ durable.file with lines := durable.file.lines.set index line }, durable.effects⟩ where
  attributed other hother read hother' := by
    rcases mem_or_eq_of_mem_set hother with hmem | rfl
    · exact h.attributed other hmem read hother'
    · rw [readRow_of_undecodable hline] at hother'
      cases hother'
  anchored identity hidentity place hrow := by
    rw [mem_cons, not_or] at hidentity
    have hrow := hrow.of_set hline
    obtain ⟨earlier, hlt, hanchor⟩ := h.anchored identity hidentity.2 place hrow
    exact ⟨earlier, hlt, hanchor.set (hanchor.ne_of_identity_ne h hold hread hidentity.1)⟩
  evidence identity hidentity := by
    have hlost : UndecodableAt (durable.file.lines.set index line) index := by
      have hlength := (List.getElem?_eq_some_iff.mp hold).1
      exact ⟨line, by rw [getElem?_set_self hlength]; rfl, hline⟩
    by_cases hsame : identity = entry.identity
    · subst hsame
      rcases h.evidence _ hidentity with ⟨place, hrow⟩ | ⟨hreplaced, -⟩
      · by_cases hplace : place = index
        · -- the row beyond `accepted` is the one that is lost: the accepted row in front of it stays
          subst hplace
          obtain ⟨earlier, hlt, hanchor⟩ := h.anchored _ hfresh place hrow
          exact .inr ⟨mem_cons_self, earlier, place, hlt, hanchor.set hlt.ne, hlost⟩
        · exact .inl ⟨place, hrow.set hplace⟩
      · exact absurd hreplaced hfresh
    · rcases h.evidence _ hidentity with ⟨place, hrow⟩ | ⟨hreplaced, earlier, later, hlt, hrow, hline'⟩
      · exact .inl ⟨place, hrow.set (hrow.ne_of_identity_ne h hold hread hsame)⟩
      · refine .inr ⟨mem_cons_of_mem _ hreplaced, earlier, later, hlt,
          hrow.set (hrow.ne_of_identity_ne h hold hread hsame), ?_⟩
        by_cases hlater : later = index
        · rw [hlater]
          exact hlost
        · obtain ⟨other, hother, hundecodable⟩ := hline'
          exact ⟨other, by rwa [getElem?_set_ne (Ne.symm hlater)], hundecodable⟩

end

end

end GajaeCode.Lifecycle
