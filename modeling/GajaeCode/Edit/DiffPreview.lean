import GajaeCode.Text.Decimal
import GajaeCode.Text.Lines

/-!
# Numbered diffs and their previews

A line diff is written as numbered rows: added rows carry the new line number, removed and context rows
the old one, and long stretches of context are elided. The preview reads the rows back and moves the
context rows to the new file, by the number of rows added and removed so far.

The native line diff gives runs of whole lines, each line with its newline.
-/

namespace GajaeCode.Edit

open Text List

variable {lines tokens : List JsString} {line : JsString} {row : DiffRow}

inductive PartKind
  | kept
  | added
  | removed
  deriving DecidableEq

structure DiffPart where
  kind : PartKind
  value : JsString

/-- The lines of a part, without the empty piece behind a final newline. -/
def partLines (value : JsString) : List JsString :=
  if (splitLines value).getLast? = some [] then (splitLines value).dropLast else splitLines value

structure DiffRow where
  kind : PartKind
  lineNum : ℕ
  content : JsString
  elided : Bool

def barUnit : UInt16 := 0x7C

def PartKind.sign : PartKind → UInt16
  | .kept => 0x20
  | .added => 0x2B
  | .removed => 0x2D

/-- `formatNumberedDiffLine`. -/
def DiffRow.text (row : DiffRow) : JsString :=
  row.kind.sign :: (natText row.lineNum ++ barUnit :: row.content)

/-- Rows of consecutive lines. -/
def numberedRows (kind : PartKind) : ℕ → List JsString → List DiffRow
  | _, [] => []
  | start, line :: rest => ⟨kind, start, line, false⟩ :: numberedRows kind (start + 1) rest

def elisionRow (lineNum : ℕ) : DiffRow := ⟨.kept, lineNum, utf16 "...", true⟩

/-- The context rows of a kept part, by whether changes stand before and after it. -/
def contextRows (contextLimit : ℕ) (lastWasChange nextPartIsChange : Bool) (oldLineNum : ℕ)
    (raw : List JsString) : List DiffRow :=
  let skip := raw.length - contextLimit
  if lastWasChange && nextPartIsChange then
    if contextLimit * 2 < raw.length then
      numberedRows .kept oldLineNum (raw.take contextLimit) ++ elisionRow (oldLineNum + contextLimit) ::
        numberedRows .kept (oldLineNum + skip) (raw.drop skip)
    else numberedRows .kept oldLineNum raw
  else if nextPartIsChange then
    (if 0 < skip then [elisionRow oldLineNum] else []) ++
      numberedRows .kept (oldLineNum + skip) (raw.drop skip)
  else if lastWasChange then
    numberedRows .kept oldLineNum (raw.take contextLimit) ++
      if 0 < skip then [elisionRow (oldLineNum + contextLimit)] else []
  else []

def startsWithChange : List DiffPart → Bool
  | [] => false
  | part :: _ => part.kind ≠ .kept

def diffRows (contextLimit : ℕ) : Bool → ℕ → ℕ → List DiffPart → List DiffRow
  | _, _, _, [] => []
  | lastWasChange, oldLineNum, newLineNum, part :: rest =>
    let raw := partLines part.value
    match part.kind with
    | .added =>
      numberedRows .added newLineNum raw ++
        diffRows contextLimit true oldLineNum (newLineNum + raw.length) rest
    | .removed =>
      numberedRows .removed oldLineNum raw ++
        diffRows contextLimit true (oldLineNum + raw.length) newLineNum rest
    | .kept =>
      contextRows contextLimit lastWasChange (startsWithChange rest) oldLineNum raw ++
        diffRows contextLimit false (oldLineNum + raw.length) (newLineNum + raw.length) rest

/-- The new line number at the first part that is a change. -/
def firstChangedLine : ℕ → List DiffPart → Option ℕ
  | _, [] => none
  | newLineNum, part :: rest =>
    if part.kind = .kept then firstChangedLine (newLineNum + (partLines part.value).length) rest
    else some newLineNum

/-- `generateDiffString` on the parts that the native line diff returned. -/
def generateDiffString (contextLimit : ℕ) (parts : List DiffPart) : JsString × Option ℕ :=
  (joinLines ((diffRows contextLimit false 1 1 parts).map DiffRow.text), firstChangedLine 1 parts)

/-! ## The preview -/

def readSign (unit : UInt16) : Option PartKind :=
  if unit = PartKind.added.sign then some .added
  else if unit = PartKind.removed.sign then some .removed
  else if unit = PartKind.kept.sign then some .kept else none

/-- The kind, number and content of a row; nothing for a line that is left as it is. -/
def readRow : JsString → Option (PartKind × ℕ × JsString)
  | [] => none
  | unit :: body =>
    match readSign unit, body.dropWhile (· ≠ barUnit) with
    | some kind, _ :: content => some (kind, readNat (body.takeWhile (· ≠ barUnit)), content)
    | _, _ => none

section

variable (computeLineHash : ℕ → JsString → JsString)

def anchorText (kind : PartKind) (lineNum : ℕ) (content : JsString) : JsString :=
  kind.sign :: (natText lineNum ++
    (if kind = .removed then utf16 "--" else computeLineHash lineNum content) ++ barUnit :: content)

structure CompactHashlineDiffPreview where
  preview : JsString
  addedLines : ℕ
  removedLines : ℕ

/-- The rows of the preview, with the counts of rows that were added and removed. -/
def previewLines : ℕ → ℕ → List JsString → List JsString × ℕ × ℕ
  | added, removed, [] => ([], added, removed)
  | added, removed, line :: rest =>
    match readRow line with
    | none => ((previewLines added removed rest).map (line :: ·) id)
    | some (.added, lineNum, content) =>
      (previewLines (added + 1) removed rest).map (anchorText computeLineHash .added lineNum content :: ·) id
    | some (.removed, lineNum, content) =>
      (previewLines added (removed + 1) rest).map (anchorText computeLineHash .removed lineNum content :: ·) id
    | some (.kept, lineNum, content) =>
      (previewLines added removed rest).map
        (anchorText computeLineHash .kept (lineNum + added - removed) content :: ·) id

def buildCompactHashlineDiffPreview (diff : JsString) : CompactHashlineDiffPreview :=
  let rows := previewLines computeLineHash 0 0 (if diff = [] then [] else splitLines diff)
  ⟨joinLines rows.1, rows.2.1, rows.2.2⟩

end

/-! ## Line diffs -/

/-- Every line with its newline; what follows the last newline is a line if it is not empty. -/
def lineTokens (text : JsString) : List JsString :=
  (splitLines text).dropLast.map (· ++ [newlineUnit]) ++
    match (splitLines text).getLast? with
    | some (unit :: line) => [unit :: line]
    | _ => []

/-- What the native line diff returns: runs of lines that make up the old and the new text. -/
structure LineDiff (oldText newText : JsString) where
  runs : List (PartKind × List JsString)
  oldLines : (runs.filter fun run ↦ run.1 ≠ .added).flatMap Prod.snd = lineTokens oldText
  newLines : (runs.filter fun run ↦ run.1 ≠ .removed).flatMap Prod.snd = lineTokens newText

instance (oldText newText : JsString) : Inhabited (LineDiff oldText newText) :=
  ⟨[(.removed, lineTokens oldText), (.added, lineTokens newText)], by simp, by simp⟩

def LineDiff.parts {oldText newText : JsString} (diff : LineDiff oldText newText) : List DiffPart :=
  diff.runs.map fun run ↦ ⟨run.1, run.2.flatten⟩

def withoutNewline (token : JsString) : JsString :=
  if token.getLast? = some newlineUnit then token.dropLast else token

/-- Lines with their newlines; only the last one may lack it. -/
def IsTokens : List JsString → Prop
  | [] => True
  | token :: rest =>
    (∃ line, newlineUnit ∉ line ∧
      (token = line ++ [newlineUnit] ∨ rest = [] ∧ line ≠ [] ∧ token = line)) ∧ IsTokens rest

theorem withoutNewline_concat (line : JsString) : withoutNewline (line ++ [newlineUnit]) = line := by
  simp [withoutNewline]

theorem withoutNewline_of_notMem (h : newlineUnit ∉ line) : withoutNewline line = line :=
  if_neg fun hlast ↦ h (mem_of_getLast? hlast)

theorem partLines_append_newline (h : newlineUnit ∉ line) (rest : JsString) :
    partLines (line ++ newlineUnit :: rest) = line :: partLines rest := by
  have hcut : splitLines (line ++ newlineUnit :: rest) = splitLines line ++ splitLines rest :=
    splitOn_append_cons_self line rest
  obtain ⟨first, others, hrest⟩ := exists_cons_of_ne_nil (splitLines_ne_nil rest)
  rw [partLines, partLines, hcut, splitLines_eq_singleton h, hrest, singleton_append, getLast?_cons_cons]
  split_ifs <;> rfl

/-- The lines of a run of tokens. -/
theorem partLines_flatten {more : List JsString} (h : IsTokens (tokens ++ more)) :
    partLines tokens.flatten = tokens.map withoutNewline ∧ IsTokens more := by
  induction tokens with
  | nil => exact ⟨by decide, h⟩
  | cons token rest ih =>
    obtain ⟨⟨line, hline, rfl | ⟨hlast, hne, rfl⟩⟩, hrest⟩ := h
    · rw [flatten_cons, append_assoc, singleton_append, partLines_append_newline hline,
        (ih hrest).1, map_cons, withoutNewline_concat]
      exact ⟨rfl, (ih hrest).2⟩
    · obtain ⟨rfl, rfl⟩ := append_eq_nil_iff.mp hlast
      refine ⟨?_, trivial⟩
      rw [flatten_cons, flatten_nil, append_nil, partLines, splitLines_eq_singleton hline,
        map_singleton, withoutNewline_of_notMem hline]
      exact if_neg fun heq ↦ hne (Option.some.inj heq)

theorem isTokens_append {tail : List JsString} (hlines : ∀ line ∈ lines, newlineUnit ∉ line)
    (htail : IsTokens tail) : IsTokens (lines.map (· ++ [newlineUnit]) ++ tail) := by
  induction lines with
  | nil => exact htail
  | cons line rest ih =>
    rw [forall_mem_cons] at hlines
    exact ⟨⟨line, hlines.1, Or.inl rfl⟩, ih hlines.2⟩

/-- The tokens from a line on, as the text goes on there. -/
structure Stands (text : JsString) (lineNum : ℕ) (tokens : List JsString) : Prop where
  pos : 1 ≤ lineNum
  isTokens : IsTokens tokens
  lines : tokens.map withoutNewline <+: (splitLines text).drop (lineNum - 1)

theorem stands_lineTokens (text : JsString) : Stands text 1 (lineTokens text) := by
  obtain ⟨lines, last, htext⟩ := eq_nil_or_concat (splitLines text) |>.resolve_left (splitLines_ne_nil text)
  rw [concat_eq_append] at htext
  have hnl : ∀ line ∈ lines ++ [last], newlineUnit ∉ line := fun line hline ↦
    newlineUnit_notMem_of_mem_splitLines (htext ▸ hline)
  rw [forall_mem_append, forall_mem_singleton] at hnl
  have hstrip : (lines.map (· ++ [newlineUnit])).map withoutNewline = lines := by
    rw [map_map]
    exact map_id'' (fun line ↦ withoutNewline_concat line) lines
  have htokens : lineTokens text = lines.map (· ++ [newlineUnit]) ++ if last = [] then [] else [last] := by
    rw [lineTokens, htext, dropLast_concat, getLast?_concat]
    cases last <;> rfl
  refine ⟨le_rfl, ?_, ?_⟩
  · rw [htokens]
    apply isTokens_append hnl.1
    split_ifs with hempty
    · trivial
    · exact ⟨⟨last, hnl.2, .inr ⟨rfl, hempty, rfl⟩⟩, trivial⟩
  · rw [htokens, map_append, hstrip, htext]
    split_ifs
    · simp
    · simp [withoutNewline_of_notMem hnl.2]

/-- Reading a run moves on by its lines, which are lines of the text. -/
theorem Stands.next {text : JsString} {lineNum : ℕ} {more : List JsString}
    (h : Stands text lineNum (tokens ++ more)) :
    Stands text (lineNum + (partLines tokens.flatten).length) more ∧
      ∀ index line, (partLines tokens.flatten)[index]? = some line →
        (splitLines text)[lineNum + index - 1]? = some line := by
  obtain ⟨hlines, hmore⟩ := partLines_flatten h.isTokens
  have hpos := h.pos
  obtain ⟨rest, hrest⟩ := h.lines
  rw [map_append, ← hlines, append_assoc] at hrest
  refine ⟨⟨by omega, hmore, rest, ?_⟩, fun index line hline ↦ ?_⟩
  · have hdrop : lineNum + (partLines tokens.flatten).length - 1 =
        lineNum - 1 + (partLines tokens.flatten).length := by omega
    rw [hdrop, ← drop_drop, ← hrest, drop_left]
  · have hidx : lineNum + index - 1 = lineNum - 1 + index := by omega
    obtain ⟨hlt, -⟩ := List.getElem?_eq_some_iff.mp hline
    rw [hidx, ← getElem?_drop, ← hrest, getElem?_append_left hlt, hline]

/-! ## Rows read back -/

theorem readRow_text (row : DiffRow) : readRow row.text = some (row.kind, row.lineNum, row.content) := by
  have hdigits : ∀ unit ∈ natText row.lineNum, decide (unit ≠ barUnit) := by
    intro unit hunit
    have hdigit := isDigit_of_mem_natText hunit
    rw [decide_eq_true_eq]
    rintro rfl
    cases hdigit
  have hsign : readSign row.kind.sign = some row.kind := by
    cases row.kind <;> rfl
  rw [DiffRow.text, readRow, hsign, dropWhile_append_of_pos hdigits, takeWhile_append_of_pos hdigits,
    dropWhile_cons_of_neg (by simp), takeWhile_cons_of_neg (by simp), append_nil, readNat_natText]

/-- The rows of the preview: context rows are moved to the new file. -/
def previewRows : ℕ → ℕ → List DiffRow → List DiffRow
  | _, _, [] => []
  | added, removed, row :: rest =>
    match row.kind with
    | .added => row :: previewRows (added + 1) removed rest
    | .removed => row :: previewRows added (removed + 1) rest
    | .kept => { row with lineNum := row.lineNum + added - removed } :: previewRows added removed rest

def DiffRow.anchor (computeLineHash : ℕ → JsString → JsString) (row : DiffRow) : JsString :=
  anchorText computeLineHash row.kind row.lineNum row.content

theorem previewLines_map_text (computeLineHash : ℕ → JsString → JsString) (rows : List DiffRow)
    (added removed : ℕ) :
    (previewLines computeLineHash added removed (rows.map DiffRow.text)).1 =
      (previewRows added removed rows).map (DiffRow.anchor computeLineHash) := by
  induction rows generalizing added removed with
  | nil => rfl
  | cons row rest ih =>
    obtain ⟨kind, lineNum, content, elided⟩ := row
    rw [map_cons, previewLines, readRow_text, previewRows]
    cases kind
    all_goals
      rw [map_cons, ← ih]
      rfl

theorem previewRows_numberedRows (start added removed : ℕ) (lines : List JsString)
    (back : List DiffRow) :
    previewRows added removed (numberedRows .added start lines ++ back) =
        numberedRows .added start lines ++ previewRows (added + lines.length) removed back ∧
      previewRows added removed (numberedRows .removed start lines ++ back) =
        numberedRows .removed start lines ++ previewRows added (removed + lines.length) back := by
  induction lines generalizing start added removed with
  | nil => exact ⟨rfl, rfl⟩
  | cons line rest ih =>
    simp [numberedRows, previewRows, ih, Nat.add_comm rest.length, ← Nat.add_assoc]

theorem previewRows_kept {front : List DiffRow} (h : ∀ row ∈ front, row.kind = .kept) (added removed : ℕ)
    (back : List DiffRow) :
    previewRows added removed (front ++ back) =
      front.map (fun row ↦ { row with lineNum := row.lineNum + added - removed }) ++
        previewRows added removed back := by
  induction front with
  | nil => rfl
  | cons row rest ih =>
    rw [forall_mem_cons] at h
    rw [cons_append, previewRows, h.1, map_cons, ih h.2]
    simp [h.1]

theorem of_mem_numberedRows {kind : PartKind} {start : ℕ}
    (h : row ∈ numberedRows kind start lines) :
    row.kind = kind ∧ row.elided = false ∧
      ∃ index, lines[index]? = some row.content ∧ row.lineNum = start + index := by
  induction lines generalizing start with
  | nil => exact absurd h not_mem_nil
  | cons line rest ih =>
    rcases mem_cons.mp h with rfl | hrest
    · exact ⟨rfl, rfl, 0, rfl, rfl⟩
    · obtain ⟨hkind, helided, index, hline, hnum⟩ := ih hrest
      exact ⟨hkind, helided, index + 1, hline, by omega⟩

/-- A context row is an elision, or a line of the part under its old number. -/
def IsContext (oldLineNum : ℕ) (raw : List JsString) (row : DiffRow) : Prop :=
  row.kind = .kept ∧ (row.elided = true ∧ row.content = utf16 "..." ∨
    row.elided = false ∧ ∃ index, raw[index]? = some row.content ∧ row.lineNum = oldLineNum + index)

section

variable {contextLimit oldLineNum : ℕ} {lastWasChange nextPartIsChange : Bool} {raw : List JsString} {row : DiffRow}

theorem isContext_of_mem_numberedRows (skip : ℕ) (hlines : lines <+: raw.drop skip)
    (h : row ∈ numberedRows .kept (oldLineNum + skip) lines) : IsContext oldLineNum raw row := by
  obtain ⟨hkind, helided, idx, hline, hnum⟩ := of_mem_numberedRows h
  obtain ⟨rest, hrest⟩ := hlines
  obtain ⟨hlt, -⟩ := List.getElem?_eq_some_iff.mp hline
  rw [← getElem?_append_left hlt, hrest, getElem?_drop] at hline
  exact ⟨hkind, .inr ⟨helided, skip + idx, hline, by omega⟩⟩

theorem isContext_of_mem_contextRows
    (h : row ∈ contextRows contextLimit lastWasChange nextPartIsChange oldLineNum raw) :
    IsContext oldLineNum raw row := by
  have helision : ∀ lineNum, row = elisionRow lineNum → IsContext oldLineNum raw row := by
    rintro _ rfl
    exact ⟨rfl, .inl ⟨rfl, rfl⟩⟩
  rw [contextRows] at h
  split_ifs at h with hboth hlong hnext hskip hlast hskip
  · rcases mem_append.mp h with hfront | hback
    · exact isContext_of_mem_numberedRows 0 ( take_prefix ..) hfront
    · exact (mem_cons.mp hback).elim (helision _) (isContext_of_mem_numberedRows _ prefix_rfl)
  · exact isContext_of_mem_numberedRows 0 prefix_rfl h
  · exact (mem_cons.mp h).elim (helision _) (isContext_of_mem_numberedRows _ prefix_rfl)
  · exact isContext_of_mem_numberedRows _ prefix_rfl h
  · rcases mem_append.mp h with hfront | hlast
    · exact isContext_of_mem_numberedRows 0 ( take_prefix ..) hfront
    · exact helision _ (mem_singleton.mp hlast)
  · exact isContext_of_mem_numberedRows 0 ( take_prefix ..) (append_nil _ ▸ h)
  · exact absurd h not_mem_nil

end

/-! ## Live anchors -/

section

variable {oldText newText : JsString}

/-- An added or context row names a line of the new text, a removed row one of the old text; an elision
is a context row of its own. -/
def NamesLine (oldText newText : JsString) (row : DiffRow) : Prop :=
  if row.elided then row.kind = .kept ∧ row.content = utf16 "..."
  else (splitLines (if row.kind = .removed then oldText else newText))[row.lineNum - 1]? = some row.content

theorem namesLine_of_mem_numberedRows {kind : PartKind} {start : ℕ}
    (hlines : ∀ idx line, lines[idx]? = some line →
      (splitLines (if kind = .removed then oldText else newText))[start + idx - 1]? = some line)
    (h : row ∈ numberedRows kind start lines) : NamesLine oldText newText row := by
  obtain ⟨hkind, helided, idx, hline, hnum⟩ := of_mem_numberedRows h
  rw [NamesLine, if_neg (by simp [helided]), hkind, hnum]
  exact hlines idx _ hline

/-- The offset between the files is the number of rows added less the number removed. -/
theorem namesLine_of_mem_previewRows {contextLimit : ℕ} {runs : List (PartKind × List JsString)}
    {lastWasChange : Bool} {oldLineNum newLineNum added removed : ℕ}
    (hold : Stands oldText oldLineNum ((runs.filter fun run ↦ run.1 ≠ .added).flatMap Prod.snd))
    (hnew : Stands newText newLineNum ((runs.filter fun run ↦ run.1 ≠ .removed).flatMap Prod.snd))
    (hoffset : newLineNum + removed = oldLineNum + added) :
    ∀ row ∈ previewRows added removed (diffRows contextLimit lastWasChange oldLineNum newLineNum
        (runs.map fun run ↦ ⟨run.1, run.2.flatten⟩)), NamesLine oldText newText row := by
  induction runs generalizing lastWasChange oldLineNum newLineNum added removed with
  | nil => exact forall_mem_nil _
  | cons run rest ih =>
    obtain ⟨kind, tokens⟩ := run
    intro row hrow
    rw [map_cons, diffRows] at hrow
    cases kind with
    | added =>
      obtain ⟨hnext, hlines⟩ := hnew.next
      dsimp only at hrow hnext
      rw [(previewRows_numberedRows ..).1] at hrow
      rcases mem_append.mp hrow with hfront | hback
      · exact namesLine_of_mem_numberedRows hlines hfront
      · exact ih hold hnext (by omega) row hback
    | removed =>
      obtain ⟨hnext, hlines⟩ := hold.next
      dsimp only at hrow hnext
      rw [(previewRows_numberedRows ..).2] at hrow
      rcases mem_append.mp hrow with hfront | hback
      · exact namesLine_of_mem_numberedRows hlines hfront
      · exact ih hnext hnew (by omega) row hback
    | kept =>
      obtain ⟨holdNext, -⟩ := hold.next
      obtain ⟨hnewNext, hlines⟩ := hnew.next
      rw [previewRows_kept fun other hother ↦ (isContext_of_mem_contextRows hother).1] at hrow
      rcases mem_append.mp hrow with hfront | hback
      · obtain ⟨source, hsource, rfl⟩ := mem_map.mp hfront
        obtain ⟨hkind, ⟨helided, hcontent⟩ | ⟨helided, index, hline, hnum⟩⟩ :=
          isContext_of_mem_contextRows hsource
        · rw [NamesLine, if_pos helided]
          exact ⟨hkind, hcontent⟩
        · have hmoved : source.lineNum + added - removed = newLineNum + index := by omega
          rw [NamesLine, if_neg (by simp [helided]), hkind, hmoved]
          exact hlines index _ hline
      · exact ih holdNext hnewNext (by omega) row hback

theorem newlineUnit_notMem_text (h : newlineUnit ∉ row.content) : newlineUnit ∉ row.text := by
  rw [DiffRow.text, mem_cons, mem_append, mem_cons, not_or, not_or, not_or]
  refine ⟨?_, fun hmem ↦ ?_, by decide, h⟩
  · cases row.kind <;> decide
  · cases isDigit_of_mem_natText hmem

theorem newlineUnit_notMem_of_mem_partLines {value : JsString} (h : line ∈ partLines value) :
    newlineUnit ∉ line := by
  rw [partLines] at h
  split_ifs at h
  · exact newlineUnit_notMem_of_mem_splitLines (mem_of_mem_dropLast h)
  · exact newlineUnit_notMem_of_mem_splitLines h

theorem newlineUnit_notMem_content {contextLimit oldLineNum newLineNum : ℕ} {lastWasChange : Bool}
    (parts : List DiffPart) :
    ∀ row ∈ diffRows contextLimit lastWasChange oldLineNum newLineNum parts, newlineUnit ∉ row.content := by
  have hnumbered : ∀ kind start value, ∀ row ∈ numberedRows kind start (partLines value),
      newlineUnit ∉ row.content := by
    intro kind start value row hrow
    obtain ⟨-, -, idx, hline, -⟩ := of_mem_numberedRows hrow
    exact newlineUnit_notMem_of_mem_partLines (mem_of_getElem? hline)
  induction parts generalizing lastWasChange oldLineNum newLineNum with
  | nil => exact forall_mem_nil _
  | cons part rest ih =>
    obtain ⟨kind, value⟩ := part
    cases kind with
    | added | removed => exact forall_mem_append.mpr ⟨hnumbered _ _ _, ih⟩
    | kept =>
      refine forall_mem_append.mpr ⟨fun row hrow ↦ ?_, ih⟩
      obtain ⟨-, ⟨-, hcontent⟩ | ⟨-, idx, hline, -⟩⟩ := isContext_of_mem_contextRows hrow
      · rw [hcontent]
        decide
      · exact newlineUnit_notMem_of_mem_partLines (mem_of_getElem? hline)

end

/-- The preview consists of rows that name lines of the new text, deletions that name lines of the
old text, and elisions. -/
theorem preview_rows_name_lines (computeLineHash : ℕ → JsString → JsString) (contextLimit : ℕ)
    {oldText newText : JsString} (diff : LineDiff oldText newText) :
    (buildCompactHashlineDiffPreview computeLineHash (generateDiffString contextLimit diff.parts).1).preview =
        joinLines ((previewRows 0 0 (diffRows contextLimit false 1 1 diff.parts)).map
          (DiffRow.anchor computeLineHash)) ∧
      ∀ row ∈ previewRows 0 0 (diffRows contextLimit false 1 1 diff.parts), NamesLine oldText newText row := by
  constructor
  · have hlines : ∀ line ∈ (diffRows contextLimit false 1 1 diff.parts).map DiffRow.text, newlineUnit ∉ line := by
      rw [forall_mem_map]
      exact fun row hrow ↦ newlineUnit_notMem_text (newlineUnit_notMem_content diff.parts row hrow)
    rw [buildCompactHashlineDiffPreview, generateDiffString, ← previewLines_map_text]
    generalize diffRows contextLimit false 1 1 diff.parts = rows at *
    by_cases hempty : rows = []
    · rw [hempty]
      rfl
    · have hsplit : splitLines (joinLines (rows.map DiffRow.text)) = rows.map DiffRow.text := by
        rw [splitLines_joinLines (by simpa using hempty), flatMap_splitLines hlines]
      have hne : joinLines (rows.map DiffRow.text) ≠ [] := by
        intro hnil
        obtain ⟨row, rest, hrows⟩ := exists_cons_of_ne_nil hempty
        rw [hnil, hrows] at hsplit
        cases hsplit
      rw [if_neg hne, hsplit]
  · apply namesLine_of_mem_previewRows
    · rw [diff.oldLines]
      exact stands_lineTokens oldText
    · rw [diff.newLines]
      exact stands_lineTokens newText
    · rfl

end GajaeCode.Edit
