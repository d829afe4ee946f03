import GajaeCode.Query.EscapedReader
import GajaeCode.Query.PlainReader

/-!
# Paging through a string

Both readers return the page of the string's characters at the offset: the first character at or
behind it, and as many as fit. The exception is a byte order mark in the reader that decodes escapes.
It is dropped, and the counts no longer agree with the index. Paging through a string therefore puts
it together again, with the same pages from both readers, exactly when it has no byte order mark.
-/

namespace GajaeCode.Query

open Text Json Chain Machine List ChunkWriter

variable {value : JsString} {limits : StoreLimits} {rev : StoredBytes} {offset length : ℕ}
  {after : Bytes} {pieces : List JsString}

/-! ## The loop of the escaped reader -/

namespace PageState

/-- The text of the page so far. -/
def text (state : PageState) : JsString := state.parts.flatten ++ state.body

theorem text_append (limits : StoreLimits) (state : PageState) (value : JsString) :
    (state.append limits value).text = state.text ++ value := by
  rw [append, text, text]
  split_ifs
  · simp
  · simp

theorem result_eq {state : PageState} (h : state.responseOffset = some offset)
    (requestedOffset : ℕ) (complete : Bool) :
    state.result requestedOffset complete = ⟨state.text, complete, offset⟩ := by
  rw [result, h, text]
  split_ifs with hparts
  · rw [hparts]
    rfl
  · rfl

end PageState

open PageState

/-- What the loop returns, once it knows where the page starts. -/
def pageAnswer (state : PageState) (offset length : ℕ) (pieces : List JsString) : Option StringPage :=
  let cut := takeUpTo byteLength (length - state.bodyBytes) pieces
  if cut.1 = [] ∧ pieces ≠ [] ∧ state.bodyBytes = 0 then none
  else some ⟨state.text ++ cut.1.flatten, cut.2.isEmpty, offset⟩

/-- The loop on the units that are left. -/
def pageLoop (limits : StoreLimits) (total requested length : ℕ) :
    List JsString → PageState → Except ReadError (Option StringPage)
  | [], state =>
    if state.decodedOffset ≠ total then
      .error (.syntaxError "escaped string index does not match JSON snapshot")
    else .ok (some (state.result requested true))
  | unit :: rest, state =>
    if state.responseOffset = none ∧ state.decodedOffset < requested then
      let decodedOffset := state.decodedOffset + byteLength unit
      pageLoop limits total requested length rest
        { state with
          decodedOffset
          responseOffset := if decodedOffset ≤ requested then none else some decodedOffset }
    else
      let state := { state with responseOffset := some (state.responseOffset.getD state.decodedOffset) }
      if length < state.bodyBytes + byteLength unit then
        .ok (if state.bodyBytes = 0 then none else some (state.result requested false))
      else
        let state := state.append limits unit
        if state.decodedOffset = total then
          if rest ≠ [] then
            .error (.syntaxError "escaped string index does not match JSON snapshot")
          else .ok (some (state.result requested true))
        else if state.bodyBytes = length then .ok (some (state.result requested false))
        else pageLoop limits total requested length rest state

section

variable {bytes : Bytes} {stop total req held fuel : ℕ} {pieces : List JsString} {state : PageState}

/-- The window serves the loop with the units that it stands for. -/
theorem answers_readUnits (hholds : rev.Holds bytes) (hstop : stop ≤ bytes.length)
    (hpieces : Unpaired pieces) (hfuel : pieces.length < fuel) :
    Answers (Window.Stands bytes stop) (readUnits limits rev stop total req length fuel state)
      (closingBytes pieces, held)
      (pageLoop limits total req length (pieces.map decodedUnit) state) := by
  induction pieces generalizing state fuel held with
  | nil =>
    obtain ⟨fuel, rfl⟩ := Nat.exists_eq_succ_of_ne_zero (Nat.ne_of_gt hfuel)
    apply (returns_readUnit_quote limits hholds hstop).bind_answers
    apply (returns_atEnd hstop).bind_answers
    simp only [map_nil, pageLoop, isEmpty_nil, Bool.not_true, Bool.false_or, bne_iff_ne]
    split_ifs
    · exact answers_throw _ _
    · exact answers_pure _ _
  | cons piece rest ih =>
    obtain ⟨fuel, rfl⟩ := Nat.exists_eq_succ_of_ne_zero (Nat.ne_of_gt (Nat.zero_lt_of_lt hfuel))
    apply (returns_readUnit limits hholds hstop hpieces).bind_answers
    rw [map_cons, pageLoop]
    by_cases hskip : state.responseOffset = none ∧ state.decodedOffset < req
    · simp only [if_pos hskip]
      exact ih hpieces.tail (Nat.lt_of_succ_lt_succ hfuel)
    · simp only [if_neg hskip]
      by_cases hfits : length < state.bodyBytes + byteLength (decodedUnit piece)
      · simp only [if_pos hfits]
        exact answers_pure _ _
      · simp only [if_neg hfits]
        split
        · cases rest with
          | nil =>
            apply (returns_readUnit_quote limits hholds hstop).bind_answers
            exact (returns_atEnd hstop).bind_answers (answers_pure _ _)
          | cons =>
            apply (returns_readUnit limits hholds hstop hpieces.tail).bind_answers
            exact (returns_atEnd hstop).bind_answers (answers_throw _ _)
        · split
          · exact answers_pure _ _
          · exact ih hpieces.tail (Nat.lt_of_succ_lt_succ hfuel)

section

variable (hsizes : ∀ piece ∈ pieces, 0 < byteLength piece)
  (htotal : state.decodedOffset + totalSize byteLength pieces = total)

include hsizes htotal

/-- Behind the start of the page, the loop takes what fits. -/
theorem pageLoop_take (hresp : state.responseOffset = some offset)
    (hbudget : state.bodyBytes ≤ length) :
    pageLoop limits total req length pieces state = .ok (pageAnswer state offset length pieces) := by
  induction pieces generalizing state with
  | nil =>
    rw [totalSize_nil, Nat.add_zero] at htotal
    rw [pageLoop, if_neg (not_not.mpr htotal), result_eq hresp]
    simp [pageAnswer, takeUpTo]
  | cons piece rest ih =>
    obtain ⟨hpiece, hsizes⟩ := forall_mem_cons.mp hsizes
    rw [totalSize_cons] at htotal
    have hsame : { state with responseOffset := some (state.responseOffset.getD state.decodedOffset) } =
        state := by
      rw [hresp, Option.getD_some, ← hresp]
    rw [pageLoop, if_neg (by simp [hresp]), hsame]
    by_cases hfits : length < state.bodyBytes + byteLength piece
    · have htake : takeUpTo byteLength (length - state.bodyBytes) (piece :: rest) = ([], piece :: rest) :=
        takeUpTo_of_lt rest (by omega)
      rw [if_pos hfits, result_eq hresp, pageAnswer, htake]
      simp
    · have hgrown : (state.append limits piece).responseOffset = some offset := hresp
      have hcount : (state.append limits piece).decodedOffset = state.decodedOffset + byteLength piece ∧
          (state.append limits piece).bodyBytes = state.bodyBytes + byteLength piece := ⟨rfl, rfl⟩
      have hanswer : pageAnswer state offset length (piece :: rest) =
          pageAnswer (state.append limits piece) offset length rest := by
        have hfit : byteLength piece ≤ length - state.bodyBytes := by omega
        rw [pageAnswer, pageAnswer, takeUpTo, if_pos hfit, hcount.2, text_append, Nat.sub_add_eq]
        simp
        omega
      rw [if_neg hfits, hanswer]
      cases rest with
      | nil =>
        rw [totalSize_nil] at htotal
        rw [if_pos (by omega), if_neg (not_not.mpr rfl), result_eq hgrown]
        simp [pageAnswer, takeUpTo]
      | cons next more =>
        have hnext := hsizes next mem_cons_self
        rw [totalSize_cons] at htotal
        rw [if_neg (by omega)]
        by_cases hfull : (state.append limits piece).bodyBytes = length
        · rw [if_pos hfull, result_eq hgrown, pageAnswer, hfull, Nat.sub_self,
            takeUpTo_of_lt more hnext]
          simp
          omega
        · rw [if_neg hfull]
          exact ih hsizes (by rw [totalSize_cons]; omega) hgrown (by omega)

/-- At the requested offset, the page starts there. -/
theorem pageLoop_start (hresp : state.responseOffset = none) (hreached : state.decodedOffset = req)
    (hbudget : state.bodyBytes ≤ length) :
    pageLoop limits total req length pieces state = .ok (pageAnswer state req length pieces) := by
  have hstart : pageLoop limits total req length pieces state =
      pageLoop limits total req length pieces { state with responseOffset := some req } := by
    cases pieces with
    | nil => simp only [pageLoop, result, hresp, Option.getD_none, Option.getD_some]
    | cons => simp [pageLoop, hresp, hreached]
  rw [hstart]
  exact pageLoop_take hsizes htotal rfl hbudget

/-- In front of the requested offset, the loop skips. -/
theorem pageLoop_eq (hresp : state.responseOffset = none) (hreached : state.decodedOffset ≤ req)
    (hreq : req ≤ total) (hbody : state.bodyBytes = 0) :
    pageLoop limits total req length pieces state =
      .ok (pageAnswer state (skipTo byteLength req state.decodedOffset pieces).1 length
        (skipTo byteLength req state.decodedOffset pieces).2) := by
  induction pieces generalizing state with
  | nil =>
    rw [totalSize_nil] at htotal
    have hsame : state.decodedOffset = req := by omega
    rw [skipTo_of_le hsame.ge, hsame]
    exact pageLoop_start hsizes htotal hresp hsame (by omega)
  | cons piece rest ih =>
    rcases Nat.lt_or_ge state.decodedOffset req with hlt | hge
    · have hrest := (forall_mem_cons.mp hsizes).2
      rw [totalSize_cons, ← Nat.add_assoc] at htotal
      rw [pageLoop, if_pos ⟨hresp, hlt⟩, skipTo, if_pos hlt]
      dsimp only
      split_ifs with hnear
      · exact ih hrest htotal rfl hnear hbody
      · rw [skipTo_of_le (Nat.le_of_not_le hnear)]
        exact pageLoop_take hrest htotal rfl (by dsimp only; omega)
    · have hsame : state.decodedOffset = req := by omega
      rw [skipTo_of_le hge, hsame]
      exact pageLoop_start hsizes htotal hresp hsame (by omega)

end

/-- Where the counts stay behind the index, the end of the string is an error. -/
theorem pageLoop_behind (htotal : state.decodedOffset + totalSize byteLength pieces < total)
    (hbudget : state.bodyBytes + totalSize byteLength pieces < length) :
    pageLoop limits total 0 length pieces state =
      .error (.syntaxError "escaped string index does not match JSON snapshot") := by
  induction pieces generalizing state with
  | nil => exact if_pos (Nat.ne_of_lt htotal)
  | cons piece rest ih =>
    rw [totalSize_cons] at htotal hbudget
    have hgrown (started : PageState) : (started.append limits piece).decodedOffset =
        started.decodedOffset + byteLength piece ∧ (started.append limits piece).bodyBytes =
          started.bodyBytes + byteLength piece := ⟨rfl, rfl⟩
    rw [pageLoop, if_neg (by omega)]
    dsimp only
    rw [if_neg (by omega), if_neg (by rw [(hgrown _).1]; dsimp only; omega),
      if_neg (by rw [(hgrown _).2]; dsimp only; omega)]
    exact ih (by rw [(hgrown _).1]; dsimp only; omega) (by rw [(hgrown _).2]; dsimp only; omega)

end

/-! ## The escaped reader -/

theorem markUnit_mem_iff (value : JsString) : [markUnit] ∈ characters value ↔ markUnit ∈ value := by
  constructor
  · intro h
    rw [← flatten_characters value, mem_flatten]
    exact ⟨_, h, mem_singleton_self _⟩
  · intro h
    rw [← flatten_characters value, mem_flatten] at h
    obtain ⟨piece, hpiece, hunit⟩ := h
    rcases isCharacter_of_mem_characters hpiece with ⟨unit, rfl⟩ | ⟨high, low, rfl, hhigh, hlow⟩
    · rwa [mem_singleton.mp hunit]
    · rcases mem_pair.mp hunit with rfl | rfl
      · cases hhigh
      · cases hlow

theorem length_lt_closingBytes (h : ∀ piece ∈ pieces, IsCharacter piece) :
    pieces.length < (closingBytes pieces).length := by
  induction pieces with
  | nil => exact Nat.zero_lt_one
  | cons piece rest ih =>
    have hrest := ih fun other hother ↦ h other (mem_cons_of_mem _ hother)
    have hpiece : 0 < (characterBytes piece).length := by
      have hform := characterForm_characterBytes (h piece mem_cons_self)
      generalize characterBytes piece = written at hform
      cases hform with
      | unicode | letter | ascii | several => exact Nat.succ_pos _
    rw [closingBytes_cons, length_append, length_cons]
    omega

/-- The answer of a loop that has no text yet. -/
theorem pageAnswer_eq_stringPage {state : PageState} (hbody : state.bodyBytes = 0)
    (htext : state.text = []) :
    pageAnswer state (skipTo byteLength (min offset (byteLength value)) 0 (characters value)).1 length
        (skipTo byteLength (min offset (byteLength value)) 0 (characters value)).2 =
      stringPage value offset length := by
  rw [stringPage, pageAt, pageAnswer, hbody, htext, Nat.sub_zero]
  generalize skipTo byteLength (min offset (byteLength value)) 0 (characters value) = found
  by_cases hnone : (takeUpTo byteLength length found.2).1 = [] ∧ found.2 ≠ []
  · rw [if_pos ⟨hnone.1, hnone.2, rfl⟩, if_pos (by simp [hnone.1, hnone.2])]
    rfl
  · rw [if_neg fun h ↦ hnone ⟨h.1, h.2.1⟩, if_neg (by simpa using hnone)]
    rfl

/-- A byte order mark is decoded as nothing. -/
theorem totalSize_decodedUnit_lt (h : [markUnit] ∈ pieces) :
    totalSize byteLength (pieces.map decodedUnit) < totalSize byteLength pieces := by
  have hle (piece) : byteLength (decodedUnit piece) ≤ byteLength piece := by
    rw [decodedUnit]
    split_ifs
    · exact Nat.zero_le _
    · exact Nat.le_refl _
  have hles (pieces) :
      totalSize byteLength (pieces.map decodedUnit) ≤ totalSize byteLength pieces := by
    induction pieces with
    | nil => exact Nat.le_refl _
    | cons piece rest ih =>
      exact Nat.add_le_add (hle piece) ih
  obtain ⟨front, rest, rfl⟩ := append_of_mem h
  have hmark : byteLength (decodedUnit [markUnit]) < byteLength [markUnit] := by decide
  have hfront := hles front
  have hrest := hles rest
  rw [map_append, map_cons, totalSize_append, totalSize_append, totalSize_cons, totalSize_cons]
  omega

section

variable (hlimits : 4 ≤ limits.chunkBytes) (writer : ChunkWriter)
  (hholds : rev.Holds ((encodeEscapedField limits writer value).1.bytes ++ after))

include hlimits hholds

/-- The loop starts at a checkpoint in front of the offset, and its window stands for the characters
behind the checkpoint. -/
theorem readEscapedStringRange_run (offset length : ℕ) :
    ∃ bytes stop front rest window fuel, rev.Holds bytes ∧ stop ≤ bytes.length ∧
      characters value = front ++ rest ∧ totalSize byteLength front ≤ min offset (byteLength value) ∧
      window.Stands bytes stop (closingBytes rest, 0) ∧ rest.length < fuel ∧
      readEscapedStringRange limits rev (encodeEscapedField limits writer value).2 offset length =
        (readUnits limits rev stop (byteLength value) (min offset (byteLength value)) length fuel
          { decodedOffset := totalSize byteLength front
            responseOffset := none
            bodyBytes := 0
            parts := []
            body := [] }).run' window := by
  generalize hencoded : encodeEscapedField limits writer value = field at hholds ⊢
  obtain ⟨index, hidx, hcovers⟩ := encodeString_covers limits writer value
  have hwritten := encodeString_bytes hlimits writer value true
  have htotal : index.byteLength = byteLength value := by rw [hcovers.byteLength, totalSize_characters]
  obtain ⟨check, hcheck, hfound, hle⟩ :=
    stringCheckpointAtOrBefore_spec hcovers.first (min offset (byteLength value))
  obtain ⟨front, rest, hsplit, hdecoded, hserialized⟩ := hcovers.checkpoints check hcheck
  -- the bytes in front of the checkpoint
  obtain ⟨opening, hopening⟩ : ∃ opening, opening = writer.bytes ++ 0x22 :: front.flatMap characterBytes :=
    ⟨_, rfl⟩
  have hfield : field.1.bytes = opening ++ closingBytes rest := by
    rw [← hencoded, encodeEscapedField, hwritten, hopening, hsplit, closingBytes, flatMap_append]
    simp
  have hpos : field.2.start + check.serializedOffset = opening.length := by
    rw [hserialized, hopening, length_append, length_cons, ← hencoded, encodeEscapedField]
    dsimp only
    omega
  have hstop : field.2.stop = opening.length + (closingBytes rest).length := by
    rw [← length_append, ← hfield, ← hencoded, encodeEscapedField]
  have hquote : rev.readBytes field.2.start (field.2.start + 1) = [0x22] := by
    have hfirst : field.1.bytes ++ after =
        writer.bytes ++ [0x22] ++ (front.flatMap characterBytes ++ closingBytes rest ++ after) := by
      rw [hfield, hopening]
      simp
    rw [hholds.readBytes_eq, hfirst, ← hencoded]
    exact slice_middle writer.bytes [0x22] _
  have hpieces : ∀ piece ∈ rest, IsCharacter piece := (isCharacter_of_append hsplit).2
  have hfuel := length_lt_closingBytes hpieces
  refine ⟨_, field.2.stop, front, rest, ⟨opening.length, opening.length, []⟩,
    field.2.stop - field.2.start + 1, hholds, ?_, hsplit, ?_, ?_, ?_, ?_⟩
  · rw [hstop, hfield, length_append, length_append]
    exact Nat.le_add_right _ _
  · rw [← hdecoded]
    exact hle
  · have hahead : (⟨opening.length, opening.length, []⟩ : Window).ahead = [] := drop_nil
    refine ⟨Nat.le_refl _, ?_, ?_, ?_, Nat.zero_le _⟩
    · rw [hstop]
      exact Nat.le_add_right _ _
    · dsimp only
      rw [hstop, hfield, slice_middle]
    · rw [hahead]
      exact nil_prefix
  · rw [hstop]
    omega
  · have hidx' : field.2.stringIndex = some index := by rw [← hencoded]; exact hidx
    rw [readEscapedStringRange, hidx']
    dsimp only
    rw [if_neg (not_not.mpr hquote), htotal, hfound]
    dsimp only
    rw [hpos, hdecoded]

/-- Without a byte order mark, the escaped reader returns the page of the string. -/
theorem readEscapedStringRange_eq (hmark : markUnit ∉ value) (offset length : ℕ) :
    readEscapedStringRange limits rev (encodeEscapedField limits writer value).2 offset length =
      .ok (stringPage value offset length) := by
  obtain ⟨bytes, stop, front, rest, window, fuel, hholds', hstop, hsplit, hfront, hwindow, hfuel, hrun⟩ :=
    readEscapedStringRange_run hlimits writer hholds offset length
  have hunpaired := unpaired_characters value
  rw [hsplit] at hunpaired
  have hmark' : [markUnit] ∉ rest := by
    intro h
    apply hmark
    rw [← markUnit_mem_iff, hsplit]
    exact mem_append_right _ h
  obtain ⟨hsizes, hsizes'⟩ := forall_mem_append.mp fun piece hpiece ↦
    (hunpaired.characters piece hpiece).byteLength_pos
  have htotal : totalSize byteLength front + totalSize byteLength rest = byteLength value := by
    rw [← totalSize_append, ← hsplit, totalSize_characters]
  have hskip : skipTo byteLength (min offset (byteLength value)) 0 (characters value) =
      skipTo byteLength (min offset (byteLength value)) (totalSize byteLength front) rest := by
    rw [hsplit, skipTo_append_of_le front rest hsizes (by rwa [Nat.zero_add]), Nat.zero_add]
  have hsame : rest.map decodedUnit = rest.map id :=
    map_congr_left fun piece hpiece ↦ if_neg (ne_of_mem_of_not_mem hpiece hmark')
  rw [hrun, answers_readUnits hholds' hstop hunpaired.right hfuel window hwindow, hsame, map_id,
    pageLoop_eq hsizes' htotal rfl hfront (Nat.min_le_right _ _) rfl, ← hskip,
    pageAnswer_eq_stringPage rfl rfl]

/-- With a byte order mark, a page that could hold the whole string is an error. -/
theorem readEscapedStringRange_of_mark (hmark : markUnit ∈ value) :
    readEscapedStringRange limits rev (encodeEscapedField limits writer value).2 0
        (byteLength value + 1) =
      .error (.syntaxError "escaped string index does not match JSON snapshot") := by
  obtain ⟨bytes, stop, front, rest, window, fuel, hholds', hstop, hsplit, hfront, hwindow, hfuel, hrun⟩ :=
    readEscapedStringRange_run hlimits writer hholds 0 (byteLength value + 1)
  have hunpaired := unpaired_characters value
  rw [Nat.zero_min] at hfront hrun
  have hnone : front = [] := by
    cases front with
    | nil => rfl
    | cons piece =>
      have hpiece := (hunpaired.characters piece (by rw [hsplit]; exact mem_cons_self)).byteLength_pos
      rw [totalSize_cons] at hfront
      omega
  rw [hnone, nil_append] at hsplit
  rw [← markUnit_mem_iff, hsplit] at hmark
  rw [hsplit] at hunpaired
  have hshort : totalSize byteLength (rest.map decodedUnit) < byteLength value := by
    rw [← totalSize_characters, hsplit]
    exact totalSize_decodedUnit_lt hmark
  rw [hrun, answers_readUnits hholds' hstop hunpaired hfuel window hwindow, hnone]
  exact pageLoop_behind (by rw [totalSize_nil]; dsimp only; omega) (by dsimp only; omega)

end

/-! ## Stored strings -/

/-- A snapshot with a string field between other texts, in memory or not, and the field. -/
def storedField (encode : StoreLimits → ChunkWriter → JsString → ChunkWriter × IndexedField)
    (limits : StoreLimits) (before after : List JsString) (value : JsString) (inMemory : Bool) :
    StoredBytes × IndexedField :=
  let append := fun (writer : ChunkWriter) (text : JsString) ↦ writer.append limits.chunkBytes text
  let field := encode limits (before.foldl append .empty) value
  let written := (after.foldl append field.1).flush
  ({ payload := if inMemory then some written.chunks.flatten else none, chunks := written.chunks }, field.2)

theorem foldl_append_bytes {cap : ℕ} (hcap : 4 ≤ cap) (writer : ChunkWriter)
    (texts : List JsString) :
    (texts.foldl (fun writer text ↦ writer.append cap text) writer).bytes =
      writer.bytes ++ texts.flatMap encodeUtf8 := by
  induction texts generalizing writer with
  | nil => exact (append_nil _).symm
  | cons text rest ih =>
    rw [foldl_cons, ih, bytes_append hcap, append_assoc, flatMap_cons]

/-- A snapshot holds a field as the encoder writes it, in front of some later bytes. -/
def Stores (encode : StoreLimits → ChunkWriter → JsString → ChunkWriter × IndexedField)
    (limits : StoreLimits) (value : JsString) (stored : StoredBytes × IndexedField) : Prop :=
  ∃ (writer : ChunkWriter) (later : Bytes),
    stored.1.Holds ((encode limits writer value).1.bytes ++ later) ∧ stored.2 = (encode limits writer value).2

theorem stores_storedField
    (encode : StoreLimits → ChunkWriter → JsString → ChunkWriter × IndexedField)
    (hlimits : 4 ≤ limits.chunkBytes) (before after : List JsString) (value : JsString) (inMemory : Bool) :
    Stores encode limits value (storedField encode limits before after value inMemory) := by
  refine ⟨before.foldl (fun writer text ↦ writer.append limits.chunkBytes text) .empty,
    after.flatMap encodeUtf8, ?_, rfl⟩
  have hchunks (writer : ChunkWriter) : writer.flush.chunks.flatten = writer.bytes := by
    have hflush := bytes_flush writer
    rwa [bytes, buffer_flush, append_nil] at hflush
  rw [← foldl_append_bytes hlimits, ← hchunks]
  constructor
  · rfl
  · intro payload hpayload
    cases inMemory with
    | true => exact (Option.some.inj hpayload).symm
    | false => exact absurd hpayload (by simp [storedField])

/-- The bodies of the pages from an offset on, each page continued behind its body until one is
complete. -/
inductive PagesFrom (read : ℕ → Except ReadError (Option StringPage)) : ℕ → List JsString → Prop where
  | last {offset : ℕ} {page : StringPage} (hread : read offset = .ok (some page))
      (hcomplete : page.complete = true) : PagesFrom read offset [page.body]
  | next {offset : ℕ} {page : StringPage} {bodies : List JsString}
      (hread : read offset = .ok (some page)) (hcomplete : page.complete = false)
      (hrest : PagesFrom read (page.offset + byteLength page.body) bodies) :
      PagesFrom read offset (page.body :: bodies)

/-- Paging through a stored string puts it together again, offsets inside characters lead to the next
character, and both readers return the same pages. -/
structure StringPagingCorrect (value : JsString) : Prop where
  reassembles : ∀ (before after : List JsString) (inMemory : Bool) (length : ℕ), 4 ≤ length →
    ∃ bodies, PagesFrom (fun offset ↦
        readStringRange storeLimits
          (storedField encodeIndexedValue storeLimits before after value inMemory).1
          (storedField encodeIndexedValue storeLimits before after value inMemory).2 offset length)
        0 bodies ∧ bodies.flatten = value ∧ ∀ body ∈ bodies, byteLength body ≤ length
  resumes : ∀ (before after : List JsString) (inMemory : Bool) (length : ℕ), 4 ≤ length →
    ∀ (front : List JsString) (character : JsString) (rest : List JsString),
      characters value = front ++ character :: rest →
      ∀ offset : ℕ, byteLength front.flatten < offset → offset < byteLength (front ++ [character]).flatten →
        ∃ page : StringPage, page.offset = byteLength (front ++ [character]).flatten ∧
          readStringRange storeLimits
            (storedField encodeIndexedValue storeLimits before after value inMemory).1
            (storedField encodeIndexedValue storeLimits before after value inMemory).2 offset length =
              .ok (some page) ∧
          readStringRange storeLimits
            (storedField encodeIndexedValue storeLimits before after value inMemory).1
            (storedField encodeIndexedValue storeLimits before after value inMemory).2 page.offset length =
              .ok (some page)
  agrees : isPlainJsonString value = true → ∀ (before after : List JsString) (inMemory : Bool)
    (offset length : ℤ),
      readStringRange storeLimits
          (storedField encodePlainField storeLimits before after value inMemory).1
          (storedField encodePlainField storeLimits before after value inMemory).2 offset length =
        readStringRange storeLimits
          (storedField encodeEscapedField storeLimits before after value inMemory).1
          (storedField encodeEscapedField storeLimits before after value inMemory).2 offset length

/-- The reader of a field: nothing for a negative offset or a length that is not positive. -/
def pageReader (value : JsString) (offset length : ℤ) : Except ReadError (Option StringPage) :=
  if offset < 0 ∨ length ≤ 0 then .ok none else .ok (stringPage value offset.toNat length.toNat)

section

variable (hlimits : 4 ≤ limits.chunkBytes) {stored : StoredBytes × IndexedField}

/-- An indexed field is a plain or an escaped one. -/
theorem Stores.indexed (h : Stores encodeIndexedValue limits value stored) :
    Stores (if isPlainJsonString value then encodePlainField else encodeEscapedField) limits value stored := by
  obtain ⟨writer, later, h⟩ := h
  refine ⟨writer, later, ?_⟩
  rw [encodeIndexedValue] at h
  split_ifs at h ⊢ <;> exact h

include hlimits

theorem readStringRange_plain (h : Stores encodePlainField limits value stored)
    (hplain : isPlainJsonString value) (offset length : ℤ) :
    readStringRange limits stored.1 stored.2 offset length = pageReader value offset length := by
  obtain ⟨writer, later, hholds, hfield⟩ := h
  rw [hfield]
  refine if_congr (by simp [encodePlainField]) rfl (congrArg Except.ok ?_)
  exact readPlainStringRange_eq hlimits writer hplain hholds _ _

theorem readStringRange_escaped (h : Stores encodeEscapedField limits value stored)
    (hmark : markUnit ∉ value) (offset length : ℤ) :
    readStringRange limits stored.1 stored.2 offset length = pageReader value offset length := by
  obtain ⟨writer, later, hholds, hfield⟩ := h
  rw [hfield]
  refine if_congr (by simp [encodeEscapedField]) rfl ?_
  exact readEscapedStringRange_eq hlimits writer hholds hmark _ _

theorem readStringRange_indexed (h : Stores encodeIndexedValue limits value stored)
    (hmark : markUnit ∉ value) (offset length : ℤ) :
    readStringRange limits stored.1 stored.2 offset length = pageReader value offset length := by
  have hfield := h.indexed
  split_ifs at hfield with hplain
  · exact readStringRange_plain hlimits hfield hplain offset length
  · exact readStringRange_escaped hlimits hfield hmark offset length

end

/-! ## Pages of a string -/

theorem pageReader_natCast (value : JsString) (offset : ℕ) (h : 0 < length) :
    pageReader value offset length = .ok (stringPage value offset length) := by
  rw [pageReader, if_neg (by omega), Int.toNat_natCast, Int.toNat_natCast]

theorem byteLength_flatten_of_within
    (h : pieces <:+: characters value) : byteLength pieces.flatten = totalSize byteLength pieces := by
  rw [← totalSize_characters, characters_flatten_of_within h]

/-- The first characters of a string. -/
theorem byteLength_flatten_front {front rest : List JsString} (hsplit : characters value = front ++ rest) :
    byteLength front.flatten = totalSize byteLength front ∧
      totalSize byteLength front ≤ byteLength value := by
  refine ⟨byteLength_flatten_of_within ⟨[], rest, hsplit.symm⟩, ?_⟩
  rw [← totalSize_characters, hsplit, totalSize_append]
  exact Nat.le_add_right _ _

/-- Behind some characters of the string, a page of at least four bytes holds the next ones. -/
theorem stringPage_behind {front rest : List JsString}
    (hsplit : characters value = front ++ rest) (hlen : 4 ≤ length) :
    ∃ taken left, rest = taken ++ left ∧ byteLength taken.flatten ≤ length ∧ (rest ≠ [] → taken ≠ []) ∧
      stringPage value (byteLength front.flatten) length =
        some ⟨taken.flatten, left.isEmpty, byteLength front.flatten⟩ := by
  have hcharacter := isCharacter_of_append hsplit
  obtain ⟨taken, left, hrest, hle, hsome, hpage⟩ := pageAt_totalSize front rest
    (fun piece hpiece ↦ (hcharacter.1 piece hpiece).byteLength_pos)
    (fun piece hpiece ↦ (hcharacter.2 piece hpiece).byteLength_le.trans hlen)
  obtain ⟨hfront, hinside⟩ := byteLength_flatten_front hsplit
  have htaken : byteLength taken.flatten = totalSize byteLength taken :=
    byteLength_flatten_of_within ⟨front, left, by rw [hsplit, hrest, append_assoc]⟩
  refine ⟨taken, left, hrest, by rwa [htaken], hsome, ?_⟩
  rw [stringPage, hfront, Nat.min_eq_left hinside, hsplit, hpage]
  rfl

/-- From a boundary between characters on, the pages put together the rest of the string. -/
theorem pagesFrom_behind (hlen : 4 ≤ length) {read : ℕ → Except ReadError (Option StringPage)}
    (hread : ∀ offset, read offset = .ok (stringPage value offset length)) (front rest : List JsString)
    (hsplit : characters value = front ++ rest) :
    ∃ bodies, PagesFrom read (byteLength front.flatten) bodies ∧ bodies.flatten = rest.flatten ∧
      ∀ body ∈ bodies, byteLength body ≤ length := by
  -- every page that is not the last one holds a character
  induction hcount : rest.length using Nat.strong_induction_on generalizing front rest with
  | _ count ih =>
    obtain ⟨taken, left, hrest, hle, hsome, hpage⟩ := stringPage_behind hsplit hlen
    have hpage' := (hread (byteLength front.flatten)).trans (congrArg Except.ok hpage)
    cases left with
    | nil =>
      refine ⟨[taken.flatten], .last hpage' rfl, ?_, ?_⟩
      · rw [hrest, append_nil, flatten_singleton]
      · simpa using hle
    | cons piece left =>
      have htaken : taken ≠ [] := hsome (by rw [hrest]; simp)
      have hlt : (piece :: left).length < count := by
        rw [← hcount, hrest, length_append]
        exact Nat.lt_add_of_pos_left (length_pos_iff.mpr htaken)
      have hsplit' : characters value = (front ++ taken) ++ piece :: left := by
        rw [hsplit, hrest, append_assoc]
      obtain ⟨bodies, hbodies, hflat, hbound⟩ := ih _ hlt (front ++ taken) (piece :: left) hsplit' rfl
      have hoffset : byteLength (front ++ taken).flatten =
          byteLength front.flatten + byteLength taken.flatten := by
        have htaken : taken <:+: characters value := ⟨front, piece :: left, hsplit'.symm⟩
        rw [(byteLength_flatten_front hsplit).1, byteLength_flatten_of_within htaken,
          (byteLength_flatten_front hsplit').1, totalSize_append]
      rw [hoffset] at hbodies
      refine ⟨taken.flatten :: bodies, .next hpage' rfl hbodies, ?_, ?_⟩
      · rw [flatten_cons, hflat, hrest, flatten_append]
      · rw [forall_mem_cons]
        exact ⟨hle, hbound⟩

/-- The page at an offset inside a character is the page behind the character. -/
theorem stringPage_inside {front rest : List JsString} {char : JsString}
    (hsplit : characters value = front ++ char :: rest)
    (hlower : byteLength front.flatten < offset) (hupper : offset < byteLength (front ++ [char]).flatten)
    (length : ℕ) :
    stringPage value offset length = stringPage value (byteLength (front ++ [char]).flatten) length := by
  have hsplit' : characters value = (front ++ [char]) ++ rest := by
    rw [hsplit, append_assoc, singleton_append]
  have hchar : ∀ piece ∈ front ++ [char], 0 < byteLength piece := by
    intro piece hpiece
    exact ((isCharacter_of_append hsplit').1 piece hpiece).byteLength_pos
  obtain ⟨hboth, hinside⟩ := byteLength_flatten_front hsplit'
  rw [(byteLength_flatten_front hsplit).1] at hlower
  rw [hboth] at hupper ⊢
  rw [stringPage, stringPage, Nat.min_eq_left (hupper.le.trans hinside), Nat.min_eq_left hinside, hsplit]
  rw [totalSize_append, totalSize_cons, totalSize_nil, Nat.add_zero] at hupper
  rw [pageAt_inside front rest hchar hlower hupper]

/-- Paging through a string is correct exactly when the string has no byte order mark. -/
theorem stringPagingCorrect_iff (value : JsString) : StringPagingCorrect value ↔ markUnit ∉ value := by
  have hlimits : 4 ≤ storeLimits.chunkBytes := by decide
  constructor
  · intro h hmark
    have hthree : 3 ≤ byteLength value := by
      obtain ⟨front, rest, hsplit⟩ := append_of_mem ((markUnit_mem_iff value).mpr hmark)
      have hthree : byteLength [markUnit] = 3 := by decide
      rw [← totalSize_characters, hsplit, totalSize_append, totalSize_cons, hthree]
      omega
    have herror {stored} (hstored : Stores encodeEscapedField storeLimits value stored) :
        readStringRange storeLimits stored.1 stored.2 0 (byteLength value + 1 : ℕ) =
          .error (.syntaxError "escaped string index does not match JSON snapshot") := by
      obtain ⟨writer, later, hholds, hfield⟩ := hstored
      rw [hfield, readStringRange, if_neg (by simp [encodeEscapedField])]
      exact readEscapedStringRange_of_mark hlimits writer hholds hmark
    cases hplain : isPlainJsonString value with
    | true =>
      have hagrees := h.agrees hplain [] [] false 0 (byteLength value + 1 : ℕ)
      rw [herror (stores_storedField _ hlimits ..),
        readStringRange_plain hlimits (stores_storedField _ hlimits ..) hplain] at hagrees
      cases hagrees
    | false =>
      obtain ⟨bodies, hbodies, -⟩ := h.reassembles [] [] false (byteLength value + 1) (by omega)
      have hfield := (stores_storedField encodeIndexedValue hlimits [] [] value false).indexed
      rw [hplain] at hfield
      cases hbodies with
      | last hread | next hread =>
        rw [Int.ofNat_zero, herror hfield] at hread
        cases hread
  · intro hmark
    have hread (before after inMemory) := readStringRange_indexed hlimits
      (stores_storedField encodeIndexedValue hlimits before after value inMemory) hmark
    constructor
    · intro before after inMemory length hlength
      obtain ⟨bodies, hbodies, hflatten, hbound⟩ := pagesFrom_behind hlength (fun offset ↦
        (hread before after inMemory offset length).trans (pageReader_natCast value offset (by omega))) []
        (characters value) rfl
      exact ⟨bodies, hbodies, by rw [hflatten, flatten_characters], hbound⟩
    · intro before after inMemory length hlength front character rest hsplit offset hlower hupper
      have hsplit' : characters value = (front ++ [character]) ++ rest := by
        rw [hsplit, append_assoc, singleton_append]
      obtain ⟨taken, left, -, -, -, hpage⟩ := stringPage_behind hsplit' hlength
      refine ⟨⟨taken.flatten, left.isEmpty, byteLength (front ++ [character]).flatten⟩, rfl, ?_, ?_⟩
      · rw [hread, pageReader_natCast value offset (by omega), stringPage_inside hsplit hlower hupper, hpage]
      · rw [hread, pageReader_natCast value _ (by omega), hpage]
    · intro hplain before after inMemory offset length
      rw [readStringRange_plain hlimits (stores_storedField _ hlimits ..) hplain,
        readStringRange_escaped hlimits (stores_storedField _ hlimits ..) hmark]

/-- A quote and a byte order mark as the body of an entry: the first page is an error. -/
theorem byte_order_mark_breaks_paging : readStringRange storeLimits
      (storedField encodeIndexedValue storeLimits [utf16 "\x7b\"body\":"] [utf16 "\x7d"] [quoteUnit, markUnit] true).1
      (storedField encodeIndexedValue storeLimits [utf16 "\x7b\"body\":"] [utf16 "\x7d"] [quoteUnit, markUnit] true).2
      0 16 = .error (.syntaxError "escaped string index does not match JSON snapshot") := by
  decide +kernel

end GajaeCode.Query
