import GajaeCode.Chain.Pager
import GajaeCode.Text.Characters
import Mathlib.Data.List.TakeWhile

/-!
# Boundaries of characters in UTF-8

A character is a first byte and its continuation bytes, so a text is a list of blocks whose first
bytes can be told from the others. From any byte, skipping continuation bytes leads to the next
character, and going back over continuation bytes leads to the last boundary that fits.
-/

namespace GajaeCode.Text

open Chain List

variable {char : JsString} {count : ℕ}

/-! ## Blocks -/

section

variable {β : Type} (inside : β → Bool)

/-- A first item that is not inside, and others that are. -/
def IsBlock (block : List β) : Prop :=
  ∃ head tail, block = head :: tail ∧ inside head = false ∧ ∀ item ∈ tail, inside item = true

/-- Going back from a position while the item there is inside a block. -/
def boundaryAtOrBefore (items : List β) : ℕ → ℕ
  | 0 => 0
  | position + 1 =>
      if (items.drop (position + 1)).head?.any inside then boundaryAtOrBefore items position
      else position + 1

variable {inside} {blocks : List (List β)}

theorem IsBlock.inside_of_mem_drop {block : List β} (h : IsBlock inside block)
    (hcount : 0 < count) {item : β} (hitem : item ∈ block.drop count) : inside item := by
  obtain ⟨head, tail, rfl, -, htail⟩ := h
  obtain ⟨count, rfl⟩ := Nat.exists_eq_succ_of_ne_zero hcount.ne'
  exact htail item (mem_of_mem_drop hitem)

/-- A list of blocks starts with an item that is not inside one. -/
theorem inside_head?_flatten (h : ∀ block ∈ blocks, IsBlock inside block) :
    blocks.flatten.head?.any inside = false := by
  cases blocks with
  | nil => rfl
  | cons block =>
    obtain ⟨head, tail, rfl, hhead, -⟩ := h block mem_cons_self
    simpa using hhead

theorem takeWhile_append_of_head {front back : List β} (hfront : ∀ item ∈ front, inside item)
    (hback : back.head?.any inside = false) : (front ++ back).takeWhile inside = front := by
  rw [takeWhile_append_of_pos hfront]
  cases back with
  | nil => simp
  | cons item =>
    have hitem : inside item = false := by simpa using hback
    simp [hitem]

theorem totalSize_length (blocks : List (List β)) : totalSize length blocks = blocks.flatten.length := by
  rw [length_flatten]
  rfl

/-- From an offset in a list of blocks, the items inside a block lead to the next block. -/
theorem length_takeWhile_drop_flatten
    (h : ∀ block ∈ blocks, IsBlock inside block) {offset : ℕ} (hoffset : offset ≤ blocks.flatten.length)
    {pos : ℕ} {rest : List (List β)} (hskip : skipTo length offset 0 blocks = (pos, rest)) :
    offset + ((blocks.flatten.drop offset).takeWhile inside).length = pos ∧
      blocks.flatten.drop pos = rest.flatten := by
  obtain ⟨front, rest', rfl, hskip', hbehind, hbefore⟩ := skipTo_spec length offset 0 blocks
  rw [hskip, Nat.zero_add, Prod.mk.injEq, totalSize_length] at hskip'
  obtain ⟨rfl, rfl⟩ := hskip'
  have hrest : ∀ block ∈ rest, IsBlock inside block :=
    fun block hblock ↦ h block (mem_append_right _ hblock)
  have hle : offset ≤ front.flatten.length := by
    rw [Nat.zero_add, totalSize_length] at hbehind
    rcases hbehind with rfl | hle
    · simpa using hoffset
    · exact hle
  refine ⟨?_, by simp⟩
  rcases hbefore with rfl | ⟨before, last, rfl, hlast⟩
  · have hzero : offset = 0 := by simpa using hle
    have hempty : ([] ++ rest.flatten).takeWhile inside = [] :=
      takeWhile_append_of_head (by simp) (inside_head?_flatten hrest)
    rw [nil_append] at hempty
    simp [hzero, hempty]
  · rw [Nat.zero_add, totalSize_length] at hlast
    have hdrop : (before ++ [last] ++ rest).flatten.drop offset =
        last.drop (offset - before.flatten.length) ++ rest.flatten := by
      rw [flatten_append, flatten_append, append_assoc, drop_append,
        drop_eq_nil_of_le hlast.le, nil_append, flatten_singleton, drop_append]
      have hin : offset - before.flatten.length - last.length = 0 := by
        simp only [flatten_append, length_append, flatten_singleton] at hle
        omega
      rw [hin, drop_zero]
    have hinside : ∀ item ∈ last.drop (offset - before.flatten.length), inside item :=
      fun item hitem ↦ (h last (by simp)).inside_of_mem_drop (by omega) hitem
    rw [hdrop, takeWhile_append_of_head hinside (inside_head?_flatten hrest)]
    simp only [flatten_append, length_append, flatten_singleton, length_drop] at hle ⊢
    omega

/-- Going back from a position inside a list of blocks leads to the end of the blocks that fit. -/
theorem boundaryAtOrBefore_flatten
    (h : ∀ block ∈ blocks, IsBlock inside block) {budget : ℕ} (hbudget : budget < blocks.flatten.length)
    {taken left : List (List β)} (htake : takeUpTo length budget blocks = (taken, left)) :
    boundaryAtOrBefore inside blocks.flatten budget = taken.flatten.length := by
  obtain ⟨taken', left', rfl, htake', hle, hnext⟩ := takeUpTo_spec length budget blocks
  rw [htake, Prod.mk.injEq] at htake'
  obtain ⟨rfl, rfl⟩ := htake'
  rw [totalSize_length] at hle
  cases left with
  | nil =>
    rw [append_nil] at hbudget
    omega
  | cons next left =>
    have hlt := hnext next rfl
    rw [totalSize_length] at hlt
    have hblock := h next (by simp)
    -- the positions between the end of the taken blocks and the budget are inside the next block
    have hstep : ∀ pos, taken.flatten.length ≤ pos → pos < taken.flatten.length + next.length →
        boundaryAtOrBefore inside (taken ++ next :: left).flatten pos = taken.flatten.length := by
      intro pos hlower hupper
      induction pos with
      | zero =>
        rw [boundaryAtOrBefore]
        omega
      | succ pos ih =>
        have hdrop : (taken ++ next :: left).flatten.drop (pos + 1) =
            next.drop (pos + 1 - taken.flatten.length) ++ left.flatten := by
          rw [flatten_append, flatten_cons, drop_append, drop_eq_nil_of_le hlower,
            nil_append, drop_append]
          have hin : pos + 1 - taken.flatten.length - next.length = 0 := by omega
          rw [hin, drop_zero]
        rw [boundaryAtOrBefore, hdrop]
        rcases Nat.lt_or_ge pos taken.flatten.length with hstart | hinside
        · have hzero : pos + 1 - taken.flatten.length = 0 := by omega
          obtain ⟨head, tail, rfl, hhead, -⟩ := hblock
          rw [hzero]
          simp only [drop_zero, cons_append, head?_cons, Option.any_some, hhead]
          rw [if_neg (by decide)]
          omega
        · obtain ⟨item, tail, hitem⟩ : ∃ item tail,
              next.drop (pos + 1 - taken.flatten.length) = item :: tail := by
            apply exists_cons_of_ne_nil
            intro hnil
            have hlength := drop_eq_nil_iff.mp hnil
            omega
          have hin : inside item :=
            hblock.inside_of_mem_drop (by omega) (hitem ▸ mem_cons_self)
          rw [hitem]
          simp only [cons_append, head?_cons, Option.any_some, hin, if_true]
          exact ih hinside (by omega)
    exact hstep budget hle hlt

/-- Only the items up to the position count. -/
theorem boundaryAtOrBefore_take (items : List β) {position : ℕ} (h : position < count) :
    boundaryAtOrBefore inside (items.take count) position = boundaryAtOrBefore inside items position := by
  induction position with
  | zero => rfl
  | succ position ih =>
    have hhead : ((items.take count).drop (position + 1)).head? = (items.drop (position + 1)).head? := by
      rw [drop_take]
      obtain ⟨more, hmore⟩ := Nat.exists_eq_add_of_lt h
      have hcount : count - (position + 1) = more + 1 := by omega
      rw [hcount]
      cases items.drop (position + 1) <;> rfl
    rw [boundaryAtOrBefore, boundaryAtOrBefore, hhead, ih (by omega)]

theorem takeWhile_take (items : List β) (count : ℕ) :
    (items.take count).takeWhile inside = (items.takeWhile inside).take count := by
  induction items generalizing count with
  | nil => simp
  | cons item rest ih =>
    cases count with
    | zero => rfl
    | succ =>
      rw [take_succ_cons, takeWhile_cons, takeWhile_cons]
      split_ifs
      · rw [take_succ_cons, ih]
      · rfl

theorem boundaryAtOrBefore_length (items : List β) :
    boundaryAtOrBefore inside items items.length = items.length := by
  cases items with
  | nil => rfl
  | cons =>
    rw [length_cons, boundaryAtOrBefore, drop_of_length_le (by simp)]
    rfl

/-- In a window that reaches behind the budget, going back from the budget or from the end leads to
the end of the blocks that fit. -/
theorem boundaryAtOrBefore_window (h : ∀ block ∈ blocks, IsBlock inside block)
    {budget : ℕ} (hcount : budget < count) {taken left : List (List β)}
    (htake : takeUpTo length budget blocks = (taken, left)) :
    boundaryAtOrBefore inside (blocks.flatten.take count) (min (blocks.flatten.take count).length budget) =
        taken.flatten.length ∧
      (blocks.flatten.take count).take taken.flatten.length = taken.flatten := by
  obtain ⟨taken', left', hblocks, htake', hle, -⟩ := takeUpTo_spec length budget blocks
  rw [htake, Prod.mk.injEq] at htake'
  obtain ⟨rfl, rfl⟩ := htake'
  rw [totalSize_length] at hle
  constructor
  · rcases Nat.lt_or_ge budget blocks.flatten.length with hlt | hge
    · rw [Nat.min_eq_right (by rw [length_take]; omega), boundaryAtOrBefore_take _ hcount]
      exact boundaryAtOrBefore_flatten h hlt htake
    · have hall : takeUpTo length budget blocks = (blocks, []) :=
        takeUpTo_of_totalSize_le (by rwa [totalSize_length])
      rw [take_of_length_le (by omega), Nat.min_eq_left hge, boundaryAtOrBefore_length]
      rw [htake, Prod.mk.injEq] at hall
      rw [hall.1]
  · rw [take_take, Nat.min_eq_left (by omega), hblocks, flatten_append, take_left]

end

/-! ## Characters as blocks -/

/-- `(byte & 0xc0) === 0x80`. -/
def isContinuation (byte : UInt8) : Bool := 0x80 ≤ byte.toNat && byte.toNat ≤ 0xBF

theorem isBlock_scalarBytes {scalar : ℕ} (h : scalar < 0x110000) :
    IsBlock isContinuation (scalarBytes scalar) ∧ (scalarBytes scalar).length ≤ 4 := by
  have hin {value} (hvalue : value < 0x40) : isContinuation (UInt8.ofNat (0x80 + value)) := by
    rw [isContinuation, toNat_ofNat_byte (by omega)]
    simp
    omega
  have hout {value} (hlt : value < 0x100) (hvalue : value < 0x80 ∨ 0xBF < value) :
      isContinuation (UInt8.ofNat value) = false := by
    rw [isContinuation, toNat_ofNat_byte hlt]
    simp
    omega
  unfold scalarBytes
  split_ifs with h1 h2 h3
  · exact ⟨⟨_, [], rfl, hout (by omega) (.inl h1), by simp⟩, by simp⟩
  · refine ⟨⟨_, _, rfl, hout (by omega) (.inr (by omega)), ?_⟩, by simp⟩
    simp only [forall_mem_singleton]
    exact hin (Nat.mod_lt _ (by decide))
  · refine ⟨⟨_, _, rfl, hout (by omega) (.inr (by omega)), ?_⟩, by simp⟩
    simp only [mem_cons, not_mem_nil, or_false, forall_eq_or_imp, forall_eq]
    exact ⟨hin (Nat.mod_lt _ (by decide)), hin (Nat.mod_lt _ (by decide))⟩
  · refine ⟨⟨_, _, rfl, hout (by omega) (.inr (by omega)), ?_⟩, by simp⟩
    simp only [mem_cons, not_mem_nil, or_false, forall_eq_or_imp, forall_eq]
    exact ⟨hin (Nat.mod_lt _ (by decide)), hin (Nat.mod_lt _ (by decide)),
      hin (Nat.mod_lt _ (by decide))⟩

/-- A character is a block of at most four bytes. -/
theorem isBlock_encodeUtf8 (h : IsCharacter char) :
    IsBlock isContinuation (encodeUtf8 char) ∧ (encodeUtf8 char).length ≤ 4 := by
  obtain ⟨scalar, hscalar, hsingle⟩ := h.scalars
  rw [encodeUtf8, hsingle, flatMap_singleton]
  exact isBlock_scalarBytes hscalar.1

theorem isBlock_of_mem_encoded {pieces : List JsString} (h : ∀ piece ∈ pieces, IsCharacter piece) :
    ∀ block ∈ pieces.map encodeUtf8, IsBlock isContinuation block := by
  rw [forall_mem_map]
  exact fun piece hpiece ↦ (isBlock_encodeUtf8 (h piece hpiece)).1

theorem IsCharacter.byteLength_pos (h : IsCharacter char) : 0 < byteLength char := by
  obtain ⟨head, tail, hblock, -⟩ := (isBlock_encodeUtf8 h).1
  rw [byteLength, hblock]
  exact Nat.succ_pos _

theorem IsCharacter.byteLength_le (h : IsCharacter char) : byteLength char ≤ 4 :=
  (isBlock_encodeUtf8 h).2

end GajaeCode.Text
