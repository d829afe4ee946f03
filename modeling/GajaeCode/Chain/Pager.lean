import Mathlib.Algebra.BigOperators.Group.List.Basic
import Mathlib.Algebra.GroupWithZero.Nat
import Mathlib.Data.List.Induction

/-!
# Paging through items of different sizes

Items lie behind one another, each as long as its size. A page starts at the first item at or
behind an offset and holds as many items as fit. With positive sizes, reading on behind each page
goes through all items once, and an offset inside an item is the same as the start of the next.
-/

namespace GajaeCode.Chain

open List

variable {offset budget pos : ℕ} {α : Type} (size : α → ℕ)

def totalSize (items : List α) : ℕ := (items.map size).sum

/-- The items from the first one that starts at the offset or behind it, and where that is. -/
def skipTo (offset : ℕ) : ℕ → List α → ℕ × List α
  | position, [] => (position, [])
  | position, item :: rest =>
      if position < offset then skipTo offset (position + size item) rest else (position, item :: rest)

/-- As many items as fit, and the others. -/
def takeUpTo : ℕ → List α → List α × List α
  | _, [] => ([], [])
  | budget, item :: rest =>
      if size item ≤ budget then
        (item :: (takeUpTo (budget - size item) rest).1, (takeUpTo (budget - size item) rest).2)
      else ([], item :: rest)

structure Page (α : Type) where
  items : List α
  complete : Bool
  offset : ℕ

/-- The page at an offset; there is none where the next item does not fit. -/
def pageAt (items : List α) (offset budget : ℕ) : Option (Page α) :=
  let found := skipTo size offset 0 items
  let cut := takeUpTo size budget found.2
  if cut.1.isEmpty && !found.2.isEmpty then none
  else some { items := cut.1, complete := cut.2.isEmpty, offset := found.1 }

variable {size} {items : List α} {item : α}

@[simp] theorem totalSize_nil : totalSize size [] = 0 := rfl

@[simp] theorem totalSize_cons (item : α) (rest : List α) :
    totalSize size (item :: rest) = size item + totalSize size rest := by
  simp [totalSize]

@[simp] theorem totalSize_append (left right : List α) :
    totalSize size (left ++ right) = totalSize size left + totalSize size right := by
  simp [totalSize]

theorem totalSize_eq_zero_iff (hsize : ∀ item ∈ items, 0 < size item) :
    totalSize size items = 0 ↔ items = [] := by
  cases items with
  | nil => simp
  | cons item =>
    have hitem := hsize item mem_cons_self
    simp
    omega

/-! ## Where a page starts -/

theorem skipTo_of_le (h : offset ≤ pos) (items : List α) :
    skipTo size offset pos items = (pos, items) := by
  cases items with
  | nil => rfl
  | cons => rw [skipTo, if_neg (Nat.not_lt.mpr h)]

/-- The items that are skipped are those that start in front of the offset. -/
theorem skipTo_spec (size : α → ℕ) (offset pos : ℕ) (items : List α) :
    ∃ front rest, items = front ++ rest ∧
      skipTo size offset pos items = (pos + totalSize size front, rest) ∧
      (rest = [] ∨ offset ≤ pos + totalSize size front) ∧
      (front = [] ∨ ∃ before last, front = before ++ [last] ∧
        pos + totalSize size before < offset) := by
  induction items generalizing pos with
  | nil => exact ⟨[], [], rfl, rfl, Or.inl rfl, Or.inl rfl⟩
  | cons item rest ih =>
    by_cases hlt : pos < offset
    · obtain ⟨front, left, hrest, hskip, hbehind, hbefore⟩ := ih (pos + size item)
      refine ⟨item :: front, left, by rw [hrest, cons_append], ?_, ?_, Or.inr ?_⟩
      · rw [skipTo, if_pos hlt, hskip, totalSize_cons, Nat.add_assoc]
      · rwa [totalSize_cons, ← Nat.add_assoc]
      · rcases hbefore with rfl | ⟨before, last, rfl, hlast⟩
        · exact ⟨[], item, rfl, hlt⟩
        · refine ⟨item :: before, last, rfl, ?_⟩
          rwa [totalSize_cons, ← Nat.add_assoc]
    · have hle := Nat.not_lt.mp hlt
      exact ⟨[], item :: rest, rfl, skipTo_of_le hle _, .inr hle, Or.inl rfl⟩

/-- An offset inside an item, or at its end, leads behind the item. -/
theorem skipTo_append (front : List α) (rest : List α)
    (hlower : pos + totalSize size front < offset)
    (hupper : offset ≤ pos + totalSize size front + size item) :
    skipTo size offset pos (front ++ item :: rest) =
      (pos + totalSize size front + size item, rest) := by
  induction front generalizing pos with
  | nil =>
    rw [totalSize_nil, Nat.add_zero] at hlower hupper
    rw [nil_append, skipTo, if_pos hlower, skipTo_of_le hupper, totalSize_nil, Nat.add_zero]
  | cons first front ih =>
    rw [totalSize_cons, ← Nat.add_assoc] at hlower hupper
    rw [cons_append, skipTo, if_pos (by omega), ih hlower hupper, totalSize_cons, ← Nat.add_assoc]

/-- Items that end at the offset or in front of it are skipped. -/
theorem skipTo_append_of_le (front rest : List α)
    (hsize : ∀ item ∈ front, 0 < size item) (h : pos + totalSize size front ≤ offset) :
    skipTo size offset pos (front ++ rest) =
      skipTo size offset (pos + totalSize size front) rest := by
  induction front generalizing pos with
  | nil => rfl
  | cons item front ih =>
    have hitem := hsize item mem_cons_self
    rw [totalSize_cons, ← Nat.add_assoc] at h ⊢
    rw [cons_append, skipTo, if_pos (by omega),
      ih (fun other hother ↦ hsize other (mem_cons_of_mem _ hother)) h]

/-- With positive sizes, the offset behind some items is where the next one starts. -/
theorem skipTo_totalSize (front rest : List α) (hsize : ∀ item ∈ front, 0 < size item) :
    skipTo size (totalSize size front) 0 (front ++ rest) = (totalSize size front, rest) := by
  rw [skipTo_append_of_le front rest hsize (by omega), skipTo_of_le (by omega), Nat.zero_add]

theorem skipTo_map {β : Type} (measure : β → ℕ) (f : α → β) (offset pos : ℕ) (items : List α) :
    skipTo measure offset pos (items.map f) =
      ((skipTo (fun item ↦ measure (f item)) offset pos items).1,
        (skipTo (fun item ↦ measure (f item)) offset pos items).2.map f) := by
  induction items generalizing pos with
  | nil => rfl
  | cons item rest ih =>
    rw [map_cons, skipTo, skipTo]
    split_ifs
    · exact ih _
    · rfl

/-- With bounded sizes, a page starts less than the bound behind the offset. -/
theorem skipTo_lt {bound : ℕ} (hbound : ∀ item ∈ items, size item ≤ bound)
    (hpos : 0 < bound) : (skipTo size offset 0 items).1 < offset + bound := by
  obtain ⟨front, rest, rfl, hskip, -, hbefore⟩ := skipTo_spec size offset 0 items
  rw [hskip]
  rcases hbefore with rfl | ⟨before, last, rfl, hlast⟩
  · exact Nat.add_pos_right offset hpos
  · have hlt := hbound last (by simp)
    simp only [totalSize_append, totalSize_cons, totalSize_nil]
    omega

/-! ## Where a page ends -/

theorem takeUpTo_of_lt (rest : List α) (h : budget < size item) :
    takeUpTo size budget (item :: rest) = ([], item :: rest) := by
  rw [takeUpTo, if_neg (Nat.not_le.mpr h)]

/-- The taken items fit, and the next one does not. -/
theorem takeUpTo_spec (size : α → ℕ) (budget : ℕ) (items : List α) :
    ∃ taken left, items = taken ++ left ∧ takeUpTo size budget items = (taken, left) ∧
      totalSize size taken ≤ budget ∧ ∀ next ∈ left.head?, budget < totalSize size taken + size next := by
  induction items generalizing budget with
  | nil => exact ⟨[], [], rfl, rfl, Nat.zero_le _, fun next hnext ↦ by simp at hnext⟩
  | cons item rest ih =>
    by_cases hfits : size item ≤ budget
    · obtain ⟨taken, left, hrest, htake, hle, hnext⟩ := ih (budget - size item)
      refine ⟨item :: taken, left, by rw [hrest, cons_append], ?_, ?_, ?_⟩
      · rw [takeUpTo, if_pos hfits, htake]
      · rw [totalSize_cons]
        omega
      · intro next hmem
        have hlt := hnext next hmem
        rw [totalSize_cons]
        omega
    · refine ⟨[], item :: rest, rfl, by rw [takeUpTo, if_neg hfits], Nat.zero_le _, ?_⟩
      intro next hmem
      rw [head?_cons, Option.mem_some_iff] at hmem
      rw [← hmem, totalSize_nil]
      omega

theorem takeUpTo_map {β : Type} (measure : β → ℕ) (f : α → β) (budget : ℕ) (items : List α) :
    takeUpTo measure budget (items.map f) =
      ((takeUpTo (fun item ↦ measure (f item)) budget items).1.map f,
        (takeUpTo (fun item ↦ measure (f item)) budget items).2.map f) := by
  induction items generalizing budget with
  | nil => rfl
  | cons item rest ih =>
    rw [map_cons, takeUpTo, takeUpTo]
    split_ifs
    · rw [ih, map_cons]
    · rfl

/-- Where all items fit together, all are taken. -/
theorem takeUpTo_of_totalSize_le (h : totalSize size items ≤ budget) :
    takeUpTo size budget items = (items, []) := by
  induction items generalizing budget with
  | nil => rfl
  | cons item rest ih =>
    rw [totalSize_cons] at h
    rw [takeUpTo, if_pos (by omega), ih (by omega)]

/-! ## Pages -/

/-- The page behind some items continues with what follows them. -/
theorem pageAt_totalSize (front rest : List α) (hsize : ∀ item ∈ front, 0 < size item)
    (hfits : ∀ item ∈ rest, size item ≤ budget) :
    ∃ taken left, rest = taken ++ left ∧ totalSize size taken ≤ budget ∧ (rest ≠ [] → taken ≠ []) ∧
      pageAt size (front ++ rest) (totalSize size front) budget =
        some { items := taken, complete := left.isEmpty, offset := totalSize size front } := by
  obtain ⟨taken, left, hrest, htake, hle, -⟩ := takeUpTo_spec size budget rest
  have hsome : rest ≠ [] → taken ≠ [] := by
    intro hne
    obtain ⟨item, items, rfl⟩ := exists_cons_of_ne_nil hne
    rw [takeUpTo, if_pos (hfits item mem_cons_self)] at htake
    rw [← (Prod.mk.inj htake).1]
    exact cons_ne_nil _ _
  refine ⟨taken, left, hrest, hle, hsome, ?_⟩
  rw [pageAt, skipTo_totalSize front rest hsize, htake]
  rw [if_neg]
  intro hempty
  rw [Bool.and_eq_true, List.isEmpty_iff, Bool.not_eq_true', isEmpty_eq_false_iff] at hempty
  exact hsome hempty.2 hempty.1

/-- The page at an offset inside an item is the page behind the item. -/
theorem pageAt_inside (front : List α) (rest : List α)
    (hsize : ∀ other ∈ front ++ [item], 0 < size other) (hlower : totalSize size front < offset)
    (hupper : offset < totalSize size front + size item) :
    pageAt size (front ++ item :: rest) offset budget =
      pageAt size (front ++ item :: rest) (totalSize size (front ++ [item])) budget := by
  have hinside : skipTo size offset 0 (front ++ item :: rest) =
      (0 + totalSize size front + size item, rest) :=
    skipTo_append front rest (by omega) (by omega)
  have hbehind := skipTo_totalSize (front ++ [item]) rest hsize
  rw [append_assoc, singleton_append] at hbehind
  rw [pageAt, pageAt, hinside, hbehind]
  simp

end GajaeCode.Chain
