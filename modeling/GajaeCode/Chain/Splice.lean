import Mathlib.Data.List.Sort

/-!
# Splicing a list from its end

Positions are counted from one. A position is spliced when the item there is replaced by a list of
items. Splicing at falling positions never moves a position that is still to come, so the whole run
gives every position its own slot: `rebuild` writes the slots in order.

A list of positions stands in the rebuilt list, in order, when each position is sent to a slot that
holds it and the slots do not fall along the list.
-/

namespace GajaeCode.Chain

open List

variable {positions : List ℕ} {start : ℕ} {α : Type*}

/-- `items.splice(index, 1, ...replacement)`. -/
def spliceAt (items : List α) (index : ℕ) (replacement : List α) : List α :=
  items.take index ++ replacement ++ items.drop (index + 1)

/-- Every item replaced by the slot of its position; the first item stands at `start`. -/
def rebuild (slot : ℕ → α → List α) : ℕ → List α → List α
  | _, [] => []
  | start, item :: rest => slot start item ++ rebuild slot (start + 1) rest

variable (slot : ℕ → α → List α)

theorem rebuild_append (start : ℕ) (front back : List α) : rebuild slot start (front ++ back) =
      rebuild slot start front ++ rebuild slot (start + front.length) back := by
  induction front generalizing start with
  | nil => simp [rebuild]
  | cons item rest ih =>
    have hstart : start + (item :: rest).length = start + 1 + rest.length := by
      simp only [length_cons]
      omega
    rw [cons_append, rebuild, ih, rebuild, hstart, append_assoc]

theorem rebuild_congr {left right : ℕ → α → List α} {items : List α}
    (h : ∀ pos item, start ≤ pos → pos < start + items.length → left pos item = right pos item) :
    rebuild left start items = rebuild right start items := by
  induction items generalizing start with
  | nil => rfl
  | cons item rest ih =>
    have hlength : (item :: rest).length = rest.length + 1 := length_cons
    have hrest : rebuild left (start + 1) rest = rebuild right (start + 1) rest := by
      apply ih
      intro pos other hlow hhigh
      exact h pos other (by omega) (by omega)
    rw [rebuild, rebuild, h start item le_rfl (by omega), hrest]

theorem rebuild_singleton (start : ℕ) (items : List α) :
    rebuild (fun _ item ↦ [item]) start items = items := by
  induction items generalizing start with
  | nil => rfl
  | cons item rest ih => rw [rebuild, ih, singleton_append]

/-- The slots that a set of positions fills; every other position keeps its item. -/
def slotAt (positions : List ℕ) (position : ℕ) (item : α) : List α :=
  if position ∈ positions then slot position item else [item]

theorem rebuild_slotAt_of_lt (h : ∀ pos ∈ positions, pos < start) (items : List α) :
    rebuild (slotAt slot positions) start items = items := by
  calc
    rebuild (slotAt slot positions) start items = rebuild (fun _ item ↦ [item]) start items := by
      apply rebuild_congr
      intro pos item hlow _
      exact if_neg fun hmem ↦ absurd (h pos hmem) (by omega)
    _ = items := rebuild_singleton start items

/-- One splice at the highest position, followed by a rebuild of what stands before it. -/
theorem rebuild_slotAt_cons (item : α) {position : ℕ}
    (front back : List α) (hpos : position = front.length + 1)
    (h : ∀ other ∈ positions, other < position) :
    rebuild (slotAt slot (position :: positions)) 1 (front ++ item :: back) =
      rebuild (slotAt slot positions) 1 front ++ (slot position item ++ back) := by
  have hfront : rebuild (slotAt slot (position :: positions)) 1 front =
      rebuild (slotAt slot positions) 1 front := by
    apply rebuild_congr
    intro other item _ hhigh
    have hne : other ≠ position := by omega
    simp [slotAt, hne]
  have hback : rebuild (slotAt slot (position :: positions)) (position + 1) back = back := by
    apply rebuild_slotAt_of_lt
    intro other hother
    rcases mem_cons.mp hother with rfl | hmem
    · omega
    · exact (h other hmem).trans (by omega)
  have hstart : 1 + front.length = position := by omega
  rw [rebuild_append, hfront, hstart, rebuild, hback]
  simp [slotAt]

/-- Splicing at falling positions fills the slot of each. -/
theorem foldl_spliceAt (blank : α) {items : List α}
    (rest : List α) (hfalling : positions.Pairwise (· > ·))
    (hrange : ∀ position ∈ positions, 1 ≤ position ∧ position ≤ items.length) :
    positions.foldl (fun cur position ↦ spliceAt cur (position - 1)
        (slot position (cur[position - 1]?.getD blank))) (items ++ rest) =
      rebuild (slotAt slot positions) 1 items ++ rest := by
  induction positions generalizing items rest with
  | nil =>
    have hsame : rebuild (slotAt slot []) 1 items = items :=
      rebuild_slotAt_of_lt slot (by simp) items
    rw [foldl_nil, hsame]
  | cons position positions ih =>
    obtain ⟨hlow, hhigh⟩ := hrange position mem_cons_self
    obtain ⟨hfirst, hothers⟩ := pairwise_cons.mp hfalling
    -- cut the items at the position: everything still to come lies in front of it
    have hidx : position - 1 < items.length := by omega
    have hcut : items = items.take (position - 1) ++ items[position - 1] :: items.drop position := by
      conv_lhs => rw [← take_append_drop (position - 1) items]
      rw [drop_eq_getElem_cons hidx, Nat.sub_add_cancel hlow]
    have hlen : position = (items.take (position - 1)).length + 1 := by
      rw [length_take_of_le hidx.le]
      omega
    have hsplice : spliceAt (items ++ rest) (position - 1)
          (slot position ((items ++ rest)[position - 1]?.getD blank)) =
        items.take (position - 1) ++
          (slot position items[position - 1] ++ (items.drop position ++ rest)) := by
      have hitem : (items ++ rest)[position - 1]? = some items[position - 1] := by
        rw [getElem?_append_left hidx, getElem?_eq_getElem hidx]
      rw [spliceAt, hitem, take_append_of_le_length hidx.le,
        drop_append_of_le_length (by omega), Nat.sub_add_cancel hlow]
      simp
    rw [foldl_cons, hsplice, ih _ hothers]
    · conv_rhs => rw [hcut, rebuild_slotAt_cons slot _ _ _ hlen hfirst]
      simp
    · intro other hother
      have hlt : other < position := hfirst other hother
      exact ⟨(hrange other (mem_cons_of_mem position hother)).1, by omega⟩

/-! ## Items sent to slots -/

/-- Along keys that do not fall, the items of the lowest key come first. -/
theorem filter_append_filter_of_le {β : Type*} (key : β → ℕ) (lowest : ℕ) {items : List β}
    (hsorted : items.Pairwise fun left right ↦ key left ≤ key right)
    (hlow : ∀ item ∈ items, lowest ≤ key item) :
    items.filter (fun item ↦ key item = lowest) ++ items.filter (fun item ↦ key item ≠ lowest) =
      items := by
  induction items with
  | nil => rfl
  | cons item rest ih =>
    obtain ⟨hfirst, hrest⟩ := pairwise_cons.mp hsorted
    have hlow' : ∀ other ∈ rest, lowest ≤ key other := fun other hother ↦
      hlow other (mem_cons_of_mem item hother)
    by_cases hkey : key item = lowest
    · simpa [hkey] using ih hrest hlow'
    · have hitem : lowest ≤ key item := hlow item mem_cons_self
      have hnone : rest.filter (fun other ↦ key other = lowest) = [] := by
        rw [filter_eq_nil_iff]
        intro other hother
        have hle : key item ≤ key other := hfirst other hother
        simp only [decide_eq_true_eq]
        omega
      have hall : rest.filter (fun other ↦ key other ≠ lowest) = rest := by
        have hih := ih hrest hlow'
        rwa [hnone, nil_append] at hih
      rw [filter_cons_of_neg (by simpa using hkey), hnone, nil_append,
        filter_cons_of_pos (by simpa using hkey), hall]

/-- Values sent to slots that hold them, along slots that do not fall, stand in the rebuilt list. -/
theorem sublist_rebuild {β : Type*} {slot : ℕ → α → List α} (key : β → ℕ) (value : β → α)
    {items : List α} {chosen : List β}
    (hsorted : chosen.Pairwise fun left right ↦ key left ≤ key right)
    (hrange : ∀ choice ∈ chosen, start ≤ key choice ∧ key choice < start + items.length)
    (hslot : ∀ index, ∀ h : index < items.length,
      ((chosen.filter fun choice ↦ key choice = start + index).map value).Sublist
        (slot (start + index) items[index])) :
    (chosen.map value).Sublist (rebuild slot start items) := by
  induction items generalizing start chosen with
  | nil =>
    have hnone : chosen = [] := by
      apply eq_nil_iff_forall_not_mem.mpr
      intro choice hchoice
      obtain ⟨hlow, hhigh⟩ := hrange choice hchoice
      exact absurd hhigh (by simp only [length_nil]; omega)
    simp [hnone]
  | cons item rest ih =>
    have hlow : ∀ choice ∈ chosen, start ≤ key choice := fun choice hchoice ↦
      (hrange choice hchoice).1
    have hhead : ((chosen.filter fun choice ↦ key choice = start).map value).Sublist
        (slot start item) := by
      have hzero := hslot 0 (by simp)
      exact hzero
    have htail : ((chosen.filter fun choice ↦ key choice ≠ start).map value).Sublist
        (rebuild slot (start + 1) rest) := by
      apply ih
      · exact hsorted.sublist filter_sublist
      · intro choice hchoice
        obtain ⟨hmem, hne⟩ := mem_filter.mp hchoice
        have hne' : key choice ≠ start := by simpa using hne
        obtain ⟨hge, hlt⟩ := hrange choice hmem
        rw [length_cons] at hlt
        omega
      · intro index hidx
        have hstart : start + (index + 1) = start + 1 + index := by omega
        have hsame : (chosen.filter fun choice ↦ key choice ≠ start).filter
              (fun choice ↦ key choice = start + 1 + index) =
            chosen.filter fun choice ↦ key choice = start + (index + 1) := by
          rw [filter_filter, hstart]
          apply filter_congr
          intro choice _
          by_cases hkey : key choice = start + 1 + index
          · have hne : key choice ≠ start := by omega
            simp [hkey]
            omega
          · simp [hkey]
        rw [hsame, ← hstart]
        exact hslot (index + 1) (by simpa using hidx)
    rw [rebuild, ← filter_append_filter_of_le key start hsorted hlow, map_append]
    exact hhead.append htail

end GajaeCode.Chain
