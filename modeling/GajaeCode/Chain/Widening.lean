import Mathlib.Data.List.Sort

/-!
# Widened blocks of positions

Blocks of taken positions are widened over free positions on both sides. Every free position gets a
home: the start of a block that covers it, or itself. A position below a block goes to the earliest
start among the blocks that cover it from above; only a position that no block covers from above
goes to the block it stands before.

Homes do not fall along the free positions, because the margins of a block end at the next taken
position.
-/

namespace GajaeCode.Chain

open List

variable {right left : ℕ}

structure Widening where
  start : ℕ
  stop : ℕ
  above : ℕ
  below : ℕ
  start_le_stop : start ≤ stop

namespace Widening

/-- The position is in the margin before the block. -/
def Above (block : Widening) (position : ℕ) : Prop :=
  block.start - block.above ≤ position ∧ position < block.start

/-- The position is in the margin after the block. -/
def Below (block : Widening) (position : ℕ) : Prop :=
  block.stop < position ∧ position ≤ block.stop + block.below

instance (block : Widening) (position : ℕ) : Decidable (block.Above position) :=
  inferInstanceAs (Decidable (_ ∧ _))

instance (block : Widening) (position : ℕ) : Decidable (block.Below position) :=
  inferInstanceAs (Decidable (_ ∧ _))

def Covers (block : Widening) (position : ℕ) : Prop := block.Above position ∨ block.Below position

/-- The blocks consist of taken positions and their margins of free ones. -/
structure Separated (taken : ℕ → Prop) (blocks : List Widening) : Prop where
  block : ∀ block ∈ blocks, ∀ position, block.start ≤ position → position ≤ block.stop → taken position
  above : ∀ block ∈ blocks, ∀ position, block.Above position → ¬ taken position
  below : ∀ block ∈ blocks, ∀ position, block.Below position → ¬ taken position

/-- Where a free position is sent. -/
def home (blocks : List Widening) (position : ℕ) : ℕ :=
  match ((blocks.filter fun block ↦ block.Below position).map Widening.start).min? with
  | some start => start
  | none =>
    match blocks.find? fun block ↦ block.Above position with
    | some block => block.start
    | none => position

inductive IsHome (blocks : List Widening) (position : ℕ) : ℕ → Prop
  | below (block : Widening) (hmem : block ∈ blocks) (hbelow : block.Below position)
      (hleast : ∀ other ∈ blocks, other.Below position → block.start ≤ other.start) :
      IsHome blocks position block.start
  | above (block : Widening) (hmem : block ∈ blocks) (habove : block.Above position)
      (hfree : ∀ other ∈ blocks, ¬ other.Below position) : IsHome blocks position block.start
  | self (hbelow : ∀ other ∈ blocks, ¬ other.Below position)
      (habove : ∀ other ∈ blocks, ¬ other.Above position) : IsHome blocks position position

theorem isHome_home (blocks : List Widening) (position : ℕ) :
    IsHome blocks position (home blocks position) := by
  unfold home
  cases hmin : ((blocks.filter fun block ↦ block.Below position).map Widening.start).min? with
  | some =>
    obtain ⟨hmem, hleast⟩ := min?_eq_some_iff.mp hmin
    obtain ⟨block, hblock, rfl⟩ := mem_map.mp hmem
    obtain ⟨hblocks, hbelow⟩ := mem_filter.mp hblock
    apply IsHome.below block hblocks (of_decide_eq_true hbelow)
    intro other hother hcovers
    apply hleast
    exact mem_map_of_mem (mem_filter.mpr ⟨hother, decide_eq_true hcovers⟩)
  | none =>
    have hnone : ∀ other ∈ blocks, ¬ other.Below position := by
      rw [min?_eq_none_iff, map_eq_nil_iff, filter_eq_nil_iff] at hmin
      intro other hother hcovers
      exact hmin other hother (decide_eq_true hcovers)
    cases hfind : blocks.find? fun block ↦ block.Above position with
    | some block =>
      have habove := find?_some hfind
      simp only [decide_eq_true_eq] at habove
      exact IsHome.above block (mem_of_find?_eq_some hfind) habove hnone
    | none =>
      apply IsHome.self hnone
      intro other hother hcovers
      exact (find?_eq_none.mp hfind) other hother (decide_eq_true hcovers)

section

variable {taken : ℕ → Prop} {blocks : List Widening}

section

variable (hseparated : Separated taken blocks)

include hseparated

/-- A free position before another one that a block covers from above is covered by that block, or
lies before it. -/
theorem below_or_lt_start {block : Widening}
    (hmem : block ∈ blocks) (hleft : ¬ taken left) (hlt : left < right)
    (hbelow : block.Below right) : block.Below left ∨ left < block.start := by
  by_cases hstop : block.stop < left
  · exact .inl ⟨hstop, hlt.le.trans hbelow.2⟩
  · right
    by_contra hstart
    exact hleft (hseparated.block block hmem left (not_lt.mp hstart) (not_lt.mp hstop))

theorem IsHome.le_of_lt_start {other : Widening}
    (hother : other ∈ blocks) {pos target : ℕ} (hhome : IsHome blocks pos target)
    (hlt : pos < other.start) : target ≤ other.start := by
  cases hhome with
  | below block hmem hbelow => exact (block.start_le_stop.trans hbelow.1.le).trans hlt.le
  | above block hmem habove =>
    by_contra hearlier
    have hinside : block.Above other.start := ⟨habove.1.trans hlt.le, not_le.mp hearlier⟩
    exact hseparated.above block hmem other.start hinside
      (hseparated.block other hother other.start le_rfl other.start_le_stop)
  | self => exact hlt.le

theorem IsHome.le_of_lt {source target : ℕ}
    (hleft : ¬ taken left) (hlt : left < right) (hsource : IsHome blocks left source)
    (htarget : IsHome blocks right target) : source ≤ target := by
  cases htarget with
  | below block hmem hbelow =>
    rcases below_or_lt_start hseparated hmem hleft hlt hbelow with hsame | hbefore
    · -- one margin holds both positions, so the left one has the block among its choices
      cases hsource with
      | below other _ _ hleast' => exact hleast' block hmem hsame
      | above other _ _ hfree | self hfree => exact absurd hsame (hfree block hmem)
    · exact hsource.le_of_lt_start hseparated hmem hbefore
  | above block hmem habove =>
    exact hsource.le_of_lt_start hseparated hmem (hlt.trans habove.2)
  | self _ hfree =>
    cases hsource with
    | below other _ hbelow => exact (other.start_le_stop.trans hbelow.1.le).trans hlt.le
    | above other hother habove =>
      by_contra hpast
      exact hfree other hother ⟨habove.1.trans hlt.le, not_le.mp hpast⟩
    | self => exact hlt.le

end

end

end Widening

end GajaeCode.Chain
