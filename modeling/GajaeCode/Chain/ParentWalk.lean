import Mathlib.Data.List.Chain
import Mathlib.Data.List.Nodup
import Mathlib.Data.List.Perm.Subperm

/-!
# Following parent links

Nodes are kept in a list, each under a key and with the key of its parent. A key that occurs
twice denotes the later node. The walk from a node to its root collects the nodes it meets and
stops at a node without a parent, at a parent that is not in the list, and at a key it has met
before.
-/

namespace GajaeCode.Chain

open List

section

variable {ι ν : Type*} [DecidableEq ι] (key : ν → ι) (parent : ν → Option ι)

/-- The last node under `k`. -/
def lookup (nodes : List ν) (k : ι) : Option ν := nodes.reverse.find? fun node ↦ key node = k

def parentNode (nodes : List ν) (node : ν) : Option ν := (parent node).bind (lookup key nodes)

/-- The nodes met on the way up from `current`, which comes first. -/
def ascend (nodes : List ν) : ℕ → List ι → Option ν → List ν
  | 0, _, _ => []
  | _ + 1, _, none => []
  | fuel + 1, visited, some node =>
    if key node ∈ visited then []
    else node :: ascend nodes fuel (key node :: visited) (parentNode key parent nodes node)

variable {key parent} {nodes : List ν} {node : ν}

theorem lookup_append (older newer : List ν) (k : ι) :
    lookup key (older ++ newer) k = (lookup key newer k).or (lookup key older k) := by
  simp [lookup]

theorem mem_of_lookup {k : ι} (h : lookup key nodes k = some node) : node ∈ nodes ∧ key node = k := by
  constructor
  · exact mem_reverse.mp (mem_of_find?_eq_some h)
  · simpa only [decide_eq_true_eq] using find?_some h

theorem lookup_eq_none_iff {k : ι} : lookup key nodes k = none ↔ k ∉ nodes.map key := by
  simp [lookup]

theorem lookup_of_nodup (hnodup : (nodes.map key).Nodup)
    (hmem : node ∈ nodes) : lookup key nodes (key node) = some node := by
  cases hfound : lookup key nodes (key node) with
  | none => exact absurd (mem_map_of_mem hmem) (lookup_eq_none_iff.mp hfound)
  | some =>
    have hsame := mem_of_lookup hfound
    rw [inj_on_of_nodup_map hnodup hsame.1 hmem hsame.2]

theorem ascend_none (nodes : List ν) (fuel : ℕ) (visited : List ι) :
    ascend key parent nodes fuel visited none = [] := by
  cases fuel <;> rfl

theorem ascend_of_mem (nodes : List ν) (fuel : ℕ) {visited : List ι}
    (h : key node ∈ visited) : ascend key parent nodes fuel visited (some node) = [] := by
  cases fuel with
  | zero => rfl
  | succ => exact if_pos h

/-- Each node of `up` is the parent of the one before it, and above the last there is no node
that was not met before. -/
structure IsAscent (key : ν → ι) (parent : ν → Option ι) (nodes : List ν) (visited : List ι)
    (up : List ν) : Prop where
  linked : up.IsChain fun child above ↦ parentNode key parent nodes child = some above
  nodup : (up.map key).Nodup
  fresh : ∀ node ∈ up, key node ∉ visited
  ends : ∀ node ∈ up.getLast?, ∀ above ∈ parentNode key parent nodes node,
    key above ∈ visited ∨ key above ∈ up.map key

theorem IsAscent.tail {visited : List ι} {up : List ν}
    (h : IsAscent key parent nodes visited (node :: up)) :
    IsAscent key parent nodes (key node :: visited) up where
  linked := h.linked.tail
  nodup := (nodup_cons.mp h.nodup).2
  fresh other hother := by
    have hne : key other ≠ key node := by
      intro heq
      apply (nodup_cons.mp h.nodup).1
      rw [← heq]
      exact mem_map_of_mem hother
    simp only [mem_cons, not_or]
    exact ⟨hne, h.fresh other (mem_cons_of_mem _ hother)⟩
  ends last hlast above habove := by
    cases up with
    | nil => cases hlast
    | cons =>
      have hends := h.ends last (by simpa only [getLast?_cons_cons] using hlast) above habove
      simp only [map_cons, mem_cons] at hends ⊢
      tauto

/-- A walk with enough fuel collects the whole ascent. -/
theorem ascend_eq_of_isAscent {up : List ν} :
    ∀ {fuel : ℕ} {visited : List ι}, IsAscent key parent nodes visited up → up.length ≤ fuel →
      ascend key parent nodes fuel visited up.head? = up := by
  induction up with
  | nil =>
    intro fuel visited _ _
    exact ascend_none nodes fuel visited
  | cons node up ih =>
    intro fuel visited h hfuel
    obtain ⟨fuel, rfl⟩ := Nat.exists_eq_add_one_of_ne_zero (Nat.ne_of_gt (Nat.zero_lt_of_lt hfuel))
    have hfresh : key node ∉ visited := h.fresh node mem_cons_self
    simp only [head?_cons, ascend, if_neg hfresh, cons.injEq, true_and]
    cases up with
    | cons =>
      have hnext := (isChain_cons_cons.mp h.linked).1
      rw [hnext]
      exact ih h.tail (Nat.le_of_succ_le_succ hfuel)
    | nil =>
      cases habove : parentNode key parent nodes node with
      | none => exact ascend_none nodes fuel _
      | some above =>
        have hends := h.ends node rfl above habove
        apply ascend_of_mem
        simp only [map_cons, map_nil, mem_singleton] at hends
        exact mem_cons.mpr hends.symm

end

end GajaeCode.Chain
