import Mathlib.Data.List.Nodup

/-!
# Association lists

A map is the list of its pairs in the order in which their keys came in. Writing to a key that is
there already keeps the place of its pair.
-/

namespace GajaeCode.Chain

open List

variable {K V : Type*}

section

variable [BEq K] [LawfulBEq K] {pairs : List (K × V)} {key other : K}

theorem lookup_eq_none_iff_notMem : pairs.lookup key = none ↔ key ∉ pairs.map Prod.fst := by
  rw [lookup_eq_none_iff]
  constructor
  · intro h hmem
    obtain ⟨pair, hpair, rfl⟩ := mem_map.mp hmem
    exact absurd (h pair hpair) (by simp)
  · intro h pair hpair
    rw [bne_iff_ne]
    rintro rfl
    exact h (mem_map_of_mem hpair)

theorem mem_pairs_of_lookup {value : V} (h : pairs.lookup key = some value) : (key, value) ∈ pairs := by
  obtain ⟨before, after, hsplit, -⟩ := lookup_eq_some_iff.mp h
  simp [hsplit]

theorem lookup_cons_of_ne (h : other ≠ key) (value : V) (rest : List (K × V)) :
    ((key, value) :: rest).lookup other = rest.lookup other := by
  rw [lookup_cons, beq_eq_false_iff_ne.mpr h]

theorem lookup_of_mem (h : (pairs.map Prod.fst).Nodup) {value : V} (hmem : (key, value) ∈ pairs) :
    pairs.lookup key = some value := by
  obtain ⟨front, back, rfl⟩ := append_of_mem hmem
  rw [map_append, nodup_append] at h
  have hnone : front.lookup key = none := by
    rw [lookup_eq_none_iff_notMem]
    exact fun hfront ↦ h.2.2 key hfront key mem_cons_self rfl
  rw [lookup_append, hnone, Option.none_or, lookup_cons_self]

end

variable [DecidableEq K]

/-- The value of a key becomes a function of the value it had. -/
def alter (f : Option V → V) (key : K) : List (K × V) → List (K × V)
  | [] => [(key, f none)]
  | (key', value) :: rest =>
      if key' = key then (key, f (some value)) :: rest else (key', value) :: alter f key rest

variable {pairs : List (K × V)} {key other : K} {f : Option V → V}

theorem alter_of_notMem (h : key ∉ pairs.map Prod.fst) : alter f key pairs = pairs ++ [(key, f none)] := by
  induction pairs with
  | nil => rfl
  | cons pair rest ih =>
    rw [map_cons, mem_cons, not_or] at h
    rw [alter, if_neg (Ne.symm h.1), ih h.2, cons_append]

theorem mem_alter {pair : K × V} (h : pair ∈ alter f key pairs) :
    (∃ old, pair = (key, f old)) ∨ pair ∈ pairs := by
  induction pairs with
  | nil => exact .inl ⟨none, mem_singleton.mp h⟩
  | cons first rest ih =>
    rw [alter] at h
    split_ifs at h
    · rcases mem_cons.mp h with hpair | hrest
      · exact .inl ⟨_, hpair⟩
      · exact .inr (mem_cons_of_mem _ hrest)
    · rcases mem_cons.mp h with hpair | hrest
      · exact .inr (hpair ▸ mem_cons_self)
      · exact (ih hrest).imp_right (mem_cons_of_mem _)

theorem lookup_alter [BEq K] [LawfulBEq K] : (alter f key pairs).lookup other =
    if other = key then some (f (pairs.lookup key)) else pairs.lookup other := by
  induction pairs with
  | nil =>
    by_cases h : other = key
    · simp [alter, h]
    · rw [alter, lookup_cons_of_ne h, if_neg h]
  | cons pair rest ih =>
    obtain ⟨key', value⟩ := pair
    rw [alter]
    by_cases hkey : key' = key
    · subst hkey
      by_cases h : other = key'
      · simp [h]
      · rw [if_pos rfl, lookup_cons_of_ne h, if_neg h, lookup_cons_of_ne h]
    · rw [if_neg hkey, lookup_cons_of_ne (Ne.symm hkey)]
      by_cases h : other = key'
      · simp [h, hkey]
      · rw [lookup_cons_of_ne h, ih, lookup_cons_of_ne h]

theorem mem_keys_alter :
    other ∈ (alter f key pairs).map Prod.fst ↔ other = key ∨ other ∈ pairs.map Prod.fst := by
  rw [← not_iff_not, ← lookup_eq_none_iff_notMem, lookup_alter, not_or, ← lookup_eq_none_iff_notMem]
  split_ifs with h
  · simp [h]
  · simp [h]

theorem nodup_alter (h : (pairs.map Prod.fst).Nodup) : ((alter f key pairs).map Prod.fst).Nodup := by
  induction pairs with
  | nil => exact nodup_singleton _
  | cons pair rest ih =>
    rw [map_cons, nodup_cons] at h
    rw [alter]
    split_ifs with hkey
    · rw [← hkey]
      exact nodup_cons.mpr h
    · rw [map_cons, nodup_cons, mem_keys_alter]
      exact ⟨by tauto, ih h.2⟩

end GajaeCode.Chain
