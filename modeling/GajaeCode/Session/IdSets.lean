import GajaeCode.Session.IdUniqueness
import Mathlib.Data.Finset.Card
import Mathlib.Data.UInt

/-!
# Bounded sets of id hashes

Two sets keep a hash of each id in a table of fixed size with linear probing. Distinct ids may
share a hash, but an id that was taken in is never missed afterwards.
-/

namespace GajaeCode.Session

open Text Function

/-! ## Linear probing -/

section

/-- The slots, where zero is vacant, and the recorded size. -/
structure ProbeTable (K : Type) where
  slots : ℕ → K
  size : ℕ

inductive AddResult
  | added
  | duplicate
  | full
  deriving DecidableEq

namespace ProbeTable

variable {K : Type} [DecidableEq K] [Zero K] (capacity : ℕ)

def empty : ProbeTable K := ⟨fun _ ↦ 0, 0⟩

def nextSlot (slot : ℕ) : ℕ := if slot + 1 = capacity then 0 else slot + 1

/-- The loop of `add`, with the probes that are left. -/
def insert (table : ProbeTable K) (key : K) : ℕ → ℕ → ProbeTable K × AddResult
  | 0, _ => (table, .full)
  | probes + 1, slot =>
      if table.slots slot = key then (table, .duplicate)
      else if table.slots slot = 0 then (⟨update table.slots slot key, table.size + 1⟩, .added)
      else insert table key probes (nextSlot capacity slot)

/-- The loop of `has`; a table without a vacant slot reports every key. -/
def reports (table : ProbeTable K) (key : K) : ℕ → ℕ → Bool
  | 0, _ => true
  | probes + 1, slot =>
      if table.slots slot = 0 then false
      else if table.slots slot = key then true
      else reports table key probes (nextSlot capacity slot)

def occupied (table : ProbeTable K) : ℕ := ((Finset.range capacity).filter (table.slots · ≠ 0)).card

variable {capacity} {table grown : ProbeTable K} {key : K} {probes slot : ℕ}

theorem slots_insert (h : table.slots slot ≠ 0) (start : ℕ) :
    (insert capacity table key probes start).1.slots slot = table.slots slot := by
  induction probes generalizing start with
  | zero => rfl
  | succ probes ih =>
    rw [insert]
    split_ifs with hfound hvacant
    · rfl
    · exact update_of_ne (by rintro rfl; exact h hvacant) _ _
    · exact ih _

theorem reports_mono (hgrown : ∀ slot, table.slots slot ≠ 0 → grown.slots slot = table.slots slot)
    (h : reports capacity table key probes slot) : reports capacity grown key probes slot := by
  induction probes generalizing slot with
  | zero => rfl
  | succ probes ih =>
    rw [reports] at h ⊢
    split_ifs at h with hvacant hfound
    · rw [hgrown slot hvacant, if_neg hvacant, if_pos hfound]
    · rw [hgrown slot hvacant, if_neg hvacant, if_neg hfound]
      exact ih h

/-- After the loop the key is on its way, or the table has no vacant slot. -/
theorem reports_insert (hkey : key ≠ 0) :
    reports capacity (insert capacity table key probes slot).1 key probes slot := by
  induction probes generalizing slot with
  | zero => rfl
  | succ probes ih =>
    rw [insert]
    split_ifs with hfound hvacant
    · simp [reports, hfound, hkey]
    · simp [reports, hkey]
    · rw [reports, slots_insert hvacant, if_neg hvacant, if_neg hfound]
      exact ih

theorem insert_ne_added (h : reports capacity table key probes slot) :
    (insert capacity table key probes slot).2 ≠ .added := by
  induction probes generalizing slot with
  | zero => exact AddResult.noConfusion
  | succ probes ih =>
    rw [reports] at h
    split_ifs at h with hvacant hfound
    · rw [insert, if_pos hfound]
      exact AddResult.noConfusion
    · rw [insert, if_neg hfound, if_neg hvacant]
      exact ih h

theorem size_insert (hkey : key ≠ 0) (hslot : slot < capacity) (h : table.size = table.occupied capacity) :
    (insert capacity table key probes slot).1.size =
      (insert capacity table key probes slot).1.occupied capacity := by
  induction probes generalizing slot with
  | zero => exact h
  | succ probes ih =>
    rw [insert]
    split_ifs with hfound hvacant
    · exact h
    · have hinsert : (Finset.range capacity).filter (update table.slots slot key · ≠ 0) =
          Finset.cons slot ((Finset.range capacity).filter (table.slots · ≠ 0)) (by simp [hvacant]) := by
        ext place
        by_cases hplace : place = slot <;> simp [hplace, hkey, hslot]
      rw [occupied, hinsert, Finset.card_cons, h, occupied]
    · exact ih (by unfold nextSlot; split <;> omega)

/-! ## A set of ids -/

-- The key of an id and the slot where its probes start.
variable (capacity) (maxEntries : ℕ) (keyOf : JsString → K) (homeOf : JsString → ℕ)

def add (table : ProbeTable K) (id : JsString) : ProbeTable K × AddResult :=
  if maxEntries ≤ table.size then (table, .full) else insert capacity table (keyOf id) capacity (homeOf id)

def has (table : ProbeTable K) (id : JsString) : Bool := reports capacity table (keyOf id) capacity (homeOf id)

/-- The table after a sequence of `add` calls. -/
def run (table : ProbeTable K) (ids : List JsString) : ProbeTable K :=
  ids.foldl (fun table id ↦ (table.add capacity maxEntries keyOf homeOf id).1) table

variable {capacity maxEntries keyOf homeOf} {id : JsString}

theorem slots_run (table : ProbeTable K) (ids : List JsString) (h : table.slots slot ≠ 0) :
    (table.run capacity maxEntries keyOf homeOf ids).slots slot = table.slots slot := by
  induction ids generalizing table with
  | nil => rfl
  | cons id ids ih =>
    have hadd : (table.add capacity maxEntries keyOf homeOf id).1.slots slot = table.slots slot := by
      rw [add]
      split_ifs
      · rfl
      · exact slots_insert h _
    rw [run, List.foldl_cons, ← run, ih _ (hadd ▸ h), hadd]

theorem has_run (hkey : keyOf id ≠ 0) (ids more : List JsString) :
    let before := table.run capacity maxEntries keyOf homeOf ids
    (before.add capacity maxEntries keyOf homeOf id).2 = .full ∨
      (table.run capacity maxEntries keyOf homeOf (ids ++ id :: more)).has capacity keyOf homeOf id := by
  intro before
  rw [run, List.foldl_append, List.foldl_cons, ← run, ← run]
  refine or_iff_not_imp_left.mpr fun hfull ↦ reports_mono (fun slot ↦ slots_run _ more) ?_
  change (before.add capacity maxEntries keyOf homeOf id).1.has capacity keyOf homeOf id
  rw [add] at hfull ⊢
  split_ifs at hfull ⊢
  · exact absurd rfl hfull
  · exact reports_insert hkey

theorem size_run (hkey : ∀ id, keyOf id ≠ 0) (hhome : ∀ id, homeOf id < capacity) (ids : List JsString)
    (h : table.size = table.occupied capacity) :
    (table.run capacity maxEntries keyOf homeOf ids).size =
      (table.run capacity maxEntries keyOf homeOf ids).occupied capacity := by
  induction ids generalizing table with
  | nil => exact h
  | cons id ids ih =>
    have hadd : (table.add capacity maxEntries keyOf homeOf id).1.size =
        (table.add capacity maxEntries keyOf homeOf id).1.occupied capacity := by
      rw [add]
      split_ifs
      · exact h
      · exact size_insert (hkey id) (hhome id) h
    exact ih hadd

theorem add_ne_added (h : table.has capacity keyOf homeOf id) :
    (table.add capacity maxEntries keyOf homeOf id).2 ≠ .added := by
  rw [add]
  split_ifs
  · exact AddResult.noConfusion
  · exact insert_ne_added h

end ProbeTable

end

/-! ## The two sets -/

/-- The fingerprint has 24 bits, so it is zero when both parts that are stored are. -/
theorem eq_zero_of_parts {word : UInt32} (h : word.toNat < 2 ^ 24)
    (hhigh : ((word >>> 16) &&& 0xFF).toUInt8 = 0) (hlow : (word &&& 0xFFFF).toUInt16 = 0) : word = 0 := by
  have hupper := congrArg UInt8.toNat hhigh
  have hlower := congrArg UInt16.toNat hlow
  rw [UInt32.toNat_toUInt8, UInt32.toNat_and, UInt32.toNat_shiftRight] at hupper
  rw [UInt32.toNat_toUInt16, UInt32.toNat_and] at hlower
  have hbyte := Nat.and_two_pow_sub_one_eq_mod (word.toNat >>> 16) 8
  have hhalf := Nat.and_two_pow_sub_one_eq_mod word.toNat 16
  have hshift := Nat.shiftRight_eq_div_pow word.toNat 16
  apply UInt32.toNat_inj.mp
  simp at hupper hlower hbyte hhalf ⊢
  omega

namespace BoundedColdIdHashSet

def capacity : ℕ := 1250003

/-- `#fingerprint`. -/
def fingerprint (value : JsString) : UInt8 × UInt16 :=
  let fingerprint := hash value 0x811c9dc5 &&& 0xFFFFFF
  let fingerprint := if fingerprint = 0 then 1 else fingerprint
  (((fingerprint >>> 16) &&& 0xFF).toUInt8, (fingerprint &&& 0xFFFF).toUInt16)

def home (value : JsString) : ℕ := (hash value 0x9e3779b9).toNat % capacity

def has (table : ProbeTable (UInt8 × UInt16)) (value : JsString) : Bool := table.has capacity fingerprint home value

def add (maxEntries : ℕ) (table : ProbeTable (UInt8 × UInt16)) (value : JsString) :
    ProbeTable (UInt8 × UInt16) × Bool :=
  let result := table.add capacity maxEntries fingerprint home value
  (result.1, result.2 != .full)

def run (maxEntries : ℕ) (values : List JsString) : ProbeTable (UInt8 × UInt16) :=
  values.foldl (fun table value ↦ (add maxEntries table value).1) .empty

theorem fingerprint_ne_zero (value : JsString) : fingerprint value ≠ 0 := by
  intro h
  obtain ⟨hhigh, hlow⟩ := Prod.ext_iff.mp h
  have hzero := eq_zero_of_parts ?_ hhigh hlow
  · split_ifs at hzero with hmasked
    · cases hzero
    · exact hmasked hzero
  · split_ifs
    · decide
    · exact Nat.and_lt_two_pow _ (by decide)

end BoundedColdIdHashSet

namespace BoundedDictionaryIdSet

def capacity : ℕ := 1125001

def maxRecords : ℕ := 1000000

/-- `#hashPair`. -/
def hashPair (value : JsString) : UInt16 × UInt32 :=
  let high := (hash value 0x811c9dc5 &&& 0xFFFF).toUInt16
  let low := hash value 0x9e3779b9
  (if high = 0 ∧ low = 0 then 1 else high, low)

def home (value : JsString) : ℕ := (hashPair value).2.toNat % capacity

def has (table : ProbeTable (UInt16 × UInt32)) (value : JsString) : Bool := table.has capacity hashPair home value

def add (table : ProbeTable (UInt16 × UInt32)) (value : JsString) : ProbeTable (UInt16 × UInt32) × AddResult :=
  table.add capacity maxRecords hashPair home value

def run (values : List JsString) : ProbeTable (UInt16 × UInt32) :=
  values.foldl (fun table value ↦ (add table value).1) .empty

theorem hashPair_ne_zero (value : JsString) : hashPair value ≠ 0 := by
  intro h
  obtain ⟨hhigh, hlow⟩ := Prod.ext_iff.mp h
  simp only [hashPair, Prod.fst_zero, Prod.snd_zero] at hhigh hlow
  split_ifs at hhigh with hboth
  · cases hhigh
  · exact hboth ⟨hhigh, hlow⟩

end BoundedDictionaryIdSet

/-- After any calls of `add` the size is the number of occupied slots. An id that one call takes in is
reported after any further calls, and the dictionary set does not add it again. -/
theorem idSets_never_miss (ids more : List JsString) (id : JsString) :
    (∀ maxEntries, open BoundedColdIdHashSet in
      (run maxEntries ids).size = (run maxEntries ids).occupied capacity ∧
        ((add maxEntries (run maxEntries ids) id).2 = false ∨ has (run maxEntries (ids ++ id :: more)) id)) ∧
      open BoundedDictionaryIdSet in
      (run ids).size = (run ids).occupied capacity ∧
        ((add (run ids) id).2 = .full ∨ has (run (ids ++ id :: more)) id) ∧
        ((add (run ids) id).2 = .added → (add (run (ids ++ id :: more)) id).2 ≠ .added) := by
  have hempty {K : Type} [DecidableEq K] [Zero K] (capacity : ℕ) :
      (ProbeTable.empty : ProbeTable K).size = (ProbeTable.empty : ProbeTable K).occupied capacity := by
    simp [ProbeTable.occupied, ProbeTable.empty]
  have hdictionary : open BoundedDictionaryIdSet in
      (add (run ids) id).2 = .full ∨ has (run (ids ++ id :: more)) id :=
    ProbeTable.has_run (BoundedDictionaryIdSet.hashPair_ne_zero id) ids more
  refine ⟨fun maxEntries ↦ ⟨?_, ?_⟩, ?_, hdictionary, fun hadded ↦ ?_⟩
  · exact ProbeTable.size_run BoundedColdIdHashSet.fingerprint_ne_zero
      (fun _ ↦ Nat.mod_lt _ (by decide)) ids (hempty _)
  · refine (ProbeTable.has_run (BoundedColdIdHashSet.fingerprint_ne_zero id) ids more).imp_left fun hfull ↦ ?_
    exact congrArg (· != AddResult.full) hfull
  · exact ProbeTable.size_run BoundedDictionaryIdSet.hashPair_ne_zero
      (fun _ ↦ Nat.mod_lt _ (by decide)) ids (hempty _)
  · refine ProbeTable.add_ne_added (hdictionary.resolve_left fun hfull ↦ ?_)
    cases hadded.symm.trans hfull

end GajaeCode.Session
