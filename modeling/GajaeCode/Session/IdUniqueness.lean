import GajaeCode.Chain.HeapSort
import GajaeCode.Text.Utf8
import Mathlib.Data.Prod.Lex
import Mathlib.Data.List.Nodup

/-!
# The disk-backed check that ids are unique

Each id is recorded as two 32-bit hashes in the bucket that the second one selects. A bucket is a
buffer in front of a file; in the end each file is sorted in place and neighbours are compared. Writes
are complete and files are read back as written, so the branches for failed calls are left out.
-/

namespace GajaeCode.Session

open Text Chain List Function

variable {words : List UInt32} {right left : ℕ}

/-! ## Words -/

/-- `writeUInt32LE`. -/
def wordBytes (word : UInt32) : Bytes :=
  [UInt8.ofNat word.toNat, UInt8.ofNat (word.toNat / 256), UInt8.ofNat (word.toNat / 65536),
    UInt8.ofNat (word.toNat / 16777216)]

def wordOf (first second third fourth : UInt8) : UInt32 :=
  UInt32.ofNat (first.toNat + 256 * second.toNat + 65536 * third.toNat + 16777216 * fourth.toNat)

/-- `new Uint32Array(bytes.buffer, ...)` on a little-endian host. -/
def wordsOf : Bytes → List UInt32
  | first :: second :: third :: fourth :: rest => wordOf first second third fourth :: wordsOf rest
  | _ => []

theorem wordsOf_wordBytes_append (word : UInt32) (rest : Bytes) :
    wordsOf (wordBytes word ++ rest) = word :: wordsOf rest := by
  have hbound := word.toNat_lt
  have hword : wordOf (UInt8.ofNat word.toNat) (UInt8.ofNat (word.toNat / 256))
      (UInt8.ofNat (word.toNat / 65536)) (UInt8.ofNat (word.toNat / 16777216)) = word := by
    rw [← UInt32.toNat_inj, wordOf, UInt32.toNat_ofNat']
    simp only [UInt8.toNat_ofNat']
    omega
  rw [wordBytes, cons_append, cons_append, cons_append, cons_append, wordsOf, hword, nil_append]

namespace PackedPairs

/-- `words[index]!`. -/
def word (words : List UInt32) (index : ℕ) : UInt32 := words.getD index 0

def greater (words : List UInt32) (left right : ℕ) : Bool :=
  if word words (left * 2) = word words (right * 2) then
    word words (left * 2 + 1) > word words (right * 2 + 1)
  else word words (left * 2) > word words (right * 2)

def swap (words : List UInt32) (left right : ℕ) : List UInt32 :=
  let high := word words (left * 2)
  let low := word words (left * 2 + 1)
  let words := words.set (left * 2) (word words (right * 2))
  let words := words.set (left * 2 + 1) (word words (right * 2 + 1))
  let words := words.set (right * 2) high
  words.set (right * 2 + 1) low

/-- The pair at a position, ordered by its first word and then by its second one. -/
def item (words : List UInt32) (position : ℕ) : ℕ ×ₗ ℕ :=
  toLex ((word words (position * 2)).toNat, (word words (position * 2 + 1)).toNat)

theorem word_set (words : List UInt32) {idx : ℕ} (value : UInt32) (h : idx < words.length)
    (other : ℕ) : word (words.set idx value) other = if idx = other then value else word words other := by
  split_ifs <;> simp_all [word]

theorem item_eq_iff : item words left = item words right ↔
      word words (left * 2) = word words (right * 2) ∧
        word words (left * 2 + 1) = word words (right * 2 + 1) := by
  rw [item, item, toLex_inj, Prod.mk.injEq, UInt32.toNat_inj, UInt32.toNat_inj]

theorem greater_iff : greater words left right ↔ item words right < item words left := by
  rw [item, item, Prod.Lex.toLex_lt_toLex, greater]
  split_ifs with hhigh
  · simp [hhigh, UInt32.lt_iff_toNat_lt]
  · have hne : (word words (right * 2)).toNat ≠ (word words (left * 2)).toNat :=
      fun heq ↦ hhigh (UInt32.toNat_inj.mp heq).symm
    simp [hne, UInt32.lt_iff_toNat_lt]

/-- The four writes exchange the two pairs. -/
theorem word_swap (hleft : left < words.length / 2) (hright : right < words.length / 2) (idx : ℕ) :
    word (swap words left right) idx =
      word words (Equiv.swap left right (idx / 2) * 2 + idx % 2) := by
  have hparity : idx % 2 = 0 ∨ idx % 2 = 1 := by omega
  unfold swap
  rw [word_set _ _ (by simp only [length_set]; omega),
    word_set _ _ (by simp only [length_set]; omega),
    word_set _ _ (by simp only [length_set]; omega), word_set _ _ (by omega),
    word_set _ _ (by omega)]
  rw [Equiv.swap_apply_def]
  rcases hparity with hparity | hparity <;> split_ifs <;>
    first | omega | exact congrArg (word words) (by omega)

theorem item_swap (hleft : left < words.length / 2) (hright : right < words.length / 2) (pos : ℕ) :
    item (swap words left right) pos = item words (Equiv.swap left right pos) := by
  have hhigh : pos * 2 / 2 = pos ∧ pos * 2 % 2 = 0 := by omega
  have hlow : (pos * 2 + 1) / 2 = pos ∧ (pos * 2 + 1) % 2 = 1 := by omega
  rw [item, word_swap hleft hright, word_swap hleft hright, hhigh.1, hhigh.2, hlow.1, hlow.2, Nat.add_zero,
    item]

/-- Packed pairs as a store that can be sorted in place. -/
def heapStore : HeapStore (List UInt32) (ℕ ×ₗ ℕ) where
  size words := words.length / 2
  item := item
  greater := greater
  swap := swap
  greater_iff := greater_iff
  size_swap left right := by simp [swap]
  item_swap := item_swap

end PackedPairs

open PackedPairs

/-! ## The check -/

/-- The `BUCKETS` buckets. -/
abbrev Bucket := Fin 64

def bufferBytes : ℕ := 4096

/-- `#hash`. -/
def hash (value : JsString) (seed : UInt32) : UInt32 :=
  value.foldl (fun hash unit ↦ (hash ^^^ unit.toUInt32) * 0x01000193) seed

/-- The two hashes of an id. -/
def hashPair (value : JsString) : UInt32 × UInt32 := (hash value 0x811c9dc5, hash value 0x9e3779b9)

/-- `low & (BUCKETS - 1)`. -/
def bucketOf (low : UInt32) : Bucket := Fin.ofNat 64 low.toNat

def pairBytes (pair : UInt32 × UInt32) : Bytes := wordBytes pair.1 ++ wordBytes pair.2

/-- The used part of each buffer, and the file behind it. -/
structure IdUniquenessCheck where
  buffers : Bucket → Bytes
  files : Bucket → Bytes

namespace IdUniquenessCheck

def initial : IdUniquenessCheck := ⟨fun _ ↦ [], fun _ ↦ []⟩

variable (check : IdUniquenessCheck)

/-- `#flush`. -/
def flush (bucket : Bucket) : IdUniquenessCheck :=
  if check.buffers bucket = [] then check
  else
    { buffers := Function.update check.buffers bucket []
      files := Function.update check.files bucket (check.files bucket ++ check.buffers bucket) }

/-- The pair goes behind what the buffer holds. -/
def record (bucket : Bucket) (pair : UInt32 × UInt32) : IdUniquenessCheck :=
  { check with
    buffers := Function.update check.buffers bucket (check.buffers bucket ++ pairBytes pair) }

def add (value : JsString) : IdUniquenessCheck :=
  let pair := hashPair value
  let bucket := bucketOf pair.2
  let flushed := if bufferBytes < (check.buffers bucket).length + 8 then check.flush bucket else check
  flushed.record bucket pair

end IdUniquenessCheck

/-- `#hasDuplicate`. -/
def hasDuplicate (bytes : Bytes) : Bool :=
  let sorted := PackedPairs.heapStore.heapSort (wordsOf bytes)
  (List.range ((wordsOf bytes).length / 2)).any fun index ↦
    1 ≤ index && PackedPairs.word sorted (index * 2) = PackedPairs.word sorted (index * 2 - 2) &&
      PackedPairs.word sorted (index * 2 + 1) = PackedPairs.word sorted (index * 2 - 2 + 1)

namespace IdUniquenessCheck

/-- The buckets in the order of their numbers. -/
def finish (check : IdUniquenessCheck) : Bool :=
  let flushed := (List.finRange 64).foldl flush check
  (List.finRange 64).all fun bucket ↦
    (flushed.files bucket).length % 8 = 0 && !hasDuplicate (flushed.files bucket)

end IdUniquenessCheck

/-! ## Duplicates among recorded pairs -/

section

variable (pairs : List (UInt32 × UInt32))

/-- The words of the pairs, in order. -/
def pairWords : List UInt32 := pairs.flatMap fun pair ↦ [pair.1, pair.2]

theorem wordsOf_flatMap_pairBytes : wordsOf (pairs.flatMap pairBytes) = pairWords pairs := by
  induction pairs with
  | nil => rfl
  | cons pair rest ih =>
    rw [flatMap_cons, pairBytes, append_assoc, wordsOf_wordBytes_append, wordsOf_wordBytes_append, ih]
    rfl

theorem length_pairWords : (pairWords pairs).length = 2 * pairs.length := by
  induction pairs with
  | nil => rfl
  | cons pair rest ih =>
    change (pairWords rest).length + 2 = _
    rw [ih, length_cons]
    omega

theorem length_flatMap_pairBytes : (pairs.flatMap pairBytes).length = 8 * pairs.length := by
  induction pairs with
  | nil => rfl
  | cons pair rest ih =>
    rw [flatMap_cons, length_append, ih, length_cons]
    change 8 + _ = _
    omega

variable {pairs}

theorem word_pairWords {idx : ℕ} (h : idx < pairs.length) :
    word (pairWords pairs) (idx * 2) = pairs[idx].1 ∧
      word (pairWords pairs) (idx * 2 + 1) = pairs[idx].2 := by
  induction pairs generalizing idx with
  | nil => exact absurd h (Nat.not_lt_zero _)
  | cons pair rest ih =>
    cases idx with
    | zero => exact ⟨rfl, rfl⟩
    | succ idx =>
      have hrest : idx < rest.length := Nat.lt_of_succ_lt_succ h
      have hdouble : (idx + 1) * 2 = idx * 2 + 2 := by omega
      rw [hdouble]
      exact ih hrest

theorem item_pairWords_eq_iff (hleft : left < pairs.length) (hright : right < pairs.length) :
    item (pairWords pairs) left = item (pairWords pairs) right ↔ pairs[left] = pairs[right] := by
  rw [item_eq_iff, (word_pairWords hleft).1, (word_pairWords hleft).2, (word_pairWords hright).1,
    (word_pairWords hright).2, Prod.ext_iff]

theorem hasDuplicate_pairWords_iff : heapStore.HasDuplicate (pairWords pairs) ↔ ¬pairs.Nodup := by
  have hsize : heapStore.size (pairWords pairs) = pairs.length := by
    change (pairWords pairs).length / 2 = _
    rw [length_pairWords]
    omega
  rw [HeapStore.HasDuplicate, hsize, nodup_iff_injective_get, Injective]
  push Not
  constructor
  · rintro ⟨i, j, hne, hi, hj, heq⟩
    exact ⟨⟨i, hi⟩, ⟨j, hj⟩, (item_pairWords_eq_iff hi hj).mp heq, fun h ↦ hne (Fin.mk.inj h)⟩
  · rintro ⟨i, j, heq, hne⟩
    exact ⟨i, j, fun h ↦ hne (Fin.ext h), i.isLt, j.isLt, (item_pairWords_eq_iff i.isLt j.isLt).mpr heq⟩

/-- The sorted file has equal neighbours exactly when a pair was recorded twice. -/
theorem hasDuplicate_iff : hasDuplicate (pairs.flatMap pairBytes) ↔ ¬pairs.Nodup := by
  rw [← hasDuplicate_pairWords_iff, ← heapStore.exists_neighbours_heapSort_iff, hasDuplicate,
    wordsOf_flatMap_pairBytes, any_eq_true]
  simp only [mem_range, Bool.and_eq_true, decide_eq_true_eq]
  constructor
  · rintro ⟨idx, hidx, ⟨hpos, hhigh⟩, hlow⟩
    obtain ⟨k, rfl⟩ : ∃ k, idx = k + 1 := ⟨idx - 1, by omega⟩
    have hprev : (k + 1) * 2 - 2 = k * 2 := by omega
    rw [hprev] at hhigh hlow
    exact ⟨k, hidx, item_eq_iff.mpr ⟨hhigh, hlow⟩⟩
  · rintro ⟨k, hk, heq⟩
    have hprev : (k + 1) * 2 - 2 = k * 2 := by omega
    obtain ⟨hhigh, hlow⟩ := item_eq_iff.mp heq
    refine ⟨k + 1, hk, ⟨by omega, ?_⟩, ?_⟩
    · rw [hprev, hhigh]
    · rw [hprev, hlow]

end

/-! ## What the files hold -/

namespace IdUniquenessCheck

variable (check : IdUniquenessCheck) (bucket : Bucket)

/-- What was recorded in a bucket. -/
def contents : Bytes := check.files bucket ++ check.buffers bucket

theorem buffers_flush (other : Bucket) :
    (check.flush bucket).buffers other = if other = bucket then [] else check.buffers other := by
  rw [flush]
  split_ifs with hempty hother hother
  · rw [hother, hempty]
  · rfl
  · rw [hother]
    exact update_self bucket [] check.buffers
  · exact update_of_ne hother [] check.buffers

theorem contents_flush (other : Bucket) : (check.flush bucket).contents other = check.contents other := by
  rw [flush]
  split_ifs with hempty
  · rfl
  · by_cases hother : other = bucket
    · subst hother
      simp [contents]
    · simp [contents, update_of_ne hother]

theorem contents_record (pair : UInt32 × UInt32) (other : Bucket) :
    (check.record bucket pair).contents other =
      check.contents other ++ if bucket = other then pairBytes pair else [] := by
  by_cases hother : other = bucket
  · subst hother
    simp [contents, record]
  · simp [contents, record, update_of_ne hother, Ne.symm hother]

/-- Flushing keeps what was recorded and empties the buffers. -/
theorem foldl_flush (buckets : List Bucket) :
    (buckets.foldl flush check).contents = check.contents ∧
      ∀ other, other ∈ buckets ∨ check.buffers other = [] →
        (buckets.foldl flush check).buffers other = [] := by
  induction buckets generalizing check with
  | nil => simp
  | cons first rest ih =>
    obtain ⟨hcontents, hbuffers⟩ := ih (check.flush first)
    refine ⟨hcontents.trans (funext (check.contents_flush first)), fun other hother ↦ ?_⟩
    apply hbuffers
    rw [buffers_flush]
    by_cases hfirst : other = first
    · simp [hfirst]
    · simpa [hfirst] using hother

theorem files_flushed (other : Bucket) :
    ((finRange 64).foldl flush check).files other = check.contents other := by
  obtain ⟨hcontents, hbuffers⟩ := check.foldl_flush (finRange 64)
  have hempty := hbuffers other (.inl (mem_finRange other))
  rw [← hcontents, contents, hempty, append_nil]

end IdUniquenessCheck

/-! ## Runs -/

inductive IdOp
  | add (value : JsString)
  | flush (bucket : Bucket)

namespace IdOp

def perform (check : IdUniquenessCheck) : IdOp → IdUniquenessCheck
  | add value => check.add value
  | flush bucket => check.flush bucket

/-- The id that the operation records. -/
def value? : IdOp → Option JsString
  | add value => some value
  | flush _ => none

end IdOp

/-- The pairs recorded in a bucket. -/
def pairsIn (bucket : Bucket) (pairs : List (UInt32 × UInt32)) : List (UInt32 × UInt32) :=
  pairs.filter fun pair ↦ bucketOf pair.2 = bucket

theorem contents_run (check : IdUniquenessCheck) (ops : List IdOp) (bucket : Bucket) :
    (ops.foldl IdOp.perform check).contents bucket = check.contents bucket ++
        (pairsIn bucket ((ops.filterMap IdOp.value?).map hashPair)).flatMap pairBytes := by
  induction ops generalizing check with
  | nil => simp [pairsIn]
  | cons op rest ih =>
    rw [foldl_cons, ih]
    cases op with
    | flush => rw [IdOp.perform, check.contents_flush]; rfl
    | add value =>
      rw [IdOp.perform, IdUniquenessCheck.add, IdUniquenessCheck.contents_record, append_assoc]
      by_cases hbucket : bucketOf (hashPair value).2 = bucket <;> split_ifs <;>
        simp [IdOp.value?, pairsIn, hbucket, IdUniquenessCheck.contents_flush]

/-- Equal pairs select the same bucket, so no duplicate is spread over two files. -/
theorem forall_nodup_pairsIn_iff (pairs : List (UInt32 × UInt32)) :
    (∀ bucket, (pairsIn bucket pairs).Nodup) ↔ pairs.Nodup := by
  constructor
  · intro h
    rw [nodup_iff_count_le_one]
    intro pair
    have hcount := nodup_iff_count_le_one.mp (h (bucketOf pair.2)) pair
    rwa [pairsIn, count_filter (by simp)] at hcount
  · exact fun h bucket ↦ h.filter _

/-- The check succeeds exactly when the recorded pairs are pairwise distinct, so never with an id
recorded twice. -/
theorem finish_eq_true_iff_nodup (ops : List IdOp) :
    ((ops.foldl IdOp.perform .initial).finish = true ↔
      ((ops.filterMap IdOp.value?).map hashPair).Nodup) ∧
    ((ops.foldl IdOp.perform .initial).finish = true → (ops.filterMap IdOp.value?).Nodup) := by
  have hiff : (ops.foldl IdOp.perform .initial).finish = true ↔
      ((ops.filterMap IdOp.value?).map hashPair).Nodup := by
    rw [← forall_nodup_pairsIn_iff, IdUniquenessCheck.finish, all_eq_true]
    have hcontents : ∀ bucket, (ops.foldl IdOp.perform .initial).contents bucket =
        (pairsIn bucket ((ops.filterMap IdOp.value?).map hashPair)).flatMap pairBytes :=
      contents_run .initial ops
    simp only [IdUniquenessCheck.files_flushed, hcontents, length_flatMap_pairBytes, Nat.mul_mod_right,
      decide_true, Bool.true_and, Bool.not_eq_true', ← Bool.not_eq_true, hasDuplicate_iff, not_not,
      mem_finRange, true_imp_iff]
  exact ⟨hiff, fun hfinish ↦ (hiff.mp hfinish).of_map hashPair⟩

end GajaeCode.Session
