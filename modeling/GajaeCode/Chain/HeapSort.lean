import Mathlib.Logic.Equiv.Basic
import Mathlib.Order.Lattice
import Mathlib.Tactic.WLOG

/-!
# Heapsort in place

A store of items that can be compared and exchanged by position is sorted by the usual two loops:
the items are sifted into a heap from the last parent to the first, and the root is exchanged with
the last item of a shrinking heap. The result is sorted and has the same items.
-/

namespace GajaeCode.Chain

/-- A store whose items are compared and exchanged by position. -/
structure HeapStore (σ α : Type*) [LinearOrder α] where
  size : σ → ℕ
  item : σ → ℕ → α
  greater : σ → ℕ → ℕ → Bool
  swap : σ → ℕ → ℕ → σ
  greater_iff : ∀ {s i j}, greater s i j = true ↔ item s j < item s i
  size_swap : ∀ {s} i j, size (swap s i j) = size s
  item_swap : ∀ {s i j}, i < size s → j < size s → ∀ k, item (swap s i j) k = item s (Equiv.swap i j k)

namespace HeapStore

variable {σ α : Type*} [LinearOrder α] (store : HeapStore σ α)

/-- The greater of a root and its first child; the root wins a tie. -/
def firstCandidate (s : σ) (root : ℕ) : ℕ :=
  if store.greater s (2 * root + 1) root then 2 * root + 1 else root

/-- The greatest of a root and its children up to the last position. -/
def candidate (s : σ) (root last : ℕ) : ℕ :=
  if 2 * root + 2 ≤ last && store.greater s (2 * root + 2) (store.firstCandidate s root) then 2 * root + 2
  else store.firstCandidate s root

theorem candidate_cases (s : σ) (root last : ℕ) :
    store.candidate s root last = root ∨ store.candidate s root last = 2 * root + 1 ∨
      (store.candidate s root last = 2 * root + 2 ∧ 2 * root + 2 ≤ last) := by
  rw [candidate]
  split_ifs with hsecond
  · rw [Bool.and_eq_true, decide_eq_true_eq] at hsecond
    exact .inr (.inr ⟨rfl, hsecond.1⟩)
  · rw [firstCandidate]
    split_ifs
    · exact .inr (Or.inl rfl)
    · exact Or.inl rfl

theorem item_le_firstCandidate (s : σ) (root : ℕ) :
    store.item s root ≤ store.item s (store.firstCandidate s root) ∧
      store.item s (2 * root + 1) ≤ store.item s (store.firstCandidate s root) := by
  rw [firstCandidate]
  split_ifs with hfirst
  · exact ⟨(store.greater_iff.mp hfirst).le, le_rfl⟩
  · exact ⟨le_rfl, not_lt.mp fun hlt ↦ hfirst (store.greater_iff.mpr hlt)⟩

/-- The candidate is at least the root and every child up to the last position. -/
theorem item_le_candidate (s : σ) (root last : ℕ) :
    store.item s (store.firstCandidate s root) ≤ store.item s (store.candidate s root last) ∧
      (2 * root + 2 ≤ last → store.item s (2 * root + 2) ≤ store.item s (store.candidate s root last)) := by
  rw [candidate]
  split_ifs with hsecond
  · rw [Bool.and_eq_true] at hsecond
    exact ⟨(store.greater_iff.mp hsecond.2).le, fun _ ↦ le_rfl⟩
  · refine ⟨le_rfl, fun hlast ↦ not_lt.mp fun hlt ↦ hsecond ?_⟩
    rw [Bool.and_eq_true, decide_eq_true_eq]
    exact ⟨hlast, store.greater_iff.mpr hlt⟩

def siftDown (root last : ℕ) (s : σ) : σ :=
  if last < 2 * root + 1 then s
  else if store.candidate s root last = root then s
  else
    siftDown (store.candidate s root last) last (store.swap s root (store.candidate s root last))
termination_by last - root
decreasing_by
  have := store.candidate_cases s root last
  omega

/-- The parents below the bound, from the last to the first. -/
def heapify (last : ℕ) : ℕ → σ → σ
  | 0, s => s
  | start + 1, s => heapify last start (store.siftDown start last s)

/-- The root goes behind the heap, which shrinks by one. -/
def sortDown : ℕ → σ → σ
  | 0, s => s
  | last + 1, s => sortDown last (store.siftDown 0 last (store.swap s 0 (last + 1)))

def heapSort (s : σ) : σ :=
  store.sortDown (store.size s - 1) (store.heapify (store.size s - 1) (store.size s / 2) s)

/-! ## The same items -/

/-- The second store has the items of the first one, rearranged up to the last position. -/
def Rearranged (last : ℕ) (s s' : σ) : Prop :=
  store.size s' = store.size s ∧
    ∃ move : Equiv.Perm ℕ, (∀ k, last < k → move k = k) ∧
      ∀ k, store.item s' k = store.item s (move k)

variable {store} {s s' s'' : σ} {last root : ℕ}

theorem Rearranged.refl (s : σ) : store.Rearranged last s s :=
  ⟨rfl, Equiv.refl ℕ, fun _ _ ↦ rfl, fun _ ↦ rfl⟩

theorem Rearranged.trans (h : store.Rearranged last s s') (h' : store.Rearranged last s' s'') :
    store.Rearranged last s s'' := by
  obtain ⟨hsize, move, hfix, hitem⟩ := h
  obtain ⟨hsize', move', hfix', hitem'⟩ := h'
  refine ⟨hsize'.trans hsize, move'.trans move, ?_, ?_⟩
  · intro k hk
    rw [Equiv.trans_apply, hfix' k hk, hfix k hk]
  · intro k
    rw [hitem', hitem, Equiv.trans_apply]

theorem Rearranged.mono {last' : ℕ} (h : store.Rearranged last s s') (hle : last ≤ last') :
    store.Rearranged last' s s' := by
  obtain ⟨hsize, move, hfix, hitem⟩ := h
  exact ⟨hsize, move, fun k hk ↦ hfix k (lt_of_le_of_lt hle hk), hitem⟩

theorem rearranged_swap {i j : ℕ} (hi : i ≤ last) (hj : j ≤ last) (hlast : last < store.size s) :
    store.Rearranged last s (store.swap s i j) := by
  refine ⟨store.size_swap i j, Equiv.swap i j, ?_, ?_⟩
  · intro k hk
    exact Equiv.swap_apply_of_ne_of_ne (by omega) (by omega)
  · exact store.item_swap (by omega) (by omega)

section

variable (h : store.Rearranged last s s')

include h

theorem Rearranged.item_eq {k : ℕ} (hk : last < k) : store.item s' k = store.item s k := by
  obtain ⟨-, move, hfix, hitem⟩ := h
  rw [hitem, hfix k hk]

theorem Rearranged.symm : store.Rearranged last s' s := by
  obtain ⟨hsize, move, hfix, hitem⟩ := h
  refine ⟨hsize.symm, move.symm, ?_, ?_⟩
  · intro k hk
    rw [Equiv.symm_apply_eq, hfix k hk]
  · intro k
    rw [hitem, Equiv.apply_symm_apply]

/-- Each position up to the last one holds an item from such a position, and no two the same one. -/
theorem Rearranged.exists_move :
    ∃ move : ℕ → ℕ, Function.Injective move ∧ (∀ k ≤ last, move k ≤ last) ∧
      ∀ k, store.item s' k = store.item s (move k) := by
  obtain ⟨-, move, hfix, hitem⟩ := h
  refine ⟨move, move.injective, fun k hk ↦ ?_, hitem⟩
  by_contra hgreater
  have hmove : move k = k := move.injective (hfix (move k) (by omega))
  omega

theorem Rearranged.item_le {bound : α}
    (hitems : ∀ k ≤ last, store.item s k ≤ bound) {k : ℕ} (hk : k ≤ last) : store.item s' k ≤ bound := by
  obtain ⟨move, -, hrange, hitem⟩ := h.exists_move
  rw [hitem]
  exact hitems (move k) (hrange k hk)

end

/-! ## Heaps -/

/-- The second position is a child of the first one. -/
def IsChild (parent child : ℕ) : Prop := child = 2 * parent + 1 ∨ child = 2 * parent + 2

theorem IsChild.lt {parent child : ℕ} (h : IsChild parent child) : parent < child := by
  unfold IsChild at h
  omega

/-- From a position on, no child up to the last position exceeds its parent. -/
def IsHeap (store : HeapStore σ α) (low last : ℕ) (s : σ) : Prop :=
  ∀ parent child, low ≤ parent → IsChild parent child → child ≤ last →
    store.item s child ≤ store.item s parent

/-- A heap except at one root, whose children do not exceed its parent. -/
structure IsSifting (store : HeapStore σ α) (low root last : ℕ) (s : σ) : Prop where
  ordered : ∀ parent child, low ≤ parent → parent ≠ root → IsChild parent child → child ≤ last →
    store.item s child ≤ store.item s parent
  grand : ∀ parent child, low ≤ parent → IsChild parent root → IsChild root child → child ≤ last →
    store.item s child ≤ store.item s parent

variable {low : ℕ}

theorem item_swap_spec {i j : ℕ} (hi : i < store.size s) (hj : j < store.size s) :
    store.item (store.swap s i j) i = store.item s j ∧ store.item (store.swap s i j) j = store.item s i ∧
      ∀ k, k ≠ i → k ≠ j → store.item (store.swap s i j) k = store.item s k := by
  refine ⟨?_, ?_, fun k hi' hj' ↦ ?_⟩ <;> rw [store.item_swap hi hj]
  · rw [Equiv.swap_apply_left]
  · rw [Equiv.swap_apply_right]
  · rw [Equiv.swap_apply_of_ne_of_ne hi' hj']

/-- The children of a root that wins do not exceed it. -/
theorem IsSifting.isHeap (h : store.IsSifting low root last s)
    (hroot : ∀ child, IsChild root child → child ≤ last → store.item s child ≤ store.item s root) :
    store.IsHeap low last s := by
  intro parent child hlow hchild hlast
  by_cases hparent : parent = root
  · subst hparent
    exact hroot child hchild hlast
  · exact h.ordered parent child hlow hparent hchild hlast

theorem item_child_le_candidate {child : ℕ} (hchild : IsChild root child) (hlast : child ≤ last) :
    store.item s child ≤ store.item s (store.candidate s root last) := by
  rcases hchild with rfl | rfl
  · exact (store.item_le_firstCandidate s root).2.trans (store.item_le_candidate s root last).1
  · exact (store.item_le_candidate s root last).2 hlast

theorem isChild_candidate (h : store.candidate s root last ≠ root) :
    IsChild root (store.candidate s root last) := by
  rcases store.candidate_cases s root last with hroot | hfirst | hsecond
  · exact absurd hroot h
  · exact .inl hfirst
  · exact .inr hsecond.1

theorem candidate_le_last (hlast : 2 * root + 1 ≤ last) : store.candidate s root last ≤ last := by
  rcases store.candidate_cases s root last with hroot | hfirst | hsecond <;> omega

/-- One step of the sift moves the gap to the child that took the root's place. -/
theorem IsSifting.step (h : store.IsSifting low root last s) (hlow : low ≤ root)
    (hlast : 2 * root + 1 ≤ last) (hsize : last < store.size s)
    (hne : store.candidate s root last ≠ root) :
    store.IsSifting low (store.candidate s root last) last
      (store.swap s root (store.candidate s root last)) := by
  have hle : store.candidate s root last ≤ last := candidate_le_last hlast
  have hchild := isChild_candidate hne
  have hrootLe : store.item s root ≤ store.item s (store.candidate s root last) :=
    (store.item_le_firstCandidate s root).1.trans (store.item_le_candidate s root last).1
  have hnext : ∀ child, IsChild root child → child ≤ last →
      store.item s child ≤ store.item s (store.candidate s root last) :=
    fun child hchild hlast ↦ item_child_le_candidate hchild hlast
  generalize store.candidate s root last = next at hne hle hchild hrootLe hnext ⊢
  have hparent : ∀ parent, IsChild parent next → parent = root := by
    unfold IsChild at *
    omega
  have hbelow := hchild.lt
  obtain ⟨hatRoot, hatNext, hat⟩ : _ ∧ _ ∧ _ :=
    item_swap_spec (show root < store.size s by omega) (show next < store.size s by omega)
  constructor
  · intro parent child hlowParent hparentNext hparentChild hchildLast
    have hless := hparentChild.lt
    by_cases hparentRoot : parent = root
    · -- The root now holds the candidate, which no child of the root exceeds.
      subst hparentRoot
      rw [hatRoot]
      by_cases hchildNext : child = next
      · rw [hchildNext, hatNext]
        exact hrootLe
      · rw [hat child (by omega) hchildNext]
        exact hnext child hparentChild hchildLast
    · rw [hat parent hparentRoot hparentNext]
      by_cases hchildRoot : child = root
      · subst hchildRoot
        rw [hatRoot]
        exact h.grand parent next hlowParent hparentChild hchild hle
      · have hchildNext : child ≠ next := fun heq ↦ hparentRoot (hparent parent (heq ▸ hparentChild))
        rw [hat child hchildRoot hchildNext]
        exact h.ordered parent child hlowParent hparentRoot hparentChild hchildLast
  · intro parent child _ hparentNext hnextChild hchildLast
    have hless := hnextChild.lt
    rw [hparent parent hparentNext, hatRoot, hat child (by omega) (by omega)]
    exact h.ordered next child (by omega) hne hnextChild hchildLast

/-- The sift ends in a heap with the same items. -/
theorem siftDown_spec (h : store.IsSifting low root last s) (hlow : low ≤ root)
    (hsize : last < store.size s) :
    store.IsHeap low last (store.siftDown root last s) ∧
      store.Rearranged last s (store.siftDown root last s) := by
  induction root, s using siftDown.induct store last with
  | case1 root s hleaf =>
    rw [siftDown, if_pos hleaf]
    refine ⟨h.isHeap fun child hchild hlast ↦ ?_, Rearranged.refl s⟩
    unfold IsChild at hchild
    omega
  | case2 root s hleaf hwins =>
    rw [siftDown, if_neg hleaf, if_pos hwins]
    refine ⟨h.isHeap fun child hchild hlast ↦ ?_, Rearranged.refl s⟩
    calc
      store.item s child ≤ store.item s (store.candidate s root last) :=
        item_child_le_candidate hchild hlast
      _ = store.item s root := by rw [hwins]
  | case3 root s hleaf hne ih =>
    have hlast : 2 * root + 1 ≤ last := not_lt.mp hleaf
    have hchild := isChild_candidate hne
    have hle : store.candidate s root last ≤ last := candidate_le_last hlast
    have hswap : store.Rearranged last s (store.swap s root (store.candidate s root last)) :=
      rearranged_swap (by omega) hle hsize
    obtain ⟨hheap, hsame⟩ := ih (h.step hlow hlast hsize hne) (hlow.trans hchild.lt.le) (by rwa [store.size_swap])
    rw [siftDown, if_neg hleaf, if_neg hne]
    exact ⟨hheap, hswap.trans hsame⟩

/-! ## Sorting -/

theorem heapify_spec {start : ℕ} (h : store.IsHeap start last s) (hsize : last < store.size s) :
    store.IsHeap 0 last (store.heapify last start s) ∧
      store.Rearranged last s (store.heapify last start s) := by
  induction start generalizing s with
  | zero => exact ⟨h, Rearranged.refl s⟩
  | succ start ih =>
    have hsifting : store.IsSifting start start last s := by
      constructor
      · intro parent child hlow hne hchild hlast
        exact h parent child (by omega) hchild hlast
      · intro parent child hlow hparent
        exact absurd hparent.lt hlow.not_gt
    obtain ⟨hheap, hsame⟩ := siftDown_spec hsifting le_rfl hsize
    obtain ⟨hheap', hsame'⟩ := ih hheap (hsame.1 ▸ hsize)
    exact ⟨hheap', hsame.trans hsame'⟩

/-- No item of a heap exceeds its root. -/
theorem IsHeap.item_le_root (h : store.IsHeap 0 last s) (k : ℕ) (hk : k ≤ last) :
    store.item s k ≤ store.item s 0 := by
  induction k using Nat.strongRecOn with
  | ind k ih =>
    by_cases hzero : k = 0
    · rw [hzero]
    · have hchild : IsChild ((k - 1) / 2) k := by
        unfold IsChild
        omega
      calc
        store.item s k ≤ store.item s ((k - 1) / 2) := h _ _ (Nat.zero_le _) hchild hk
        _ ≤ store.item s 0 := ih _ (by omega) (by omega)

/-- A heap up to the last position, with sorted items behind it that it does not exceed. -/
structure IsSorting (store : HeapStore σ α) (last : ℕ) (s : σ) : Prop where
  heap : store.IsHeap 0 last s
  sorted : ∀ i j, last < i → i ≤ j → j < store.size s → store.item s i ≤ store.item s j
  bounded : ∀ i j, i ≤ last → last < j → j < store.size s → store.item s i ≤ store.item s j

/-- One step of the second loop; its items up to the new last position are rearranged. -/
theorem IsSorting.step (h : store.IsSorting (last + 1) s) (hsize : last + 1 < store.size s) :
    store.IsSorting last (store.siftDown 0 last (store.swap s 0 (last + 1))) ∧
      store.Rearranged (last + 1) s (store.siftDown 0 last (store.swap s 0 (last + 1))) := by
  obtain ⟨hatZero, hatLast, hat⟩ := item_swap_spec (Nat.zero_lt_of_lt hsize) hsize
  have hsifting : store.IsSifting 0 0 last (store.swap s 0 (last + 1)) := by
    constructor
    · intro parent child _ hne hchild hlast
      have hless := hchild.lt
      rw [hat parent hne (by omega), hat child (by omega) (by omega)]
      exact h.heap parent child (Nat.zero_le _) hchild (by omega)
    · intro parent child _ hparent
      exact absurd hparent.lt (Nat.not_lt_zero parent)
  obtain ⟨hheap, hsame⟩ := siftDown_spec hsifting le_rfl (by rw [store.size_swap]; omega)
  have hswap : store.Rearranged (last + 1) s (store.swap s 0 (last + 1)) :=
    rearranged_swap (Nat.zero_le _) le_rfl hsize
  generalize hnext : store.siftDown 0 last (store.swap s 0 (last + 1)) = next at hheap hsame ⊢
  have hsizes : store.size next = store.size s := by rw [hsame.1, store.size_swap]
  -- Behind the new last position stand the old root and then what stood there before.
  have hroot : store.item next (last + 1) = store.item s 0 := by
    rw [hsame.item_eq (by omega), hatLast]
  have hbehind : ∀ j, last + 1 < j → store.item next j = store.item s j := by
    intro j hj
    rw [hsame.item_eq (by omega), hat j (by omega) (by omega)]
  refine ⟨⟨hheap, ?_, ?_⟩, hswap.trans (hsame.mono (by omega))⟩
  · intro i j hi hij hj
    by_cases hfirst : i = last + 1
    · by_cases hsecond : j = last + 1
      · rw [hfirst, hsecond]
      · rw [hfirst, hroot, hbehind j (by omega)]
        exact h.bounded 0 j (Nat.zero_le _) (by omega) (by omega)
    · rw [hbehind i (by omega), hbehind j (by omega)]
      exact h.sorted i j (by omega) hij (by omega)
  · intro i j hi hj hjsize
    have hbound : ∀ k ≤ last + 1, store.item s k ≤ store.item next j := by
      intro k hk
      by_cases hfirst : j = last + 1
      · rw [hfirst, hroot]
        exact h.heap.item_le_root k hk
      · rw [hbehind j (by omega)]
        exact h.bounded k j hk (by omega) (by omega)
    have hswapped : ∀ k ≤ last, store.item (store.swap s 0 (last + 1)) k ≤ store.item next j := by
      intro k hk
      by_cases hzero : k = 0
      · rw [hzero, hatZero]
        exact hbound (last + 1) le_rfl
      · rw [hat k hzero (by omega)]
        exact hbound k (by omega)
    exact hsame.item_le hswapped hi

theorem sortDown_spec (h : store.IsSorting last s) (hsize : last < store.size s) :
    (∀ i j, i ≤ j → j < store.size s →
        store.item (store.sortDown last s) i ≤ store.item (store.sortDown last s) j) ∧
      store.Rearranged last s (store.sortDown last s) := by
  induction last generalizing s with
  | zero =>
    refine ⟨fun i j hij hj ↦ ?_, Rearranged.refl s⟩
    by_cases hzero : j = 0
    · have : i = j := by omega
      rw [this]
    · by_cases hfirst : i = 0
      · exact h.bounded i j (by omega) (by omega) hj
      · exact h.sorted i j (by omega) hij hj
  | succ last ih =>
    obtain ⟨hsorting, hsame⟩ := h.step hsize
    obtain ⟨hsorted, hsame'⟩ := ih hsorting (by rw [hsame.1]; omega)
    refine ⟨fun i j hij hj ↦ hsorted i j hij (hsame.1 ▸ hj), hsame.trans (hsame'.mono (by omega))⟩

/-- Heapsort sorts the items of the store. -/
theorem heapSort_spec (s : σ) : (∀ i j, i ≤ j → j < store.size s →
        store.item (store.heapSort s) i ≤ store.item (store.heapSort s) j) ∧
      store.Rearranged (store.size s - 1) s (store.heapSort s) := by
  by_cases hempty : store.size s = 0
  · have hsame : store.heapSort s = s := by
      rw [heapSort, hempty]
      rfl
    rw [hsame]
    exact ⟨fun i j _ hj ↦ by omega, Rearranged.refl s⟩
  · have hleaves : store.IsHeap (store.size s / 2) (store.size s - 1) s := by
      intro parent child hlow hchild hlast
      unfold IsChild at hchild
      omega
    obtain ⟨hheap, hsame⟩ := heapify_spec hleaves (by omega)
    have hsorting : store.IsSorting (store.size s - 1)
        (store.heapify (store.size s - 1) (store.size s / 2) s) := by
      refine ⟨hheap, fun i j hi hij hj ↦ ?_, fun i j hi hj hjsize ↦ ?_⟩ <;> rw [hsame.1] at * <;> omega
    obtain ⟨hsorted, hsame'⟩ := sortDown_spec hsorting (by rw [hsame.1]; omega)
    exact ⟨fun i j hij hj ↦ hsorted i j hij (hsame.1.symm ▸ hj), hsame.trans hsame'⟩

/-! ## Duplicates -/

/-- Two positions hold the same item. -/
def HasDuplicate (store : HeapStore σ α) (s : σ) : Prop :=
  ∃ i j, i ≠ j ∧ i < store.size s ∧ j < store.size s ∧ store.item s i = store.item s j

theorem Rearranged.hasDuplicate (h : store.Rearranged (store.size s - 1) s s')
    (hduplicate : store.HasDuplicate s') : store.HasDuplicate s := by
  obtain ⟨i, j, hne, hi, hj, heq⟩ := hduplicate
  obtain ⟨move, hinjective, hrange, hitem⟩ := h.exists_move
  rw [h.1] at hi hj
  have hmovei := hrange i (by omega)
  have hmovej := hrange j (by omega)
  exact ⟨move i, move j, hinjective.ne hne, by omega, by omega, by rw [← hitem, ← hitem, heq]⟩

/-- Sorted items have a duplicate exactly when two neighbours are equal. -/
theorem exists_neighbours_iff
    (hsorted : ∀ i j, i ≤ j → j < store.size s → store.item s i ≤ store.item s j) :
    (∃ k, k + 1 < store.size s ∧ store.item s (k + 1) = store.item s k) ↔ store.HasDuplicate s := by
  constructor
  · rintro ⟨k, hk, heq⟩
    exact ⟨k + 1, k, by omega, hk, by omega, heq⟩
  · rintro ⟨i, j, hne, hi, hj, heq⟩
    wlog hlt : i < j generalizing i j with hwlog
    · exact hwlog j i hne.symm hj hi heq.symm (by omega)
    refine ⟨i, by omega, le_antisymm ?_ (hsorted i (i + 1) (by omega) (by omega))⟩
    calc
      store.item s (i + 1) ≤ store.item s j := hsorted (i + 1) j (by omega) hj
      _ = store.item s i := heq.symm

/-- Equal neighbours after heapsort are the duplicates before it. -/
theorem exists_neighbours_heapSort_iff (s : σ) : (∃ k, k + 1 < store.size s ∧
      store.item (store.heapSort s) (k + 1) = store.item (store.heapSort s) k) ↔ store.HasDuplicate s := by
  obtain ⟨hsorted, hsame⟩ := store.heapSort_spec s
  have hsize : store.size (store.heapSort s) = store.size s := hsame.1
  rw [← hsize] at hsorted ⊢
  rw [exists_neighbours_iff hsorted]
  constructor
  · exact hsame.hasDuplicate
  · exact (hsize ▸ hsame.symm : store.Rearranged (store.size (store.heapSort s) - 1) _ _).hasDuplicate

end HeapStore

end GajaeCode.Chain
