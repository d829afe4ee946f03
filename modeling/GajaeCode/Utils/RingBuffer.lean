import Mathlib.Data.List.Basic
import Mathlib.Data.Nat.ModEq
import Mathlib.Data.PNat.Notation
import Mathlib.Logic.Function.Basic

/-!
# A ring buffer refines a bounded deque

`RingBuffer` keeps its items in an array, from a head slot on and around its end. Every operation
is compared with a list that drops from the opposite end when it is full.
-/

namespace GajaeCode.Utils

variable {T : Type} {capacity : ℕ}

/-- `none` is a slot that holds `undefined`. -/
structure RingBuffer (T : Type) (capacity : ℕ) where
  buf : ℕ → Option T
  head : ℕ
  size : ℕ
  head_lt : head < capacity
  size_le : size ≤ capacity

namespace RingBuffer

def create (capacity : ℕ+) : RingBuffer T capacity := ⟨fun _ ↦ none, 0, 0, capacity.2, Nat.zero_le _⟩

variable (ring : RingBuffer T capacity)

/-- The array index of the item `i` places behind the head. -/
def slot (i : ℕ) : ℕ := (ring.head + i) % capacity

theorem slot_lt (i : ℕ) : ring.slot i < capacity := Nat.mod_lt _ (ring.head.zero_le.trans_lt ring.head_lt)

def push (item : T) : RingBuffer T capacity × Option T :=
  let idx := ring.slot ring.size
  let buf := Function.update ring.buf idx (some item)
  if h : ring.size = capacity then
    ({ ring with buf, head := ring.slot 1, head_lt := ring.slot_lt 1 }, ring.buf idx)
  else ({ ring with buf, size := ring.size + 1, size_le := ring.size_le.lt_of_ne h }, none)

def shift : RingBuffer T capacity × Option T :=
  if ring.size = 0 then (ring, none)
  else
    ({ buf := Function.update ring.buf ring.head none, head := ring.slot 1, size := ring.size - 1
       head_lt := ring.slot_lt 1, size_le := (Nat.sub_le _ _).trans ring.size_le }, ring.buf ring.head)

def pop : RingBuffer T capacity × Option T :=
  if ring.size = 0 then (ring, none)
  else
    let idx := ring.slot (ring.size - 1)
    ({ ring with
       buf := Function.update ring.buf idx none, size := ring.size - 1
       size_le := (Nat.sub_le _ _).trans ring.size_le }, ring.buf idx)

def unshift (item : T) : RingBuffer T capacity × Option T :=
  let head := ring.slot (capacity - 1)
  let buf := Function.update ring.buf head (some item)
  if h : ring.size < capacity then
    ({ buf, head, size := ring.size + 1, head_lt := ring.slot_lt _, size_le := h }, none)
  else ({ ring with buf, head, head_lt := ring.slot_lt _ }, ring.buf head)

def atIndex (index : ℤ) : Option T :=
  let index := if index < 0 then index + ring.size else index
  if index < 0 ∨ ring.size ≤ index then none else ring.buf (ring.slot index.toNat)

def clear : RingBuffer T capacity :=
  ⟨fun _ ↦ none, 0, 0, ring.head.zero_le.trans_lt ring.head_lt, Nat.zero_le _⟩

def iterate : List (Option T) := (List.range ring.size).map fun i ↦ ring.buf (ring.slot i)

def slice (start stop : ℕ) : List (Option T) := (List.range' start (stop - start)).map ring.buf

def toArray : List (Option T) :=
  if ring.head + ring.size ≤ capacity then ring.slice ring.head (ring.head + ring.size)
  else ring.slice ring.head capacity ++ ring.slice 0 (ring.slot ring.size)

end RingBuffer

/-! ## The deque -/

inductive RingOp (T : Type)
  | push (item : T)
  | unshift (item : T)
  | pop
  | shift
  | atIndex (index : ℤ)
  | clear

def RingBuffer.perform (ring : RingBuffer T capacity) : RingOp T → RingBuffer T capacity × Option T
  | .push item => ring.push item
  | .unshift item => ring.unshift item
  | .pop => ring.pop
  | .shift => ring.shift
  | .atIndex index => (ring, ring.atIndex index)
  | .clear => (ring.clear, none)

/-- A list of at most `capacity` items, with `Array.prototype.at`. -/
def dequeStep (capacity : ℕ) (items : List T) : RingOp T → List T × Option T
  | .push item =>
      if items.length < capacity then (items ++ [item], none) else (items.tail ++ [item], items.head?)
  | .unshift item =>
      if items.length < capacity then (item :: items, none) else (item :: items.dropLast, items.getLast?)
  | .pop => (items.dropLast, items.getLast?)
  | .shift => (items.tail, items.head?)
  | .atIndex index =>
      let index := if index < 0 then index + items.length else index
      (items, if index < 0 ∨ items.length ≤ index then none else items[index.toNat]?)
  | .clear => ([], none)

/-! ## The refinement -/

namespace RingBuffer

variable {ring : RingBuffer T capacity} {items : List T} {i j : ℕ}

/-- The slots from the head on hold the items, and the other ones are empty. -/
structure Holds (ring : RingBuffer T capacity) (items : List T) : Prop where
  size_eq : ring.size = items.length
  slots : ∀ i < capacity, ring.buf (ring.slot i) = items[i]?

theorem slot_inj (hi : i < capacity) (hj : j < capacity) (h : ring.slot i = ring.slot j) : i = j :=
  Nat.ModEq.eq_of_lt_of_lt (Nat.ModEq.add_left_cancel' _ h) hi hj

theorem slot_zero : ring.slot 0 = ring.head := Nat.mod_eq_of_lt ring.head_lt

theorem slot_capacity : ring.slot capacity = ring.head := by
  rw [slot, Nat.add_mod_right, Nat.mod_eq_of_lt ring.head_lt]

theorem slot_slot (i j : ℕ) : (ring.slot i + j) % capacity = ring.slot (i + j) := by
  rw [slot, Nat.mod_add_mod, Nat.add_assoc, slot]

theorem Holds.update (h : ring.Holds items) (hi : i < capacity) (value : Option T) (hj : j < capacity) :
    Function.update ring.buf (ring.slot i) value (ring.slot j) = if j = i then value else items[j]? := by
  by_cases hji : j = i
  · rw [hji, Function.update_self, if_pos rfl]
  · rw [Function.update_of_ne fun heq ↦ hji (slot_inj hj hi heq), if_neg hji, h.slots j hj]

/-- After the head slot is rewritten and the head moves on, that slot is the last one. -/
theorem Holds.rotate (h : ring.Holds items) (value : Option T) (hj : j < capacity) :
    Function.update ring.buf ring.head value ((ring.slot 1 + j) % capacity) =
      if j + 1 = capacity then value else items[j + 1]? := by
  rw [slot_slot, Nat.add_comm]
  by_cases hlast : j + 1 = capacity
  · rw [hlast, slot_capacity, Function.update_self, if_pos rfl]
  · rw [← slot_zero, h.update (by omega) value (by omega), if_neg (by omega), if_neg hlast]

theorem Holds.head (h : ring.Holds items) : ring.buf ring.head = items.head? := by
  rw [← slot_zero, h.slots 0 (ring.head.zero_le.trans_lt ring.head_lt), List.head?_eq_getElem?]

theorem Holds.perform (h : ring.Holds items) (op : RingOp T) :
    (ring.perform op).1.Holds (dequeStep capacity items op).1 ∧
      (ring.perform op).2 = (dequeStep capacity items op).2 := by
  have hpos := ring.head.zero_le.trans_lt ring.head_lt
  have hsize := h.size_eq
  have hle := ring.size_le
  cases op with
  | push item =>
    simp only [RingBuffer.perform, push, dequeStep]
    by_cases hfull : ring.size = capacity
    · have hlast : ring.slot ring.size = ring.head := by rw [hfull, slot_capacity]
      rw [dif_pos hfull, if_neg (by omega), hlast]
      refine ⟨⟨by simp; omega, fun j hj ↦ (h.rotate _ hj).trans ?_⟩, h.head⟩
      grind
    · rw [dif_neg hfull, if_pos (by omega)]
      refine ⟨⟨by simp [hsize], fun j hj ↦ (h.update (by omega) _ hj).trans ?_⟩, rfl⟩
      grind
  | unshift item =>
    have hread {j : ℕ} (hj : j < capacity) : Function.update ring.buf (ring.slot (capacity - 1)) (some item)
        ((ring.slot (capacity - 1) + j) % capacity) = (item :: items)[j]? := by
      rw [slot_slot]
      rcases j with - | j
      · exact Function.update_self _ _ _
      · have hslot : ring.slot (capacity - 1 + (j + 1)) = ring.slot j := by
          rw [slot, show ring.head + (capacity - 1 + (j + 1)) = ring.head + j + capacity by omega,
            Nat.add_mod_right, slot]
        rw [hslot, h.update (by omega) _ (by omega), if_neg (by omega), List.getElem?_cons_succ]
    simp only [RingBuffer.perform, unshift, dequeStep]
    by_cases hfull : ring.size < capacity
    · rw [dif_pos hfull, if_pos (by omega)]
      exact ⟨⟨by simp [hsize], fun j hj ↦ hread hj⟩, rfl⟩
    · rw [dif_neg hfull, if_neg (by omega), h.slots _ (by omega)]
      refine ⟨⟨by simp; omega, fun j hj ↦ (hread hj).trans ?_⟩, ?_⟩
      · grind
      · grind
  | pop =>
    simp only [RingBuffer.perform, pop, dequeStep]
    by_cases hempty : ring.size = 0
    · obtain rfl := List.eq_nil_of_length_eq_zero (hsize.symm.trans hempty)
      rw [if_pos hempty]
      exact ⟨h, rfl⟩
    · rw [if_neg hempty, h.slots _ (by omega)]
      refine ⟨⟨by simp [hsize], fun j hj ↦ (h.update (by omega) _ hj).trans ?_⟩, ?_⟩
      · grind
      · grind
  | shift =>
    simp only [RingBuffer.perform, shift, dequeStep]
    by_cases hempty : ring.size = 0
    · obtain rfl := List.eq_nil_of_length_eq_zero (hsize.symm.trans hempty)
      rw [if_pos hempty]
      exact ⟨h, rfl⟩
    · rw [if_neg hempty]
      refine ⟨⟨by simp [hsize], fun j hj ↦ (h.rotate _ hj).trans ?_⟩, h.head⟩
      grind
  | atIndex index =>
    simp only [RingBuffer.perform, atIndex, dequeStep, ← hsize]
    refine ⟨h, ?_⟩
    generalize (if index < 0 then index + (ring.size : ℤ) else index) = place
    split_ifs with hout
    · rfl
    · exact h.slots _ (by omega)
  | clear => exact ⟨⟨rfl, fun _ _ ↦ rfl⟩, rfl⟩

theorem Holds.iterate (h : ring.Holds items) : ring.iterate = items.map some := by
  refine List.ext_getElem (by simp [RingBuffer.iterate, h.size_eq]) fun i hi _ ↦ ?_
  simp only [RingBuffer.iterate, List.length_map, List.length_range] at hi
  simp [RingBuffer.iterate, h.slots i (hi.trans_le ring.size_le), ← h.size_eq, hi]

theorem slot_of_wraps {i : ℕ} (h : capacity ≤ ring.head + i) (hi : i ≤ capacity) :
    ring.slot i = ring.head + i - capacity := by
  have := ring.head_lt
  rw [slot, Nat.mod_eq_sub_mod h, Nat.mod_eq_of_lt (by omega)]

theorem toArray_eq_iterate : ring.toArray = ring.iterate := by
  have hhead := ring.head_lt
  have hsize := ring.size_le
  have hstraight {i : ℕ} (h : ring.head + i < capacity) : ring.slot i = ring.head + i := Nat.mod_eq_of_lt h
  unfold toArray
  split_ifs with hfits
  · refine List.ext_getElem (by simp [slice, RingBuffer.iterate]) fun i hi hi' ↦ ?_
    simp only [RingBuffer.iterate, List.length_map, List.length_range] at hi'
    simp [slice, RingBuffer.iterate, hstraight (show ring.head + i < capacity by omega)]
  · rw [slot_of_wraps (by omega) hsize]
    refine List.ext_getElem (by simp [slice, RingBuffer.iterate]; omega) fun i hi hi' ↦ ?_
    simp only [RingBuffer.iterate, List.length_map, List.length_range] at hi'
    rcases Nat.lt_or_ge (ring.head + i) capacity with h | h
    · simp [slice, RingBuffer.iterate, hstraight h, show i < capacity - ring.head by omega]
    · rw [List.getElem_append_right (by simp [slice]; omega)]
      simp [slice, RingBuffer.iterate, slot_of_wraps h (by omega)]
      congr 1
      omega

theorem Holds.run (h : ring.Holds items) (ops : List (RingOp T)) :
    (ops.foldl (fun ring op ↦ (ring.perform op).1) ring).Holds
      (ops.foldl (fun items op ↦ (dequeStep capacity items op).1) items) := by
  induction ops generalizing ring items with
  | nil => exact h
  | cons op ops ih => exact ih (h.perform op).1

/-- After any operations the results, the length, the iteration and `toArray` are those of the list. -/
theorem perform_run_eq_dequeStep (capacity : ℕ+) (ops : List (RingOp T)) (op : RingOp T) :
    let ring := ops.foldl (fun ring op ↦ (ring.perform op).1) (create capacity)
    let items := ops.foldl (fun items op ↦ (dequeStep capacity items op).1) []
    (ring.perform op).2 = (dequeStep capacity items op).2 ∧ ring.size = items.length ∧
      ring.iterate = items.map some ∧ ring.toArray = items.map some := by
  have hcreate : (create (T := T) capacity).Holds [] := ⟨rfl, fun _ _ ↦ rfl⟩
  have hholds := hcreate.run ops
  exact ⟨(hholds.perform op).2, hholds.size_eq, hholds.iterate, toArray_eq_iterate.trans hholds.iterate⟩

end RingBuffer

end GajaeCode.Utils
