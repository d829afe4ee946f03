import Mathlib.Data.Finset.Sort
import Mathlib.Data.Fintype.Lattice

/-!
# Path locks

Interleaved calls of `withEditPathMutation`, which lock their paths in ascending order.
-/

namespace GajaeCode.Edit

open Function List

variable {π τ κ : Type} [LinearOrder κ]

/-- The state of `createAsyncMutex`, with the history of its requests and grants. -/
structure AsyncMutex (τ : Type) where
  locked : Bool := false
  waiters : List τ := []
  requested : List τ := []
  granted : List τ := []

namespace AsyncMutex

variable (mutex : AsyncMutex τ) {queue : List τ}

def acquire (caller : τ) : AsyncMutex τ :=
  let asked := { mutex with requested := mutex.requested ++ [caller] }
  if mutex.locked then { asked with waiters := mutex.waiters ++ [caller] }
  else { asked with locked := true, granted := mutex.granted ++ [caller] }

def release : AsyncMutex τ :=
  match mutex.waiters with
  | next :: rest => { mutex with waiters := rest, granted := mutex.granted ++ [next] }
  | [] => { mutex with locked := false }

/-- The mutex is one queue: its first caller has the lock and the others wait. -/
def IsQueue (queue : List τ) : Prop :=
  mutex.locked = !queue.isEmpty ∧ mutex.waiters = queue.tail ∧
    mutex.requested = mutex.granted ++ queue.tail

variable {mutex}

theorem IsQueue.acquire (h : mutex.IsQueue queue) (caller : τ) :
    (mutex.acquire caller).IsQueue (queue ++ [caller]) := by
  cases queue <;> simp_all [IsQueue, AsyncMutex.acquire]

theorem IsQueue.release (h : mutex.IsQueue queue) : mutex.release.IsQueue queue.tail := by
  rcases queue with _ | ⟨_, _ | _⟩ <;> simp_all [IsQueue, AsyncMutex.release]

end AsyncMutex

/-- A call of `withEditPathMutation`: the paths it has asked for, last one first, and the others. -/
structure PathCall (κ : Type) where
  asked : List κ := []
  todo : List κ

/-- The mutexes of `pathMutexes` and the calls. -/
structure PathLocks (τ κ : Type) where
  mutexes : κ → AsyncMutex τ
  calls : τ → PathCall κ

namespace PathLocks

/-- No call has begun; `unique` is the sorted set of its resolved paths. -/
def start (resolve : π → κ) (absolutePaths : τ → List π) : PathLocks τ κ where
  mutexes _ := {}
  calls caller := { todo := ((absolutePaths caller).map resolve).toFinset.sort }

/-- The mutexes and the calls agree, and a call waits for its greatest path only. -/
structure Sound (locks : PathLocks τ κ) (queue : κ → List τ) : Prop where
  mutex path : (locks.mutexes path).IsQueue (queue path)
  nodup path : (queue path).Nodup
  asked path caller : path ∈ (locks.calls caller).asked ↔ caller ∈ queue path
  last path caller : caller ∈ (queue path).tail → ∀ held ∈ (locks.calls caller).asked, held ≤ path
  ordered caller : ((locks.calls caller).todo.reverse ++ (locks.calls caller).asked).Pairwise (· > ·)

theorem start_sound (resolve : π → κ) (paths : τ → List π) :
    (start resolve paths).Sound fun _ ↦ [] := by
  constructor <;> simp [start, AsyncMutex.IsQueue, pairwise_reverse, (Finset.sortedLT_sort _).pairwise]

variable {locks : PathLocks τ κ} {queue : κ → List τ} {path : κ} {caller : τ}

theorem Sound.queue_eq (h : locks.Sound queue) (hasked : path ∈ (locks.calls caller).asked)
    (hfree : caller ∉ (queue path).tail) : ∃ rest, queue path = caller :: rest := by
  have hmem := (h.asked path caller).mp hasked
  cases hqueue : queue path with
  | nil => simp [hqueue] at hmem
  | cons owner rest => grind

variable [DecidableEq τ]

/-- The path whose mutex has not resumed the call. -/
def awaited (locks : PathLocks τ κ) (caller : τ) : Option κ :=
  (locks.calls caller).asked.find? fun path ↦ caller ∈ (locks.mutexes path).waiters

/-- A call goes on to its next path, or leaves its innermost one after its body or a failure. -/
def step (locks : PathLocks τ κ) (leaves : Bool) (caller : τ) : PathLocks τ κ :=
  match leaves, locks.awaited caller, locks.calls caller with
  | false, none, ⟨asked, path :: todo⟩ =>
      { mutexes := update locks.mutexes path ((locks.mutexes path).acquire caller)
        calls := update locks.calls caller ⟨path :: asked, todo⟩ }
  | true, none, ⟨path :: asked, _⟩ =>
      { mutexes := update locks.mutexes path (locks.mutexes path).release
        calls := update locks.calls caller ⟨asked, []⟩ }
  | _, _, _ => locks

theorem Sound.notMem_tail (h : locks.Sound queue) (hfree : locks.awaited caller = none) (path : κ) :
    caller ∉ (queue path).tail := by
  intro htail
  have hasked := (h.asked path caller).mpr (mem_of_mem_tail htail)
  simpa [(h.mutex path).2.1, htail] using find?_eq_none.mp hfree path hasked

theorem Sound.step (h : locks.Sound queue) (leaves : Bool) (caller : τ) :
    ∃ queue, (locks.step leaves caller).Sound queue := by
  obtain ⟨hmutex, hnodup, hasked, hlast, hordered⟩ := id h
  have hcaller := hordered caller
  unfold PathLocks.step
  split
  case h_1 asked path todo hfree hcall =>
    simp only [hcall, reverse_cons, append_assoc, singleton_append] at hcaller
    have hnew := (pairwise_cons.mp (pairwise_append.mp hcaller).2.1).1
    have hacquire := (hmutex path).acquire caller
    have htail := h.notMem_tail hfree
    refine ⟨update queue path (queue path ++ [caller]), ?_⟩
    constructor <;> simp only [update_apply] <;> grind
  case h_2 path asked todo hfree hcall =>
    rw [hcall] at hcaller
    obtain ⟨hnew, hrest⟩ := pairwise_cons.mp (pairwise_append.mp hcaller).2.1
    have hrelease := (hmutex path).release
    have htail := h.notMem_tail hfree
    obtain ⟨rest, hqueue⟩ := h.queue_eq (hcall ▸ mem_cons_self) (htail path)
    refine ⟨update queue path (queue path).tail, ?_⟩
    constructor <;> simp only [update_apply] <;> grind [mem_of_mem_tail]
  case h_3 => exact ⟨queue, h⟩

/-- The call that waits for the greatest path waits for a call that waits for nothing. -/
theorem Sound.exists_free [Fintype τ] (h : locks.Sound queue)
    (hcaller : locks.awaited caller ≠ none) :
    ∃ owner, (locks.calls owner).asked ≠ [] ∧ locks.awaited owner = none := by
  have : Nonempty τ := ⟨caller⟩
  obtain ⟨last, hlast⟩ := Finite.exists_max (β := WithBot κ) locks.awaited
  obtain ⟨path, hpath⟩ := Option.ne_none_iff_exists'.mp fun hnone ↦
    hcaller (le_bot_iff.mp ((hlast caller).trans_eq hnone))
  have hwait {caller path} (hpath : locks.awaited caller = some path) : caller ∈ (queue path).tail := by
    simpa [(h.mutex path).2.1] using find?_some hpath
  obtain ⟨owner, rest, hqueue⟩ := exists_cons_of_ne_nil (ne_nil_of_mem (mem_of_mem_tail (hwait hpath)))
  have hasked : path ∈ (locks.calls owner).asked := (h.asked path owner).mpr (by simp [hqueue])
  refine ⟨owner, ne_nil_of_mem hasked, Option.eq_none_iff_forall_ne_some.mpr fun later hlater ↦ ?_⟩
  have hle := hlast owner
  rw [hlater, hpath] at hle
  have hsame := le_antisymm (h.last later owner (hwait hlater) path hasked) (WithBot.coe_le_coe.mp hle)
  grind [h.nodup path]

/-- Every interleaving keeps paths exclusive, serves requests in order and cannot deadlock. -/
theorem pathLocks_exclusive_fifo_live [Fintype τ] (resolve : π → κ) (absolutePaths : τ → List π)
    (steps : List (Bool × τ)) :
    let locks := steps.foldl (fun locks ↦ uncurry locks.step) (start resolve absolutePaths)
    (∀ path, Set.Subsingleton {caller | path ∈ (locks.calls caller).asked ∧
      caller ∉ (locks.mutexes path).waiters}) ∧
    (∀ path, (locks.mutexes path).requested = (locks.mutexes path).granted ++ (locks.mutexes path).waiters) ∧
    ∀ caller, locks.calls caller ≠ { todo := [] } →
      ∃ other, locks.calls other ≠ { todo := [] } ∧ locks.awaited other = none := by
  intro locks
  obtain ⟨queue, h⟩ : ∃ queue, locks.Sound queue :=
    foldlRecOn (motive := fun locks ↦ ∃ queue, Sound locks queue) steps _
      ⟨_, start_sound _ _⟩ fun _ ⟨_, h⟩ move _ ↦ h.step move.1 move.2
  refine ⟨fun path caller ⟨hleft, hfree⟩ other ⟨hright, hfree'⟩ ↦ ?_, fun path ↦ ?_, fun caller hwork ↦ ?_⟩
  · rw [(h.mutex path).2.1] at hfree hfree'
    obtain ⟨_, hqueue⟩ := h.queue_eq hleft hfree
    obtain ⟨_, hqueue'⟩ := h.queue_eq hright hfree'
    exact (cons.inj (hqueue.symm.trans hqueue')).1
  · rw [(h.mutex path).2.1, (h.mutex path).2.2]
  · by_cases hfree : locks.awaited caller = none
    · exact ⟨caller, hwork, hfree⟩
    · obtain ⟨other, hheld, hnone⟩ := h.exists_free hfree
      exact ⟨other, fun hdone ↦ hheld (by rw [hdone]), hnone⟩

end PathLocks

end GajaeCode.Edit
