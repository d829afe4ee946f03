import Mathlib.Data.List.Nodup
import Mathlib.Logic.Relation

/-!
# Downstream closures

Nodes name their predecessors. A closure starts from some names and passes over the nodes again
and again, adding every node with a predecessor among the names so far, until a pass adds nothing.
It ends with exactly the names that are reached from the first ones along the edges.
-/

namespace GajaeCode.Chain

open List

variable {κ ν : Type} (name : ν → κ) (predecessors : ν → List κ)

/-- What is reached from a seed along the edges of some nodes. -/
inductive Downstream (nodes : List ν) (seed : κ → Prop) : κ → Prop
  | seed {key : κ} (h : seed key) : Downstream nodes seed key
  | step {node : ν} {key : κ} (hnode : node ∈ nodes) (hkey : key ∈ predecessors node)
      (h : Downstream nodes seed key) : Downstream nodes seed (name node)

/-- Every node with a predecessor among the names is among them itself. -/
def DownwardClosed (nodes : List ν) (names : List κ) : Prop :=
  ∀ node ∈ nodes, ∀ key ∈ predecessors node, key ∈ names → name node ∈ names

theorem downstream_iff {nodes : List ν} {seed : κ → Prop} {key : κ} :
    Downstream name predecessors nodes seed key ↔ ∃ first, seed first ∧ Relation.ReflTransGen
      (fun key next ↦ ∃ node ∈ nodes, key ∈ predecessors node ∧ name node = next) first key := by
  constructor
  · intro h
    induction h with
    | seed h => exact ⟨_, h, .refl⟩
    | step hnode hkey _ ih =>
      obtain ⟨first, hfirst, hpath⟩ := ih
      exact ⟨first, hfirst, hpath.tail ⟨_, hnode, hkey, rfl⟩⟩
  · rintro ⟨first, hfirst, hpath⟩
    induction hpath with
    | refl => exact .seed hfirst
    | tail _ hedge ih =>
      obtain ⟨node, hnode, hkey, rfl⟩ := hedge
      exact .step hnode hkey ih

variable [DecidableEq κ]

/-- One node of a pass: the names so far, and whether the pass has added one. -/
def closureStep (found : List κ × Bool) (node : ν) : List κ × Bool :=
  if name node ∉ found.1 ∧ ∃ key ∈ predecessors node, key ∈ found.1 then
    (found.1 ++ [name node], true)
  else found

def closurePass (nodes : List ν) (names : List κ) : List κ × Bool :=
  nodes.foldl (closureStep name predecessors) (names, false)

def closureLoop (nodes : List ν) : ℕ → List κ → List κ
  | 0, names => names
  | fuel + 1, names =>
      if (closurePass name predecessors nodes names).2 then
        closureLoop nodes fuel (closurePass name predecessors nodes names).1
      else (closurePass name predecessors nodes names).1

/-- Every pass but the last adds the name of a node, so there are no more passes than this. -/
def downstreamClosure (seeds : List κ) (nodes : List ν) : List κ :=
  closureLoop name predecessors nodes (nodes.length + 1) seeds

section

variable {name predecessors}
  {found : List κ × Bool} {seed : κ → Prop} {key : κ} {nodes : List ν} {names : List κ}

theorem mem_closureStep {node : ν} (h : key ∈ found.1) :
    key ∈ (closureStep name predecessors found node).1 := by
  unfold closureStep
  split_ifs
  · exact mem_append_left _ h
  · exact h

theorem mem_foldl_closureStep (nodes : List ν)
    (h : key ∈ found.1) : key ∈ (nodes.foldl (closureStep name predecessors) found).1 := by
  induction nodes generalizing found with
  | nil => exact h
  | cons node rest ih => exact ih (mem_closureStep h)

/-- A pass adds nothing and the names are closed, or it reaches a node that was not reached before. -/
theorem foldl_closureStep_cases (nodes : List ν) (found : List κ × Bool) :
    (nodes.foldl (closureStep name predecessors) found = found ∧
        DownwardClosed name predecessors nodes found.1) ∨
      ((nodes.foldl (closureStep name predecessors) found).2 ∧ ∃ node ∈ nodes, name node ∉ found.1 ∧
        name node ∈ (nodes.foldl (closureStep name predecessors) found).1) := by
  induction nodes generalizing found with
  | nil => exact .inl ⟨rfl, forall_mem_nil _⟩
  | cons node rest ih =>
    rw [foldl_cons]
    by_cases hadds : name node ∉ found.1 ∧ ∃ key ∈ predecessors node, key ∈ found.1
    · have hstep : closureStep name predecessors found node = (found.1 ++ [name node], true) := if_pos hadds
      rw [hstep]
      refine .inr ⟨?_, node, mem_cons_self, hadds.1, mem_foldl_closureStep rest (by simp)⟩
      rcases ih (found.1 ++ [name node], true) with ⟨hsame, -⟩ | ⟨hloud, -⟩
      · rw [hsame]
      · exact hloud
    · have hstep : closureStep name predecessors found node = found := if_neg hadds
      rw [hstep]
      rcases ih found with ⟨hsame, hclosed⟩ | ⟨hloud, other, hother, hnew⟩
      · refine .inl ⟨hsame, forall_mem_cons.mpr ⟨fun key hkey hmem ↦ ?_, hclosed⟩⟩
        by_contra hnode
        exact hadds ⟨hnode, key, hkey, hmem⟩
      · exact .inr ⟨hloud, other, mem_cons_of_mem _ hother, hnew⟩

theorem downstream_of_mem_foldl {all : List ν} (hnodes : ∀ node ∈ nodes, node ∈ all)
    (hfound : ∀ key ∈ found.1, Downstream name predecessors all seed key) :
    ∀ key ∈ (nodes.foldl (closureStep name predecessors) found).1,
      Downstream name predecessors all seed key := by
  induction nodes generalizing found with
  | nil => exact hfound
  | cons node rest ih =>
    rw [forall_mem_cons] at hnodes
    apply ih hnodes.2
    unfold closureStep
    split_ifs with hadds
    · obtain ⟨-, key, hkey, hmem⟩ := hadds
      rw [forall_mem_append, forall_mem_singleton]
      exact ⟨hfound, .step hnodes.1 hkey (hfound key hmem)⟩
    · exact hfound

end

section

variable {name predecessors} {nodes : List ν} {seed : κ → Prop} {key : κ} {names : List κ}

/-- How many nodes are not reached yet. -/
def unreached (name : ν → κ) (nodes : List ν) (names : List κ) : ℕ :=
  nodes.countP fun node ↦ name node ∉ names

theorem unreached_lt {names' : List κ} (hsubset : ∀ key ∈ names, key ∈ names')
    {node : ν} (hnode : node ∈ nodes) (hbefore : name node ∉ names) (hafter : name node ∈ names') :
    unreached name nodes names' < unreached name nodes names := by
  have hle (nodes : List ν) : nodes.countP (fun node ↦ name node ∉ names') ≤
      nodes.countP (fun node ↦ name node ∉ names) := by
    refine countP_mono_left fun other _ h ↦ ?_
    rw [decide_eq_true_eq] at h ⊢
    exact fun hmem ↦ h (hsubset _ hmem)
  obtain ⟨front, rest, rfl⟩ := append_of_mem hnode
  have hfront := hle front
  have hrest := hle rest
  simp only [unreached, countP_append, countP_cons, hbefore, hafter, not_true_eq_false, not_false_eq_true,
    decide_false, decide_true, if_true, Bool.false_eq_true, if_false]
  omega

theorem closureLoop_spec {fuel : ℕ} (hfuel : unreached name nodes names < fuel)
    (hnames : ∀ key ∈ names, Downstream name predecessors nodes seed key) :
    (∀ key ∈ names, key ∈ closureLoop name predecessors nodes fuel names) ∧
      DownwardClosed name predecessors nodes (closureLoop name predecessors nodes fuel names) ∧
      ∀ key ∈ closureLoop name predecessors nodes fuel names,
        Downstream name predecessors nodes seed key := by
  induction fuel generalizing names with
  | zero => omega
  | succ fuel ih =>
    have hsubset : ∀ key ∈ names, key ∈ (closurePass name predecessors nodes names).1 :=
      fun key hkey ↦ mem_foldl_closureStep nodes hkey
    have hsound : ∀ key ∈ (closurePass name predecessors nodes names).1,
        Downstream name predecessors nodes seed key :=
      downstream_of_mem_foldl (fun _ hnode ↦ hnode) hnames
    rw [closureLoop]
    rcases foldl_closureStep_cases nodes (names, false) with
      ⟨hsame, hclosed⟩ | ⟨hadds, node, hnode, hbefore, hafter⟩
    · have hpass : closurePass name predecessors nodes names = (names, false) := hsame
      rw [hpass] at hsound ⊢
      exact ⟨fun key hkey ↦ hkey, hclosed, hsound⟩
    · have hloud : (closurePass name predecessors nodes names).2 := hadds
      rw [if_pos hloud]
      have hless := unreached_lt hsubset hnode hbefore hafter
      obtain ⟨hkeep, hclosed, hreached⟩ := ih (by omega) hsound
      exact ⟨fun key hkey ↦ hkeep key (hsubset key hkey), hclosed, hreached⟩

/-- The closure is what is reached from the seeds. -/
theorem mem_downstreamClosure_iff {seeds : List κ} :
    key ∈ downstreamClosure name predecessors seeds nodes ↔
      Downstream name predecessors nodes (· ∈ seeds) key := by
  have hfuel : unreached name nodes seeds < nodes.length + 1 := Nat.lt_succ_of_le countP_le_length
  have hseeds : ∀ key ∈ seeds, Downstream name predecessors nodes (· ∈ seeds) key :=
    fun key hkey ↦ Downstream.seed hkey
  obtain ⟨hkeep, hclosed, hsound⟩ := closureLoop_spec hfuel hseeds
  refine ⟨hsound key, fun h ↦ ?_⟩
  induction h with
  | seed h => exact hkeep _ h
  | step hnode hkey _ ih => exact hclosed _ hnode _ hkey ih

end

end GajaeCode.Chain
