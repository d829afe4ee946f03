import GajaeCode.Broker.ManagedDomain
import GajaeCode.Chain.Downstream
import GajaeCode.Chain.LastWrite

/-!
# Task definitions form a directed acyclic graph

`parseManagedTaskDefinitions` looks for cycles by a depth-first search that remembers the ids on
the way down and the ids that are done. Every id that is done has only finitely many paths into it,
so a search that ends well has seen no cycle. Without a cycle the way down never meets itself, so
the search is never deeper than the number of nodes.
-/

namespace GajaeCode.Broker

open Text Machine Chain Relation List

variable {nodes : List ManagedTaskDefinition} {visiting visited res : List JsString}
  {id : JsString} {fuel : ℕ}

/-- The edges of a task graph: the second id belongs to a node that names the first one. -/
def Successor (nodes : List ManagedTaskDefinition) (id next : JsString) : Prop :=
  ∃ node ∈ nodes, id ∈ node.predecessors ∧ node.id = next

structure IsDag (nodes : List ManagedTaskDefinition) : Prop where
  ids : (nodes.map ManagedTaskDefinition.id).Nodup
  predecessors : ∀ node ∈ nodes, node.predecessors.Nodup
  validations : ∀ node ∈ nodes, (node.validations.map ManagedValidation.name).Nodup
  exist : ∀ node ∈ nodes, ∀ id ∈ node.predecessors, id ∈ nodes.map ManagedTaskDefinition.id
  acyclic : ∀ id, ¬ TransGen (Successor nodes) id id

/-! ## What a search has seen -/

theorem visit_eq_ok_iff (hids : (nodes.map ManagedTaskDefinition.id).Nodup) :
    visit nodes (fuel + 1) visiting visited id = .ok res ↔ id ∉ visiting ∧
      if id ∈ visited then res = visited
      else ∃ node ∈ nodes, node.id = id ∧ node.predecessors.Nodup ∧ ∃ below,
        node.predecessors.foldlM (fun visited pred ↦ do
          requirePolicy (pred ∈ nodes.map ManagedTaskDefinition.id) "missing predecessor"
          visit nodes fuel (id :: visiting) visited pred) visited = .ok below ∧
        res = id :: below := by
  rw [visit, check_bind_eq_ok_iff, requirePolicy_eq_ok_iff, decide_eq_true_eq]
  apply and_congr_right'
  split_ifs
  · exact ⟨fun h ↦ (Except.ok.inj h).symm, fun h ↦ h ▸ rfl⟩
  · cases hfind : nodes.find? fun node ↦ node.id = id with
    | none =>
      rw [find?_eq_none] at hfind
      exact iff_of_false (by rintro ⟨⟩) fun ⟨node, hnode, hid, _⟩ ↦ hfind node hnode (decide_eq_true hid)
    | some node =>
      obtain ⟨hnode, hid⟩ := (find?_name_eq_some_iff hids).mp hfind
      rw [check_bind_eq_ok_iff, requireDistinct_eq_ok_iff, bind_eq_ok_iff]
      constructor
      · rintro ⟨hnodup, below, hbelow, ⟨⟩⟩
        exact ⟨node, hnode, hid, hnodup, below, hbelow, rfl⟩
      · rintro ⟨other, hother, hotherId, hnodup, below, hbelow, rfl⟩
        obtain rfl := inj_on_of_nodup_map hids hnode hother (hid.trans hotherId.symm)
        exact ⟨hnodup, below, hbelow, rfl⟩

/-- An id that is done: the predecessors of its node are in order, and no path runs into it forever. -/
structure Settled (nodes : List ManagedTaskDefinition) (id : JsString) : Prop where
  mem : id ∈ nodes.map ManagedTaskDefinition.id
  nodup : ∀ node ∈ nodes, node.id = id → node.predecessors.Nodup
  exist : ∀ node ∈ nodes, node.id = id → ∀ previous ∈ node.predecessors,
    previous ∈ nodes.map ManagedTaskDefinition.id
  acc : Acc (Successor nodes) id

theorem settled_visit (hids : (nodes.map ManagedTaskDefinition.id).Nodup)
    (h : visit nodes fuel visiting visited id = .ok res)
    (hvisited : ∀ id ∈ visited, Settled nodes id) :
    (∀ id ∈ res, Settled nodes id) ∧ id ∈ res ∧ visited ⊆ res := by
  induction fuel generalizing visiting visited id res with
  | zero => cases h
  | succ fuel ih =>
    obtain ⟨-, h⟩ := (visit_eq_ok_iff hids).mp h
    split_ifs at h with hdone
    · subst h
      exact ⟨hvisited, hdone, Subset.refl _⟩
    · obtain ⟨node, hnode, rfl, hnodup, below, hbelow, rfl⟩ := h
      obtain ⟨hsettled, hpreds, hsubset⟩ := forall_of_foldlM
        (fun _ _ _ h hkept ↦ ih (check_bind_eq_ok_iff.mp h).2 hkept) hbelow hvisited
      have hnodes {other} (hother : other ∈ nodes) (h : other.id = node.id) :
          other = node := inj_on_of_nodup_map hids hother hnode h
      have hnew : Settled nodes node.id := by
        refine ⟨mem_map_of_mem hnode, ?_, ?_, Acc.intro _ ?_⟩
        · intro other hother h
          exact hnodes hother h ▸ hnodup
        · intro other hother h prev hprev
          rw [hnodes hother h] at hprev
          exact (hsettled prev (hpreds hprev)).mem
        · rintro prev ⟨other, hother, hprev, h⟩
          rw [hnodes hother h] at hprev
          exact (hsettled prev (hpreds hprev)).acc
      exact ⟨forall_mem_cons.mpr ⟨hnew, hsettled⟩, mem_cons_self, subset_cons_of_subset _ hsubset⟩

/-- An id that is reached by finitely many paths only lies on no cycle. -/
theorem not_transGen_of_acc (h : Acc (Successor nodes) id) : ¬ TransGen (Successor nodes) id id := by
  induction h with
  | intro id _ ih =>
    intro hcycle
    obtain ⟨prev, hpath, hedge⟩ := TransGen.tail'_iff.mp hcycle
    exact ih prev hedge (TransGen.head' hedge hpath)

/-! ## A search without cycles -/

theorem exists_visit_eq_ok (hdag : IsDag nodes) (hfuel : nodes.length < fuel + visiting.length)
    (hnodup : visiting.Nodup) (hvisiting : ∀ next ∈ visiting,
      next ∈ nodes.map ManagedTaskDefinition.id ∧ TransGen (Successor nodes) id next)
    (hid : id ∈ nodes.map ManagedTaskDefinition.id) :
    ∃ res, visit nodes fuel visiting visited id = .ok res := by
  induction fuel generalizing visiting visited id with
  | zero =>
    -- The ids on the way down are distinct ids of nodes.
    have hle := (hnodup.subperm fun next h ↦ (hvisiting next h).1).length_le
    rw [length_map] at hle
    omega
  | succ fuel ih =>
    have hnew : id ∉ visiting := fun h ↦ hdag.acyclic id (hvisiting id h).2
    obtain ⟨node, hnode, rfl⟩ := mem_map.mp hid
    by_cases hdone : node.id ∈ visited
    · refine ⟨visited, (visit_eq_ok_iff hdag.ids).mpr ⟨hnew, ?_⟩⟩
      rw [if_pos hdone]
    · have hstep (pred) (h : pred ∈ node.predecessors)
          (visited) : ∃ res, (requirePolicy
            (pred ∈ nodes.map ManagedTaskDefinition.id) "missing predecessor" >>= fun _ ↦
              visit nodes fuel (node.id :: visiting) visited pred) = .ok res := by
        have hmem := hdag.exist node hnode pred h
        have hedge : Successor nodes pred node.id := ⟨node, hnode, h, rfl⟩
        obtain ⟨res, hres⟩ := @ih (node.id :: visiting) visited pred
          (by rw [length_cons]; omega) (nodup_cons.mpr ⟨hnew, hnodup⟩)
          (forall_mem_cons.mpr ⟨⟨hid, .single hedge⟩,
            fun next h ↦ ⟨(hvisiting next h).1, .head hedge (hvisiting next h).2⟩⟩) hmem
        exact ⟨res, check_bind_eq_ok_iff.mpr
          ⟨requirePolicy_eq_ok_iff.mpr (decide_eq_true hmem), hres⟩⟩
      obtain ⟨below, hbelow⟩ := exists_foldlM_eq_ok hstep
      refine ⟨node.id :: below, (visit_eq_ok_iff hdag.ids).mpr ⟨hnew, ?_⟩⟩
      rw [if_neg hdone]
      exact ⟨node, hnode, rfl, hdag.predecessors node hnode, below, hbelow, rfl⟩

/-! ## What is accepted -/

theorem parseManagedTaskDefinitions_eq_ok_iff {defs : List ManagedTaskDefinition} :
    parseManagedTaskDefinitions nodes = .ok defs ↔ defs = nodes ∧
      (∀ node ∈ nodes, node.conforms) ∧ nodes ≠ [] ∧ IsDag nodes := by
  rw [parseManagedTaskDefinitions, check_bind_eq_ok_iff, check_bind_eq_ok_iff, check_bind_eq_ok_iff,
    bind_eq_ok_iff]
  simp only [requireSchema_eq_ok_iff, requireDistinct_eq_ok_iff, forM_eq_ok_iff, Bool.and_eq_true,
    all_eq_true, decide_eq_true_eq]
  constructor
  · rintro ⟨⟨hconforms, hne⟩, hids, hvalidations, visited, hvisited, ⟨⟩⟩
    have hids' : (nodes.map ManagedTaskDefinition.id).foldlM (visit nodes (nodes.length + 1) []) [] =
        .ok visited := by
      rw [foldlM_map]
      exact hvisited
    obtain ⟨hsettled, hall, -⟩ :=
      forall_of_foldlM (fun _ _ _ ↦ settled_visit hids) hids' (forall_mem_nil _)
    have hnodes (node) (h : node ∈ nodes) : Settled nodes node.id :=
      hsettled _ (hall (mem_map_of_mem h))
    refine ⟨rfl, hconforms, hne, hids, ?_, hvalidations, ?_, ?_⟩
    · exact fun node hnode ↦ (hnodes node hnode).nodup node hnode rfl
    · exact fun node hnode ↦ (hnodes node hnode).exist node hnode rfl
    · intro id hcycle
      obtain ⟨_, -, node, hnode, -, rfl⟩ := TransGen.tail'_iff.mp hcycle
      exact not_transGen_of_acc (hnodes node hnode).acc hcycle
  · rintro ⟨rfl, hconforms, hne, hdag⟩
    obtain ⟨visited, hvisited⟩ := exists_foldlM_eq_ok fun node hnode visited ↦
      @exists_visit_eq_ok _ [] visited _ _ hdag (Nat.lt_succ_self _) nodup_nil
        (forall_mem_nil _) (mem_map_of_mem hnode)
    exact ⟨⟨hconforms, hne⟩, hdag.ids, hdag.validations, visited, hvisited, rfl⟩

/-- Of the lists that fit the schema, the definitions of a directed acyclic graph are accepted and
no others, and a downstream closure is what the seeds reach along the edges. -/
theorem parse_accepts_exactly_dags :
    ((∃ definitions, parseManagedTaskDefinitions nodes = .ok definitions) ↔
      ((∀ node ∈ nodes, node.conforms = true) ∧ nodes ≠ []) ∧ IsDag nodes) ∧
    ∀ (seeds : List JsString) (id : JsString),
      id ∈ downstreamClosure ManagedTaskDefinition.id ManagedTaskDefinition.predecessors seeds nodes ↔
        ∃ seed ∈ seeds, ReflTransGen (Successor nodes) seed id := by
  refine ⟨?_, fun seeds id ↦ mem_downstreamClosure_iff.trans (downstream_iff _ _)⟩
  simp [parseManagedTaskDefinitions_eq_ok_iff, and_assoc]

end GajaeCode.Broker
