import Mathlib.Data.List.Induction

/-!
# Hash-linked record lists

Records that each carry a stamp computed from the previous stamp and from a view of the record.
When the computation is injective in both, the last stamp determines every stamp and every view
of the list. A record is then protected exactly up to what its view forgets: a list is the only
one with its last stamp if and only if each of its records is the only one with its view and
stamp.
-/

namespace GajaeCode.Chain

open List Option

variable {ρ κ δ : Type*} (link : Option δ → ρ → Option δ) (stamp : ρ → δ) (view : ρ → κ)
  (IsStamp : δ → Prop)

/-- Every stamp is the link of the previous stamp and the record; a link may fail. -/
def Linked : Option δ → List ρ → Prop
  | _, [] => True
  | previous, record :: rest =>
      link previous record = some (stamp record) ∧ Linked (some (stamp record)) rest

/-- The stamp the next record will be linked to. -/
def lastStamp (records : List ρ) : Option δ := records.getLast?.map stamp

/-- What a record shows to somebody who only sees views and stamps. -/
def shown (record : ρ) : κ × δ := (view record, stamp record)

/-- The link reads the view only, makes stamps, and has no two inputs with the same link. -/
structure Binding : Prop where
  isStamp : ∀ {previous : Option δ} {record : ρ} {out : δ}, link previous record = some out →
    IsStamp out
  congr : ∀ {previous : Option δ} {left right : ρ}, view left = view right →
    link previous left = link previous right
  inj : ∀ {previous previous' : Option δ} {left right : ρ} {out : δ},
    (∀ before ∈ previous, IsStamp before) → (∀ before ∈ previous', IsStamp before) →
      link previous left = some out → link previous' right = some out →
        previous = previous' ∧ view left = view right

variable {link stamp view IsStamp} {records right left : List ρ}

theorem linked_append_singleton (previous : Option δ) (records : List ρ) (last : ρ) :
    Linked link stamp previous (records ++ [last]) ↔ Linked link stamp previous records ∧
        link ((lastStamp stamp records).or previous) last = some (stamp last) := by
  induction records generalizing previous with
  | nil => simp [Linked, lastStamp]
  | cons record rest ih =>
    have hlast : (lastStamp stamp rest).or (some (stamp record)) =
        (lastStamp stamp (record :: rest)).or previous := by
      cases h : rest.getLast? <;> simp [lastStamp, getLast?_cons, h]
    rw [cons_append, Linked, Linked, ih, hlast, and_assoc]

theorem lastStamp_append_singleton (records : List ρ) (last : ρ) :
    lastStamp stamp (records ++ [last]) = some (stamp last) := by
  simp [lastStamp]

theorem isStamp_of_mem_lastStamp (hbind : Binding link view IsStamp)
    (h : Linked link stamp none records) : ∀ before ∈ lastStamp stamp records, IsStamp before := by
  intro before hbefore
  cases records using reverseRecOn with
  | nil => simp [lastStamp] at hbefore
  | append_singleton =>
    rw [lastStamp_append_singleton, mem_some_iff] at hbefore
    rw [linked_append_singleton] at h
    exact hbefore ▸ hbind.isStamp h.2

/-- Linked lists with the same last stamp show the same views and stamps throughout. -/
theorem map_shown_eq_of_lastStamp_eq (hbind : Binding link view IsStamp)
    (hleft : Linked link stamp none left) (hright : Linked link stamp none right)
    (hlast : lastStamp stamp left = lastStamp stamp right) :
    left.map (shown stamp view) = right.map (shown stamp view) := by
  induction left using reverseRecOn generalizing right with
  | nil =>
    have : right = [] := by simpa [lastStamp, eq_comm] using hlast
    rw [this]
  | append_singleton front record ih =>
    cases right using reverseRecOn with
    | nil => simp [lastStamp] at hlast
    | append_singleton =>
      simp only [lastStamp_append_singleton, some.injEq] at hlast
      rw [linked_append_singleton, or_none] at hleft hright
      obtain ⟨hprev, hview⟩ := hbind.inj (isStamp_of_mem_lastStamp hbind hleft.1)
        (isStamp_of_mem_lastStamp hbind hright.1) hleft.2 (hlast ▸ hright.2)
      rw [map_append, map_append, ih hleft.1 hright.1 hprev]
      simp [shown, hview, hlast]

/-- Being linked depends on what is shown only. -/
theorem linked_of_map_shown_eq (hbind : Binding link view IsStamp)
    {prev : Option δ} (h : left.map (shown stamp view) = right.map (shown stamp view))
    (hleft : Linked link stamp prev left) : Linked link stamp prev right := by
  induction left generalizing right prev with
  | nil =>
    rw [map_nil, eq_comm, map_eq_nil_iff] at h
    subst h
    trivial
  | cons record rest ih =>
    cases right with
    | nil => simp at h
    | cons =>
      simp only [map_cons, cons.injEq, shown, Prod.mk.injEq] at h
      obtain ⟨⟨hview, hstamp⟩, hrest⟩ := h
      refine ⟨?_, ?_⟩
      · rw [← hbind.congr hview, ← hstamp]
        exact hleft.1
      · rw [← hstamp]
        exact ih hrest hleft.2

theorem lastStamp_eq_of_map_shown_eq
    (h : left.map (shown stamp view) = right.map (shown stamp view)) :
    lastStamp stamp left = lastStamp stamp right := by
  have hstamps : left.map stamp = right.map stamp := by
    simpa [shown, Function.comp_def] using congrArg (map Prod.snd) h
  rw [lastStamp, lastStamp, ← getLast?_map, ← getLast?_map, hstamps]

theorem eq_of_map_shown_eq {other : List ρ}
    (hunique : ∀ record ∈ records, ∀ other, shown stamp view other = shown stamp view record →
      other = record)
    (h : other.map (shown stamp view) = records.map (shown stamp view)) : other = records := by
  induction records generalizing other with
  | nil => simpa using h
  | cons record rest ih =>
    cases other with
    | nil => simp at h
    | cons record' =>
      rw [map_cons, map_cons, cons.injEq] at h
      rw [hunique record (mem_cons_self ..) record' h.1,
        ih (fun r hr ↦ hunique r (mem_cons_of_mem _ hr)) h.2]

/-- A list valid in the sense of its links and of some property of its views is the only one
with its last stamp exactly when nothing else shows what one of its records shows. -/
theorem unique_iff_forall_mem_unique (hbind : Binding link view IsStamp) (Valid : List κ → Prop)
    (hlinked : Linked link stamp none records) (hvalid : Valid (records.map view)) :
    (∀ other, Linked link stamp none other → Valid (other.map view) →
        lastStamp stamp other = lastStamp stamp records → other = records) ↔
      ∀ record ∈ records, ∀ other, shown stamp view other = shown stamp view record →
        other = record := by
  constructor
  · intro h record hmem other hshown
    obtain ⟨front, back, rfl⟩ := append_of_mem hmem
    have hmap : (front ++ record :: back).map (shown stamp view) =
        (front ++ other :: back).map (shown stamp view) := by simp [hshown]
    have hviews : (front ++ other :: back).map view = (front ++ record :: back).map view := by
      simpa [shown, Function.comp_def] using congrArg (map Prod.fst) hmap.symm
    have := h (front ++ other :: back) (linked_of_map_shown_eq hbind hmap hlinked)
      (hviews ▸ hvalid) (lastStamp_eq_of_map_shown_eq hmap).symm
    simpa using this
  · intro h other hother _ hlast
    have hmap := map_shown_eq_of_lastStamp_eq hbind hother hlinked hlast
    exact eq_of_map_shown_eq h hmap

end GajaeCode.Chain
