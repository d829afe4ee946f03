import Mathlib.Data.List.Induction
import Mathlib.Data.List.Nodup

/-!
# Last writes and first mentions

General facts about replaying a list of events from the oldest to the newest: registers that keep
the last value written, the newest event of each key, sets in insertion order, and tables whose
rows keep the place of their first mention while their values are overwritten.
-/

namespace GajaeCode.Chain

open List Function

/-! ## Registers -/

section

variable {ε β : Type*}

/-- The value the last writing event wrote. -/
def lastWrite (write : ε → Option β) (events : List ε) : Option β :=
  (events.filterMap write).getLast?

variable (write : ε → Option β)

theorem lastWrite_append (older newer : List ε) :
    lastWrite write (older ++ newer) = (lastWrite write newer).or (lastWrite write older) := by
  simp [lastWrite]

theorem lastWrite_concat (events : List ε) (event : ε) :
    lastWrite write (events ++ [event]) = (write event).or (lastWrite write events) := by
  cases h : write event <;> simp [lastWrite, h]

theorem lastWrite_eq_none_iff {events : List ε} :
    lastWrite write events = none ↔ ∀ event ∈ events, write event = none := by
  simp [lastWrite]

theorem lastWrite_eq_findSome? (events : List ε) :
    lastWrite write events = events.reverse.findSome? write := by
  rw [lastWrite, getLast?_eq_head?_reverse, ← filterMap_reverse, head?_filterMap]

end

/-! ## The newest event of each key -/

section

variable {ε β κ : Type*} [DecidableEq κ] (key : ε → Option κ)

/-- From the events, newest first, those whose key was not seen before. -/
def latestByKey : List κ → List ε → List ε
  | _, [] => []
  | seen, event :: older =>
    match key event with
    | some k => if k ∈ seen then latestByKey seen older else event :: latestByKey (k :: seen) older
    | none => latestByKey seen older

variable {key} {k : κ} {write : ε → Option β}

theorem latestByKey_sublist (events : List ε) :
    ∀ seen : List κ, (latestByKey key seen events).Sublist events := by
  induction events with
  | nil => exact fun _ ↦ Sublist.slnil
  | cons event older ih =>
    intro seen
    rw [latestByKey]
    split
    · split_ifs
      · exact (ih seen).cons event
      · exact (ih _).cons_cons event
    · exact (ih seen).cons event

theorem isSome_key_of_mem_latestByKey {event : ε} {events : List ε} :
    ∀ {seen : List κ}, event ∈ latestByKey key seen events → (key event).isSome := by
  induction events with
  | nil => exact fun h ↦ absurd h not_mem_nil
  | cons head older ih =>
    intro seen h
    rw [latestByKey] at h
    split at h
    · next k hk =>
      split_ifs at h
      · exact ih h
      · rcases mem_cons.mp h with rfl | hmem
        · rw [hk, Option.isSome_some]
        · exact ih hmem
    · exact ih h

theorem latestByKey_append_of_quiet {newer : List ε} (h : ∀ event ∈ newer, key event = none)
    (seen : List κ) (older : List ε) :
    latestByKey key seen (newer ++ older) = latestByKey key seen older := by
  induction newer with
  | nil => rfl
  | cons event newer ih =>
    have hevent : key event = none := h event mem_cons_self
    rw [cons_append, latestByKey, hevent]
    exact ih fun other hother ↦ h other (mem_cons_of_mem _ hother)

/-- The newest event with a key comes first. -/
theorem head?_latestByKey (events : List ε) :
    (latestByKey key [] events).head? = events.find? fun event ↦ (key event).isSome := by
  induction events with
  | nil => rfl
  | cons event older ih =>
    rw [latestByKey, find?_cons]
    cases hkey : key event with
    | none => exact ih
    | some => rfl

/-- A write that only events of key `k` make is, among the newest events, made by the newest
event of that key. -/
theorem filterMap_latestByKey
    (hkey : ∀ event, (write event).isSome → key event = some k) (events : List ε) :
    ∀ seen : List κ, (latestByKey key seen events).filterMap write =
      if k ∈ seen then [] else ((events.find? fun event ↦ key event = some k).bind write).toList := by
  induction events with
  | nil => simp [latestByKey]
  | cons head older ih =>
    intro seen
    have hskip : key head ≠ some k → write head = none := by
      intro hne
      rw [← Option.not_isSome_iff_eq_none]
      exact fun hsome ↦ hne (hkey head hsome)
    rw [latestByKey]
    split
    · next k' hk' =>
      by_cases heq : k' = k
      · subst heq
        by_cases hseen : k' ∈ seen
        · rw [if_pos hseen, ih, if_pos hseen, if_pos hseen]
        · rw [if_neg hseen, if_neg hseen, find?_cons_of_pos (by simp [hk']), Option.bind_some,
            filterMap_cons, ih, if_pos mem_cons_self]
          cases write head <;> rfl
      · have hnone : write head = none := hskip (by simp [hk', heq])
        rw [find?_cons_of_neg (by simp [hk', heq])]
        by_cases hseen : k' ∈ seen
        · rw [if_pos hseen, ih]
        · rw [if_neg hseen, filterMap_cons_none hnone, ih]
          simp only [mem_cons, Ne.symm heq, false_or]
    · next hk' =>
      rw [ih, find?_cons_of_neg (by simp [hk'])]

/-- Among the newest events of each key a register was either not written, or last written with
the same value as among all events. -/
theorem lastWrite_latestByKey
    (hkey : ∀ event, (write event).isSome → key event = some k) (events : List ε) :
    lastWrite write (latestByKey key [] events.reverse).reverse = none ∨
      lastWrite write (latestByKey key [] events.reverse).reverse = lastWrite write events := by
  have hmaps := filterMap_latestByKey hkey events.reverse []
  rw [if_neg not_mem_nil] at hmaps
  rw [lastWrite, filterMap_reverse, getLast?_reverse, hmaps, lastWrite_eq_findSome?]
  cases hfind : events.reverse.find? fun event ↦ key event = some k with
  | none => exact Or.inl rfl
  | some event =>
    cases hwrite : write event with
    | none => exact .inl (by simp [hwrite])
    | some =>
      apply Or.inr
      simp only [Option.bind_some, hwrite, Option.toList_some, head?_cons]
      obtain ⟨_, before, after, hsplit, hbefore⟩ := find?_eq_some_iff_append.mp hfind
      rw [hsplit, findSome?_append, findSome?_cons, hwrite]
      have hnone : before.findSome? write = none := by
        rw [findSome?_eq_none_iff]
        intro other hother
        rw [← Option.not_isSome_iff_eq_none]
        intro hsome
        simpa [hkey other hsome] using hbefore other hother
      rw [hnone, Option.none_or]

theorem find?_bind_eq_findSome? {p : ε → Bool}
    (h : ∀ event, p event = (write event).isSome) (events : List ε) :
    (events.find? p).bind write = events.findSome? write := by
  induction events with
  | nil => rfl
  | cons head rest ih =>
    rw [find?_cons, findSome?_cons, h]
    cases hwrite : write head with
    | none => exact ih
    | some => exact hwrite

/-- The newest event of a key makes the last of the writes that all events of that key make. -/
theorem filterMap_reverse_latestByKey
    (hkey : ∀ event, (write event).isSome ↔ key event = some k) (events : List ε) :
    (latestByKey key [] events.reverse).reverse.filterMap write =
      (lastWrite write events).toList := by
  have hp : ∀ event, decide (key event = some k) = (write event).isSome := by
    intro event
    rw [Bool.eq_iff_iff, decide_eq_true_eq, hkey]
  rw [filterMap_reverse, filterMap_latestByKey (fun event ↦ (hkey event).mp),
    if_neg not_mem_nil, find?_bind_eq_findSome? hp, ← lastWrite_eq_findSome?]
  cases lastWrite write events <;> rfl

end
/-! ## Sets in insertion order -/

section

variable {κ : Type*} [DecidableEq κ]

/-- Adding to a set in insertion order. -/
def pushNew (seen : List κ) (name : κ) : List κ := if name ∈ seen then seen else seen ++ [name]

def firstMentions (names : List κ) : List κ := names.foldl pushNew []

theorem firstMentions_concat (names : List κ) (name : κ) :
    firstMentions (names ++ [name]) = pushNew (firstMentions names) name := by
  simp [firstMentions]

theorem mem_pushNew {seen : List κ} {name other : κ} :
    other ∈ pushNew seen name ↔ other ∈ seen ∨ other = name := by
  rw [pushNew]
  split_ifs with h
  · constructor
    · exact Or.inl
    · rintro (hseen | rfl)
      · exact hseen
      · exact h
  · simp

theorem mem_foldl_pushNew {names seen : List κ} {name : κ} :
    name ∈ names.foldl pushNew seen ↔ name ∈ seen ∨ name ∈ names := by
  induction names generalizing seen with
  | nil => simp
  | cons first rest ih => rw [foldl_cons, ih, mem_pushNew, mem_cons, or_assoc]

@[simp] theorem mem_firstMentions {names : List κ} {name : κ} :
    name ∈ firstMentions names ↔ name ∈ names := by
  simp [firstMentions, mem_foldl_pushNew]

theorem nodup_firstMentions (names : List κ) : (firstMentions names).Nodup := by
  induction names using reverseRecOn with
  | nil => exact nodup_nil
  | append_singleton names last ih =>
    rw [firstMentions_concat, pushNew]
    split_ifs with h
    · exact ih
    · rw [nodup_append]
      refine ⟨ih, nodup_singleton last, ?_⟩
      intro name hname other hother heq
      rw [mem_singleton] at hother
      exact h (by rwa [← hother, ← heq])

theorem firstMentions_append (older newer : List κ) : firstMentions (older ++ newer) =
      firstMentions older ++ firstMentions (newer.filter (· ∉ older)) := by
  induction newer using reverseRecOn with
  | nil => simp [firstMentions]
  | append_singleton newer last ih =>
    rw [← append_assoc, firstMentions_concat, ih, filter_append]
    by_cases hlast : last ∈ older
    · simp [hlast, pushNew]
    · simp only [hlast, not_false_eq_true, decide_true, filter_cons_of_pos, filter_nil, firstMentions_concat,
        pushNew, mem_append, mem_firstMentions, false_or]
      split_ifs
      · rfl
      · rw [append_assoc]

theorem filter_firstMentions (p : κ → Bool) (names : List κ) :
    (firstMentions names).filter p = firstMentions (names.filter p) := by
  induction names using reverseRecOn with
  | nil => rfl
  | append_singleton names last ih =>
    rw [firstMentions_concat, filter_append, pushNew]
    by_cases hlast : p last
    · rw [filter_cons_of_pos hlast, filter_nil, firstMentions_concat, pushNew, ← ih]
      split_ifs <;> simp_all
    · rw [filter_cons_of_neg hlast, filter_nil, append_nil, ← ih]
      split_ifs <;> simp_all

/-- Forgetting the oldest events keeps the order of first mentions exactly when the names
mentioned so far still come first. -/
theorem firstMentions_append_eq_iff (older kept newer : List κ) :
    firstMentions (older ++ kept ++ newer) = firstMentions (kept ++ newer) ↔
      firstMentions (older ++ kept) <+: firstMentions (kept ++ newer) := by
  rw [firstMentions_append (older ++ kept) newer]
  constructor
  · intro h
    rw [← h]
    exact prefix_append _ _
  · rintro ⟨rest, hrest⟩
    have hdisjoint : ∀ name ∈ rest, name ∉ older ++ kept := by
      intro name hname hold
      have hnodup := nodup_firstMentions (kept ++ newer)
      rw [← hrest, nodup_append] at hnodup
      exact hnodup.2.2 name (mem_firstMentions.mpr hold) name hname rfl
    have hright : rest.filter (· ∉ older ++ kept) = rest := by
      rw [filter_eq_self]
      intro name hname
      simpa only [decide_eq_true_eq] using hdisjoint name hname
    have hnone {names} (hsub : names ⊆ older ++ kept) : names.filter (· ∉ older ++ kept) = [] := by
      rw [filter_eq_nil_iff]
      intro name hname
      simpa only [decide_eq_true_eq, not_not] using hsub hname
    have hrest' := congrArg (filter (· ∉ older ++ kept)) hrest
    rw [filter_append, filter_firstMentions, filter_firstMentions, hnone fun _ h ↦ h, hright, filter_append,
      hnone (subset_append_right older kept)] at hrest'
    rw [← hrest]
    exact congrArg (firstMentions (older ++ kept) ++ ·) hrest'.symm

end

/-! ## Tables -/

section

variable {α κ : Type*} [DecidableEq κ]

/-- A row is mentioned by its name, or written. -/
inductive RowEvent (κ α : Type*)
  | mention (name : κ)
  | write (row : α)

variable (name : α → κ) (blank : κ → α)

def ensureRow (rows : List α) (k : κ) : List α :=
  if k ∈ rows.map name then rows else rows ++ [blank k]

/-- A row that exists is replaced where it stands. -/
def putRow (rows : List α) (row : α) : List α :=
  if name row ∈ rows.map name then rows.map fun old ↦ if name old = name row then row else old
  else rows ++ [row]

namespace RowEvent

def rowName : RowEvent κ α → κ
  | mention k => k
  | write row => name row

def apply (rows : List α) : RowEvent κ α → List α
  | mention k => ensureRow name blank rows k
  | write row => putRow name rows row

def written (k : κ) : RowEvent κ α → Option α
  | mention _ => none
  | write row => if name row = k then some row else none

end RowEvent

open RowEvent (written rowName)

variable (events : List (RowEvent κ α))

def table : List α := events.foldl (RowEvent.apply name blank) []

/-- The row of `k` after the events. -/
def rowAfter (k : κ) : α :=
  (lastWrite (written name k) events).getD (blank k)

variable {name blank} {rows : List α} {row : α} {k : κ}

theorem name_replaceRow (row other : α) :
    name (if name other = name row then row else other) = name other := by
  split_ifs with h
  · exact h.symm
  · rfl

theorem find?_putRow (rows : List α) (row : α) (k : κ) :
    (putRow name rows row).find? (fun other ↦ name other = k) =
      if name row = k then some row else rows.find? fun other ↦ name other = k := by
  rw [putRow]
  split_ifs with hmem hname hname
  · simp only [find?_map, comp_def, name_replaceRow]
    obtain ⟨old, hold, heq⟩ := mem_map.mp hmem
    have hfound : (rows.find? fun other ↦ name other = k).isSome := by
      rw [find?_isSome]
      exact ⟨old, hold, by simp [heq, hname]⟩
    obtain ⟨first, hfirst⟩ := Option.isSome_iff_exists.mp hfound
    have hk : name first = k := by simpa using find?_some hfirst
    rw [hfirst, Option.map_some, if_pos (hk.trans hname.symm)]
  · simp only [find?_map, comp_def, name_replaceRow]
    cases hfirst : rows.find? (fun other ↦ name other = k) with
    | none => rfl
    | some first =>
      have hk : name first = k := by simpa using find?_some hfirst
      rw [Option.map_some, if_neg (by rw [hk]; exact Ne.symm hname)]
  · have hnone : (rows.find? fun other ↦ name other = k) = none := by
      rw [find?_eq_none]
      intro other hother heq
      apply hmem
      rw [hname]
      exact mem_map.mpr ⟨other, hother, by simpa using heq⟩
    rw [find?_append, hnone, Option.none_or, find?_singleton, if_pos (by simp [hname])]
  · rw [find?_append, find?_singleton, if_neg (by simp [hname]), Option.or_none]

theorem nodup_putRow (h : (rows.map name).Nodup) (row : α) : ((putRow name rows row).map name).Nodup := by
  rw [putRow]
  split_ifs with hmem
  · rw [map_map]
    rwa [← map_congr_left fun old _ ↦ name_replaceRow row old] at h
  · rw [map_append, map_singleton]
    exact nodup_append'.mpr ⟨h, nodup_singleton _, by simpa using hmem⟩

/-- The row of a name, where names are distinct. -/
theorem find?_name_eq_some_iff (hnodup : (rows.map name).Nodup) {key : κ} :
    rows.find? (fun row ↦ name row = key) = some row ↔ row ∈ rows ∧ name row = key := by
  constructor
  · intro hfound
    exact ⟨mem_of_find?_eq_some hfound, by simpa using find?_some hfound⟩
  · rintro ⟨hrow, rfl⟩
    cases hfound : rows.find? fun other ↦ name other = name row with
    | none =>
      have hnone := find?_eq_none.mp hfound row hrow
      simp at hnone
    | some other =>
      have hsame : name other = name row := by simpa using find?_some hfound
      rw [inj_on_of_nodup_map hnodup (mem_of_find?_eq_some hfound) hrow hsame]

/-- A property of the rows of a name is one of its row, where names are distinct. -/
theorem exists_named_iff (hnodup : (rows.map name).Nodup) {p : κ → α → Prop} :
    (∃ row ∈ rows, p (name row) row ∧ name row = k) ↔
      ∃ row, rows.find? (fun row ↦ name row = k) = some row ∧ p k row := by
  simp only [find?_name_eq_some_iff hnodup]
  constructor
  · rintro ⟨row, hrow, hp, rfl⟩
    exact ⟨row, ⟨hrow, rfl⟩, hp⟩
  · rintro ⟨row, ⟨hrow, rfl⟩, hp⟩
    exact ⟨row, hrow, hp, rfl⟩

/-- The last row written for a name has the name, and the events mention it. -/
theorem of_lastWrite {events : List (RowEvent κ α)} (h : lastWrite (written name k) events = some row) :
    name row = k ∧ k ∈ events.map (rowName name) := by
  rw [lastWrite_eq_findSome?] at h
  obtain ⟨event, hmem, hwritten⟩ := exists_of_findSome?_eq_some h
  cases event with
  | mention => cases hwritten
  | write =>
    simp only [written, Option.ite_none_right_eq_some, Option.some.injEq] at hwritten
    obtain ⟨rfl, rfl⟩ := hwritten
    exact ⟨rfl, mem_map_of_mem (mem_reverse.mp hmem)⟩

theorem name_rowAfter (hblank : ∀ k, name (blank k) = k) (events : List (RowEvent κ α)) (k : κ) :
    name (rowAfter name blank events k) = k := by
  rw [rowAfter]
  cases h : lastWrite (written name k) events with
  | none => exact hblank k
  | some => exact (of_lastWrite h).1

theorem rowAfter_concat_write (row : α) (k : κ) : rowAfter name blank (events ++ [.write row]) k =
      if name row = k then row else rowAfter name blank events k := by
  rw [rowAfter, lastWrite_concat, written]
  split_ifs <;> rfl

theorem map_name_map_rowAfter (hblank : ∀ k, name (blank k) = k) (events : List (RowEvent κ α))
    (names : List κ) : (names.map (rowAfter name blank events)).map name = names := by
  rw [map_map]
  exact (map_congr_left fun k _ ↦ name_rowAfter hblank events k).trans (map_id names)

section

variable (hblank : ∀ k, name (blank k) = k)

include hblank

/-- A table lists the names in order of first mention, each with the last row written for it. -/
theorem table_eq_map_rowAfter (events : List (RowEvent κ α)) : table name blank events =
      (firstMentions (events.map (rowName name))).map (rowAfter name blank events) := by
  induction events using reverseRecOn with
  | nil => rfl
  | append_singleton events event ih =>
    have hnames : (table name blank events).map name =
        firstMentions (events.map (rowName name)) := by
      rw [ih, map_name_map_rowAfter hblank]
    have hconcat : table name blank (events ++ [event]) =
        RowEvent.apply name blank (table name blank events) event := by
      simp [table]
    rw [hconcat, map_append, map_singleton, firstMentions_concat]
    cases event with
    | mention k =>
      have hrows : rowAfter name blank (events ++ [.mention k]) = rowAfter name blank events := by
        funext other
        rw [rowAfter, lastWrite_concat, written, Option.none_or, rowAfter]
      rw [RowEvent.apply, ensureRow, rowName, pushNew, hnames, hrows]
      split_ifs with h
      · exact ih
      · rw [map_append, ← ih, map_singleton, rowAfter]
        rw [mem_firstMentions] at h
        have hnone : lastWrite (written name k) events = none := by
          rw [Option.eq_none_iff_forall_ne_some]
          intro row hrow
          exact h ((of_lastWrite hrow).2)
        rw [hnone, Option.getD_none]
    | write =>
      rw [RowEvent.apply, putRow, rowName, pushNew, hnames]
      split_ifs with h
      · rw [ih, map_map]
        apply map_congr_left
        intro k _
        rw [comp_apply, name_rowAfter hblank, rowAfter_concat_write]
        exact if_congr eq_comm rfl rfl
      · rw [map_append, map_singleton, rowAfter_concat_write, if_pos rfl, ih]
        congr 1
        apply map_congr_left
        intro k hk
        rw [rowAfter_concat_write, if_neg]
        rintro rfl
        exact h hk

theorem map_name_table (events : List (RowEvent κ α)) :
    (table name blank events).map name = firstMentions (events.map (rowName name)) := by
  rw [table_eq_map_rowAfter hblank, map_name_map_rowAfter hblank]

theorem table_eq_table_iff (left right : List (RowEvent κ α)) :
    table name blank left = table name blank right ↔ firstMentions (left.map (rowName name)) =
          firstMentions (right.map (rowName name)) ∧
        ∀ k ∈ left.map (rowName name),
          rowAfter name blank left k = rowAfter name blank right k := by
  constructor
  · intro h
    have hnames := congrArg (map name) h
    rw [map_name_table hblank, map_name_table hblank] at hnames
    refine ⟨hnames, ?_⟩
    rw [table_eq_map_rowAfter hblank, table_eq_map_rowAfter hblank, ← hnames, map_inj_left] at h
    intro k hk
    exact h k (mem_firstMentions.mpr hk)
  · rintro ⟨hnames, hrows⟩
    rw [table_eq_map_rowAfter hblank, table_eq_map_rowAfter hblank, ← hnames, map_inj_left]
    intro k hk
    exact hrows k (mem_firstMentions.mp hk)

/-- Forgetting the oldest events keeps a table exactly when the names mentioned so far still come
first, and each of them is written again or had its blank row. -/
theorem table_append_eq_iff (older kept newer : List (RowEvent κ α)) :
    table name blank (older ++ kept ++ newer) = table name blank (kept ++ newer) ↔
      firstMentions ((older ++ kept).map (rowName name)) <+:
          firstMentions ((kept ++ newer).map (rowName name)) ∧
        ∀ k ∈ (older ++ kept).map (rowName name),
          (lastWrite (written name k) (kept ++ newer)).isSome ∨
            ∀ row ∈ lastWrite (written name k) (older ++ kept), row = blank k := by
  rw [table_eq_table_iff hblank]
  apply and_congr
  · simp only [map_append]
    exact firstMentions_append_eq_iff _ _ _
  have hrow : ∀ k, rowAfter name blank (older ++ kept ++ newer) k =
        rowAfter name blank (kept ++ newer) k ↔
      (lastWrite (written name k) (kept ++ newer)).isSome ∨
        ∀ row ∈ lastWrite (written name k) (older ++ kept), row = blank k := by
    intro k
    rw [rowAfter, rowAfter, append_assoc, lastWrite_append _ older (kept ++ newer)]
    cases hnew : lastWrite (written name k) (kept ++ newer) with
    | some => simp
    | none =>
      have hkept : lastWrite (written name k) kept = none := by
        rw [lastWrite_append, Option.or_eq_none_iff] at hnew
        exact hnew.2
      rw [lastWrite_append, hkept, Option.none_or]
      cases lastWrite (written name k) older <;> simp
  constructor
  · intro h k hk
    apply (hrow k).mp
    apply h
    rw [map_append]
    exact mem_append_left _ hk
  · intro h k _
    by_cases hk : k ∈ (older ++ kept).map (rowName name)
    · exact (hrow k).mpr (h k hk)
    · apply (hrow k).mpr
      right
      intro row hwritten
      exact absurd ((of_lastWrite hwritten).2) hk

end

end

end GajaeCode.Chain

