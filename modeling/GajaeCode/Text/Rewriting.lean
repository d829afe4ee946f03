import Mathlib.Data.List.Infix

/-!
# Replacing words of a text

Two ways to replace several words of a text by others. `rewrite` reads the text once from the left
and replaces the first word that matches at each place. `rewriteAll` replaces all occurrences of one
word after another. They agree when no word that comes later runs into an earlier one or meets what
an earlier one was replaced by.
-/

namespace GajaeCode.Text

open List

section

variable {α : Type} [DecidableEq α]

structure Rule (α : Type) where
  pattern : List α
  replacement : List α
  deriving DecidableEq

variable (rules : List (Rule α))

/-- The first rule whose pattern stands at the start of a text. -/
def ruleAt (text : List α) : Option (Rule α) :=
  rules.find? fun rule ↦ rule.pattern.isPrefixOf text

/-- One pass over a text. The number counts the symbols of the last match that are still to be
dropped; behind an empty match the next symbol is kept. -/
def rewrite (rules : List (Rule α)) : ℕ → List α → List α
  | 0, [] => ((ruleAt rules []).map Rule.replacement).getD []
  | 0, symbol :: rest =>
    match ruleAt rules (symbol :: rest) with
    | some rule =>
      rule.replacement ++
        if rule.pattern = [] then symbol :: rewrite rules 0 rest
        else rewrite rules (rule.pattern.length - 1) rest
    | none => symbol :: rewrite rules 0 rest
  | _ + 1, [] => []
  | skip + 1, _ :: rest => rewrite rules skip rest

/-- Every occurrence of a word is replaced, from the left. -/
def replaceAll (text search replacement : List α) : List α :=
  if search = [] ∨ ¬ search <:+: text then text else rewrite [⟨search, replacement⟩] 0 text

def rewriteAll (text : List α) : List α :=
  rules.foldl (fun text rule ↦ replaceAll text rule.pattern rule.replacement) text

/-- A nonempty end of one word is a beginning of another. -/
def RunsInto (left right : List α) : Prop := ∃ shared, shared ≠ [] ∧ shared <:+ left ∧ shared <+: right
variable {rules : List (Rule α)} {text front : List α} {rule : Rule α}

/-- Two words can share symbols of a text. -/
def Meets (left right : List α) : Prop :=
  RunsInto left right ∨ RunsInto right left ∨ left <:+: right ∨ right <:+: left

/-! ## One pass -/

omit [DecidableEq α] in
theorem isPrefix_append_cases {word back : List α} (h : word <+: front ++ back) :
    word <+: front ∨ ∃ rest, word = front ++ rest ∧ rest <+: back := by
  rcases prefix_or_prefix_of_prefix h (prefix_append front back) with hfront | hword
  · exact .inl hfront
  · obtain ⟨rest, rfl⟩ := hword
    exact .inr ⟨rest, rfl, (prefix_append_right_inj front).mp h⟩

theorem ruleAt_eq_none_iff : ruleAt rules text = none ↔ ∀ rule ∈ rules, ¬ rule.pattern <+: text := by
  simp [ruleAt]

theorem ruleAt_singleton_eq_none_iff : ruleAt [rule] text = none ↔ ¬ rule.pattern <+: text := by
  simp [ruleAt_eq_none_iff]

theorem of_ruleAt_eq_some (h : ruleAt rules text = some rule) : rule ∈ rules ∧ rule.pattern <+: text := by
  refine ⟨mem_of_find?_eq_some h, ?_⟩
  simpa using find?_some h

theorem rewrite_skip (front back : List α) :
    rewrite rules front.length (front ++ back) = rewrite rules 0 back := by
  induction front with
  | nil => rfl
  | cons symbol front ih => exact ih

theorem rewrite_of_match {rest : List α}
    (h : ruleAt rules (rule.pattern ++ rest) = some rule) (hne : rule.pattern ≠ []) :
    rewrite rules 0 (rule.pattern ++ rest) = rule.replacement ++ rewrite rules 0 rest := by
  obtain ⟨symbol, tail, hpat⟩ := exists_cons_of_ne_nil hne
  rw [hpat, cons_append] at h ⊢
  rw [rewrite, h]
  dsimp only
  rw [if_neg hne, hpat, length_cons, Nat.add_sub_cancel, rewrite_skip]

/-- Where no word begins, a stretch of the text is kept. -/
theorem rewrite_append_of_forall {back : List α}
    (h : ∀ rest, rest ≠ [] → rest <:+ front → ruleAt rules (rest ++ back) = none) :
    rewrite rules 0 (front ++ back) = front ++ rewrite rules 0 back := by
  induction front with
  | nil => rfl
  | cons symbol front ih =>
    have hhead := h (symbol :: front) (cons_ne_nil _ _) suffix_rfl
    rw [cons_append] at hhead ⊢
    rw [rewrite, hhead]
    rw [ih fun rest hrest hsuffix ↦ h rest hrest (hsuffix.trans (suffix_cons symbol front)),
      cons_append]

theorem rewrite_nil (hne : ∀ rule ∈ rules, rule.pattern ≠ []) : rewrite rules 0 [] = [] := by
  have hnone : ruleAt rules [] = none := by
    rw [ruleAt_eq_none_iff]
    intro rule hrule hnil
    exact hne rule hrule (prefix_nil.mp hnil)
  rw [rewrite, hnone, Option.map_none, Option.getD_none]

theorem rewrite_of_not_occurs (h : ¬ rule.pattern <:+: text)
    (hne : rule.pattern ≠ []) : rewrite [rule] 0 text = text := by
  have hkeep := @rewrite_append_of_forall α _ [rule] text [] fun rest _ hsuffix ↦ by
    rw [ruleAt_singleton_eq_none_iff, append_nil]
    intro hbegins
    exact h (hbegins.isInfix.trans hsuffix.isInfix)
  rwa [append_nil, rewrite_nil (by simpa using hne), append_nil] at hkeep

theorem replaceAll_eq_rewrite (hne : rule.pattern ≠ []) (text : List α) :
    replaceAll text rule.pattern rule.replacement = rewrite [rule] 0 text := by
  rw [replaceAll]
  split_ifs with h
  · exact (rewrite_of_not_occurs (h.resolve_left hne) hne).symm
  · rfl

/-! ## The matches of a pass -/

/-- A text cut at the words that a pass replaces. -/
inductive Token (α : Type)
  | raw (symbol : α)
  | hit (rule : Rule α)

/-- The text of a token while the rules in `done` have been applied. -/
def Token.render (done : List (Rule α)) : Token α → List α
  | raw symbol => [symbol]
  | hit rule => if rule ∈ done then rule.replacement else rule.pattern

def renderAll (done : List (Rule α)) (tokens : List (Token α)) : List α :=
  tokens.flatMap (Token.render done)

/-- No word begins at a symbol that is kept. -/
def IsParse (rules : List (Rule α)) : List (Token α) → Prop
  | [] => True
  | .raw symbol :: rest =>
    (∀ rule ∈ rules, ¬ rule.pattern <+: symbol :: renderAll [] rest) ∧ IsParse rules rest
  | .hit rule :: rest => rule ∈ rules ∧ IsParse rules rest

theorem renderAll_raw (done : List (Rule α)) (symbol : α) (rest : List (Token α)) :
    renderAll done (.raw symbol :: rest) = symbol :: renderAll done rest := rfl

theorem renderAll_hit_of_mem {done : List (Rule α)} (h : rule ∈ done) (rest : List (Token α)) :
    renderAll done (.hit rule :: rest) = rule.replacement ++ renderAll done rest := by
  rw [renderAll, flatMap_cons, Token.render, if_pos h, renderAll]

theorem renderAll_hit_of_notMem {done : List (Rule α)} (h : rule ∉ done) (rest : List (Token α)) :
    renderAll done (.hit rule :: rest) = rule.pattern ++ renderAll done rest := by
  rw [renderAll, flatMap_cons, Token.render, if_neg h, renderAll]

/-- The pass over a text as a list of its matches. -/
theorem exists_isParse (hne : ∀ rule ∈ rules, rule.pattern ≠ []) (text : List α) :
    ∃ tokens, IsParse rules tokens ∧ renderAll [] tokens = text ∧
      rewrite rules 0 text = renderAll rules tokens := by
  induction hlen : text.length using Nat.strong_induction_on generalizing text with
  | _ length ih =>
    cases text with
    | nil => exact ⟨[], trivial, rfl, rewrite_nil hne⟩
    | cons symbol rest =>
      cases hrule : ruleAt rules (symbol :: rest) with
      | none =>
        obtain ⟨tokens, hparse, hsource, htarget⟩ := ih rest.length (by rw [← hlen]; simp) rest rfl
        refine ⟨.raw symbol :: tokens, ⟨?_, hparse⟩, ?_, ?_⟩
        · rw [hsource]
          exact ruleAt_eq_none_iff.mp hrule
        · rw [renderAll_raw, hsource]
        · rw [rewrite, hrule, renderAll_raw, ← htarget]
      | some rule =>
        obtain ⟨hmem, back, hback⟩ := of_ruleAt_eq_some hrule
        have hpos := length_pos_iff.mpr (hne rule hmem)
        have hshorter : back.length < length := by
          rw [← hlen, ← hback, length_append]
          omega
        obtain ⟨tokens, hparse, hsource, htarget⟩ := ih back.length hshorter back rfl
        refine ⟨.hit rule :: tokens, ⟨hmem, hparse⟩, ?_, ?_⟩
        · rw [renderAll_hit_of_notMem not_mem_nil, hsource, hback]
        · rw [← hback] at hrule ⊢
          rw [rewrite_of_match hrule (hne rule hmem), renderAll_hit_of_mem hmem, htarget]

/-! ## One word after another -/

/-- The words of two rules contain neither the other. -/
def Rule.Distinct (left right : Rule α) : Prop :=
  ¬ left.pattern <:+: right.pattern ∧ ¬ right.pattern <:+: left.pattern

/-- The later rule of two leaves alone what the earlier one replaces and inserts. -/
def Rule.Apart (earlier later : Rule α) : Prop :=
  ¬ RunsInto later.pattern earlier.pattern ∧ ¬ Meets later.pattern earlier.replacement

section

variable {done todo : List (Rule α)} {rule : Rule α}

/-- A word that meets no inserted text is found in the source where it is found in the result. -/
theorem isPrefix_source {word : List α} (hword : ∀ earlier ∈ done, ¬ Meets word earlier.replacement)
    {tokens : List (Token α)} {front rest : List α} (hsplit : word = front ++ rest)
    (h : rest <+: renderAll done tokens) : rest <+: renderAll [] tokens := by
  induction tokens generalizing front rest with
  | nil => exact h
  | cons token tokens ih =>
    cases token with
    | raw =>
      rw [renderAll_raw] at h ⊢
      cases rest with
      | nil => exact nil_prefix
      | cons first rest =>
        rw [cons_prefix_cons] at h ⊢
        exact ⟨h.1, @ih (front ++ [first]) rest (by rw [hsplit, append_assoc, singleton_append]) h.2⟩
    | hit other =>
      rw [renderAll_hit_of_notMem not_mem_nil]
      by_cases hother : other ∈ done
      · rw [renderAll_hit_of_mem hother] at h
        by_cases hnil : rest = []
        · rw [hnil]
          exact nil_prefix
        · rcases isPrefix_append_cases h with hbegins | ⟨back, rfl, -⟩
          · exact absurd (.inl ⟨rest, hnil, ⟨front, hsplit.symm⟩, hbegins⟩) (hword other hother)
          · exact absurd (.inr (.inr (.inr ⟨front, back, by rw [hsplit, append_assoc]⟩)))
              (hword other hother)
      · rw [renderAll_hit_of_notMem hother] at h
        rcases isPrefix_append_cases h with hbegins | ⟨back, rfl, hback⟩
        · exact hbegins.trans (prefix_append _ _)
        · rw [prefix_append_right_inj]
          exact @ih (front ++ other.pattern) back (by rw [hsplit, append_assoc]) hback

omit [DecidableEq α] in
/-- A word does not begin inside a stretch that it neither contains nor is reached by. -/
theorem not_isPrefix_of_stretch {word stretch rest back : List α} (hrest : rest ≠ [])
    (hsuffix : rest <:+ stretch) (hruns : ¬ RunsInto stretch word) (hcont : ¬ word <:+: stretch) :
    ¬ word <+: rest ++ back := by
  intro hbegins
  rcases isPrefix_append_cases hbegins with hword | ⟨tail, rfl, -⟩
  · exact hcont (hword.isInfix.trans hsuffix.isInfix)
  · exact hruns ⟨rest, hrest, hsuffix, prefix_append _ _⟩

theorem ruleAt_singleton_self (rest : List α) : ruleAt [rule] (rule.pattern ++ rest) = some rule := by
  have hbegins : rule.pattern.isPrefixOf (rule.pattern ++ rest) :=
    isPrefixOf_iff_prefix.mpr (prefix_append _ _)
  rw [ruleAt, find?_cons, hbegins]

/-- Applying one more rule replaces exactly its own matches. -/
theorem replaceAll_renderAll (hne : rule.pattern ≠ [])
    (h : (done ++ rule :: todo).Pairwise fun earlier later ↦ earlier.Distinct later ∧ earlier.Apart later)
    {tokens : List (Token α)} (hparse : IsParse (done ++ rule :: todo) tokens) :
    replaceAll (renderAll done tokens) rule.pattern rule.replacement =
      renderAll (done ++ [rule]) tokens := by
  rw [pairwise_append, pairwise_cons] at h
  obtain ⟨-, ⟨htodo, -⟩, hdone⟩ := h
  have hfresh : rule ∉ done := fun hmem ↦ (hdone rule hmem rule mem_cons_self).1.1 infix_rfl
  rw [replaceAll_eq_rewrite hne]
  induction tokens with
  | nil => exact rewrite_nil (by simpa using hne)
  | cons token tokens ih =>
    cases token with
    | raw symbol =>
      have hnone : ruleAt [rule] (symbol :: renderAll done tokens) = none := by
        rw [ruleAt_singleton_eq_none_iff]
        intro hbegins
        have hsource := @isPrefix_source α _ done rule.pattern (fun earlier hearlier ↦ (hdone earlier hearlier rule mem_cons_self).2.2)
          (.raw symbol :: tokens) [] rule.pattern rfl hbegins
        exact hparse.1 rule (mem_append_right _ mem_cons_self) hsource
      rw [renderAll_raw, renderAll_raw, rewrite, hnone, ← ih hparse.2]
    | hit other =>
      obtain ⟨hmem, hparse⟩ := hparse
      rcases mem_append.mp hmem with hother | hother
      · rw [renderAll_hit_of_mem hother, renderAll_hit_of_mem (mem_append_left _ hother), ← ih hparse]
        apply rewrite_append_of_forall
        intro rest hrest hsuffix
        have hmeets := (hdone other hother rule mem_cons_self).2.2
        rw [ruleAt_singleton_eq_none_iff]
        exact not_isPrefix_of_stretch hrest hsuffix (fun h ↦ hmeets (.inr (.inl h)))
          fun h ↦ hmeets (.inr (.inr (.inl h)))
      · rcases mem_cons.mp hother with rfl | hother
        · rw [renderAll_hit_of_notMem hfresh,
            renderAll_hit_of_mem (mem_append_right _ (mem_singleton_self _)), ← ih hparse]
          exact rewrite_of_match (ruleAt_singleton_self _) hne
        · have hdistinct := (htodo other hother).1
          have hnot : other ∉ done ++ [rule] := by
            rw [mem_append, mem_singleton]
            rintro (hearlier | rfl)
            · exact (hdone other hearlier other (mem_cons_of_mem _ hother)).1.1 infix_rfl
            · exact hdistinct.1 infix_rfl
          rw [renderAll_hit_of_notMem fun hmem ↦ hnot (mem_append_left _ hmem),
            renderAll_hit_of_notMem hnot, ← ih hparse]
          apply rewrite_append_of_forall
          intro rest hrest hsuffix
          rw [ruleAt_singleton_eq_none_iff]
          exact not_isPrefix_of_stretch hrest hsuffix (htodo other hother).2.1 hdistinct.1

theorem rewriteAll_renderAll {tokens : List (Token α)} (hne : ∀ rule ∈ todo, rule.pattern ≠ [])
    (h : (done ++ todo).Pairwise fun earlier later ↦ earlier.Distinct later ∧ earlier.Apart later)
    (hparse : IsParse (done ++ todo) tokens) :
    rewriteAll todo (renderAll done tokens) = renderAll (done ++ todo) tokens := by
  induction todo generalizing done with
  | nil => rw [append_nil, rewriteAll, foldl_nil]
  | cons rule todo ih =>
    rw [rewriteAll, foldl_cons, replaceAll_renderAll (hne rule mem_cons_self) h hparse]
    have hsplit : done ++ rule :: todo = done ++ [rule] ++ todo := append_cons _ _ _
    rw [hsplit] at h hparse ⊢
    exact ih (fun later hlater ↦ hne later (mem_cons_of_mem _ hlater)) h hparse

end

/-- One pass and one word after another give the same text. -/
theorem rewrite_eq_rewriteAll {rules : List (Rule α)} (hne : ∀ rule ∈ rules, rule.pattern ≠ [])
    (h : rules.Pairwise fun earlier later ↦ earlier.Distinct later ∧ earlier.Apart later) (text : List α) :
    rewrite rules 0 text = rewriteAll rules text := by
  obtain ⟨tokens, hparse, rfl, htarget⟩ := exists_isParse hne text
  rw [htarget]
  exact (@rewriteAll_renderAll α _ [] rules tokens hne h hparse).symm

/-! ## Words that run into each other -/

section

variable {rules : List (Rule α)} {rule earlier later : Rule α} {mark : α}

/-- The first occurrence of a word is replaced. -/
theorem exists_rewrite_eq (hne : rule.pattern ≠ []) {text : List α} (h : rule.pattern <:+: text) :
    ∃ front back, text = front ++ (rule.pattern ++ back) ∧
      rewrite [rule] 0 text = front ++ (rule.replacement ++ rewrite [rule] 0 back) := by
  induction text with
  | nil => exact absurd (infix_nil.mp h) hne
  | cons symbol text ih =>
    by_cases hbegins : rule.pattern <+: symbol :: text
    · obtain ⟨back, hback⟩ := hbegins
      refine ⟨[], back, hback.symm, ?_⟩
      rw [← hback]
      exact rewrite_of_match (ruleAt_singleton_self back) hne
    · obtain ⟨front, back, hsplit, hrewrite⟩ := ih ((infix_cons_iff.mp h).resolve_left hbegins)
      refine ⟨symbol :: front, back, by rw [hsplit, cons_append], ?_⟩
      rw [rewrite, ruleAt_singleton_eq_none_iff.mpr hbegins, cons_append, ← hrewrite]

/-- A proper beginning of `later`, kept, and a mark behind it. -/
def IsStuck (mark : α) (later : Rule α) (text : List α) : Prop :=
  ∃ front back, text = front ++ mark :: back ∧ front ≠ [] ∧ front <+: later.pattern ∧
    front.length < later.pattern.length

/-- Words without the mark leave such a text as it starts. -/
theorem IsStuck.replaceAll {text : List α} (h : IsStuck mark later text) (hne : rule.pattern ≠ [])
    (hmark : mark ∉ rule.pattern)
    (hdist : rule = later ∨ ¬ rule.pattern <:+: later.pattern) :
    IsStuck mark later (replaceAll text rule.pattern rule.replacement) := by
  obtain ⟨front, back, rfl, hfront, hbegins, hlen⟩ := h
  refine ⟨front, rewrite [rule] 0 back, ?_, hfront, hbegins, hlen⟩
  have hcont : ¬ rule.pattern <:+: front := by
    intro hcont
    rcases hdist with rfl | hdist
    · have := hcont.length_le
      omega
    · exact hdist (hcont.trans hbegins.isInfix)
  have hhead : ruleAt [rule] (mark :: back) = none := by
    rw [ruleAt_singleton_eq_none_iff]
    intro hword
    obtain ⟨symbol, tail, hpat⟩ := exists_cons_of_ne_nil hne
    rw [hpat, cons_prefix_cons] at hword
    rw [hpat, hword.1] at hmark
    exact hmark mem_cons_self
  rw [replaceAll_eq_rewrite hne, rewrite_append_of_forall, rewrite, hhead]
  intro rest hrest hsuffix
  rw [ruleAt_singleton_eq_none_iff]
  intro hword
  -- a word that begins in `front` and does not end there contains the mark
  rcases isPrefix_append_cases hword with hshort | ⟨tail, hpat, htail⟩
  · exact hcont (hshort.isInfix.trans hsuffix.isInfix)
  · cases tail with
    | nil =>
      rw [append_nil] at hpat
      rw [hpat] at hcont
      exact hcont hsuffix.isInfix
    | cons =>
      rw [cons_prefix_cons] at htail
      apply hmark
      rw [hpat, htail.1]
      exact mem_append_right _ mem_cons_self

/-- What a list of rules is assumed to be: nonempty words that do not contain each other or the
mark, which every replacement starts with. -/
structure Marked (mark : α) (rules : List (Rule α)) : Prop where
  ne_nil : ∀ rule ∈ rules, rule.pattern ≠ []
  notMem : ∀ rule ∈ rules, mark ∉ rule.pattern
  head : ∀ rule ∈ rules, ∃ rest, rule.replacement = mark :: rest
  distinct : ∀ left ∈ rules, ∀ right ∈ rules, left.pattern <:+: right.pattern → left = right

section

variable (hrules : Marked mark rules)

include hrules

theorem IsStuck.rewriteAll {todo : List (Rule α)}
    (htodo : ∀ rule ∈ todo, rule ∈ rules) (hlater : later ∈ rules) {text : List α}
    (h : IsStuck mark later text) : IsStuck mark later (rewriteAll todo text) := by
  induction todo generalizing text with
  | nil => exact h
  | cons rule todo ih =>
    have hrule := htodo rule mem_cons_self
    apply ih fun other hother ↦ htodo other (mem_cons_of_mem _ hother)
    apply h.replaceAll (hrules.ne_nil rule hrule) (hrules.notMem rule hrule)
    by_cases heq : rule = later
    · exact .inl heq
    · exact .inr fun hcont ↦ heq (hrules.distinct rule hrule later hlater hcont)

/-- In two words that overlap, the end of the first replaced one is no longer the start of the
other. -/
theorem isStuck_of_occurs (hrule : rule ∈ rules) (hlater : later ∈ rules)
    (hearlier : earlier ∈ rules) (hne : rule ≠ later) {shared tail : List α} (hshared : shared ≠ [])
    (hpat : earlier.pattern = shared ++ tail) (hcont : rule.pattern <:+: later.pattern ++ tail) :
    IsStuck mark later (replaceAll (later.pattern ++ tail) rule.pattern rule.replacement) := by
  obtain ⟨front, back, hsplit, hrewrite⟩ := exists_rewrite_eq (hrules.ne_nil rule hrule) hcont
  obtain ⟨rest, hrepl⟩ := hrules.head rule hrule
  rw [replaceAll_eq_rewrite (hrules.ne_nil rule hrule), hrewrite, hrepl]
  refine ⟨front, rest ++ rewrite [rule] 0 back, by rw [cons_append], ?_, ?_⟩
  · rintro rfl
    apply hne
    rcases prefix_or_prefix_of_prefix (prefix_append later.pattern tail)
      (hsplit ▸ prefix_append rule.pattern back) with hbegins | hbegins
    · exact (hrules.distinct later hlater rule hrule hbegins.isInfix).symm
    · exact hrules.distinct rule hrule later hlater hbegins.isInfix
  · have hbegins : front <+: later.pattern ++ tail := hsplit ▸ prefix_append _ _
    -- behind `later` there is no room for a word
    have hshort : front.length < later.pattern.length := by
      by_contra hlong
      obtain ⟨gap, rfl⟩ := prefix_of_prefix_length_le (prefix_append later.pattern tail) hbegins
        (not_lt.mp hlong)
      rw [append_assoc, append_cancel_left_eq] at hsplit
      have htail : rule.pattern <:+: tail := ⟨gap, back, by rw [hsplit, append_assoc]⟩
      have hearlier' : rule.pattern <:+: earlier.pattern := by
        rw [hpat]
        exact htail.trans (suffix_append _ _).isInfix
      have hlength := htail.length_le
      rw [hrules.distinct rule hrule earlier hearlier hearlier', hpat, length_append] at hlength
      have hpos := length_pos_iff.mpr hshared
      omega
    exact ⟨prefix_of_prefix_length_le hbegins (prefix_append _ _) hshort.le, hshort⟩

theorem not_occurs_or_isStuck_rewriteAll (hlater : later ∈ rules)
    (hearlier : earlier ∈ rules) {shared tail : List α} (hshared : shared ≠ [])
    (hpat : earlier.pattern = shared ++ tail) {todo : List (Rule α)} (htodo : ∀ rule ∈ todo, rule ∈ rules)
    (hfresh : later ∉ todo) :
    (∀ rule ∈ todo, ¬ rule.pattern <:+: later.pattern ++ tail) ∨
      IsStuck mark later (rewriteAll todo (later.pattern ++ tail)) := by
  induction todo with
  | nil => exact .inl fun _ h ↦ absurd h not_mem_nil
  | cons rule todo ih =>
    have hrule := htodo rule mem_cons_self
    have htodo' : ∀ rule ∈ todo, rule ∈ rules := fun other hother ↦ htodo other (mem_cons_of_mem _ hother)
    rw [mem_cons, not_or] at hfresh
    rw [rewriteAll, foldl_cons]
    by_cases hcont : rule.pattern <:+: later.pattern ++ tail
    · exact .inr ((isStuck_of_occurs hrules hrule hlater hearlier (Ne.symm hfresh.1) hshared hpat
        hcont).rewriteAll hrules htodo' hlater)
    · rw [replaceAll_eq_rewrite (hrules.ne_nil rule hrule),
        rewrite_of_not_occurs hcont (hrules.ne_nil rule hrule)]
      rcases ih htodo' hfresh.2 with hnone | hstuck
      · exact .inl (forall_mem_cons.mpr ⟨hcont, hnone⟩)
      · exact .inr hstuck

/-- A word that runs into one that is replaced before it makes the two ways differ. -/
theorem exists_rewrite_ne_rewriteAll {front middle : List (Rule α)}
    (hsplit : rules = front ++ earlier :: middle) (hlater : later ∈ middle) (hnodup : rules.Nodup)
    (h : RunsInto later.pattern earlier.pattern) :
    ∃ text, rewrite rules 0 text ≠ rewriteAll rules text := by
  obtain ⟨shared, hshared, ⟨head, hhead⟩, tail, hpat⟩ := h
  have hmem : later ∈ rules := by simp [hsplit, hlater]
  have hearlier : earlier ∈ rules := by simp [hsplit]
  refine ⟨later.pattern ++ tail, fun heq ↦ ?_⟩
  have hfirst : ruleAt rules (later.pattern ++ tail) = some later := by
    cases hrule : ruleAt rules (later.pattern ++ tail) with
    | none => exact absurd (prefix_append _ _) (ruleAt_eq_none_iff.mp hrule later hmem)
    | some rule =>
      obtain ⟨hrule, hbegins⟩ := of_ruleAt_eq_some hrule
      rcases prefix_or_prefix_of_prefix (prefix_append later.pattern tail) hbegins with
        hinside | hinside
      · rw [hrules.distinct later hmem rule hrule hinside.isInfix]
      · rw [hrules.distinct rule hrule later hmem hinside.isInfix]
  have hstuck : IsStuck mark later (rewriteAll rules (later.pattern ++ tail)) := by
    have hcut : rules = front ++ [earlier] ++ middle := hsplit.trans (append_cons _ _ _)
    rw [hcut, nodup_append] at hnodup
    have hsub : ∀ rule ∈ front ++ [earlier], rule ∈ rules := by
      rw [hcut]
      exact fun rule hrule ↦ mem_append_left _ hrule
    have hrest : ∀ rule ∈ middle, rule ∈ rules := by
      rw [hcut]
      exact fun rule hrule ↦ mem_append_right _ hrule
    have hcont : earlier.pattern <:+: later.pattern ++ tail := ⟨head, [], by
      rw [← hpat, ← hhead, append_assoc, append_nil, append_assoc]⟩
    have happend : rewriteAll rules (later.pattern ++ tail) =
        rewriteAll middle (rewriteAll (front ++ [earlier]) (later.pattern ++ tail)) := by
      rw [rewriteAll, rewriteAll, rewriteAll, ← foldl_append, ← hcut]
    rw [happend]
    rcases not_occurs_or_isStuck_rewriteAll hrules hmem hearlier hshared hpat.symm hsub
      (fun h ↦ hnodup.2.2 later h later hlater rfl) with hnone | hstuck
    · exact absurd hcont (hnone earlier (mem_append_right _ (mem_singleton_self _)))
    · exact hstuck.rewriteAll hrules hrest hmem
  -- the pass starts with the mark, the other way with a symbol of `later`
  obtain ⟨kept, back, hkept, hne, hbegins, -⟩ := hstuck
  obtain ⟨rest, hrepl⟩ := hrules.head later hmem
  obtain ⟨symbol, kept, rfl⟩ := exists_cons_of_ne_nil hne
  rw [rewrite_of_match hfirst (hrules.ne_nil later hmem), hrepl, hkept, cons_append,
    cons_append, cons.injEq] at heq
  apply hrules.notMem later hmem
  rw [heq.1]
  exact hbegins.subset mem_cons_self

end

end

end

end GajaeCode.Text
