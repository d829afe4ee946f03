import Mathlib.Data.List.Basic
import Mathlib.Data.List.TakeWhile

/-!
# Local parsers

A parser takes a value off the front of a text. It is local if it takes the same in front of other
texts. What may follow is a condition on the rest, as the condition of the text before it follows
from what was taken, so that local parsers compose.
-/

namespace GajaeCode.Machine

open List Option

variable {υ α β : Type} {pre mid post : List υ → Prop}
  {parse again : List υ → Option (α × List υ)}

/-- What `parse` takes off a text, `again` takes off in front of every rest with `post`, and the
whole then has `pre`. -/
def Local (pre post : List υ → Prop) (parse again : List υ → Option (α × List υ)) : Prop :=
  ∀ ⦃text value rest⦄, parse text = some (value, rest) → ∃ taken, text = taken ++ rest ∧
    ∀ more, post more → pre (taken ++ more) ∧ again (taken ++ more) = some (value, more)

namespace Local

theorem weaken {pre' post' : List υ → Prop} (h : Local pre post parse again)
    (hpre : ∀ text, pre text → pre' text) (hpost : ∀ text, post' text → post text) :
    Local pre' post' parse again := by
  intro text value rest hparse
  obtain ⟨taken, htext, hlocal⟩ := h hparse
  refine ⟨taken, htext, fun more hmore ↦ ?_⟩
  have hagain := hlocal more (hpost more hmore)
  exact ⟨hpre _ hagain.1, hagain.2⟩

/-- A condition that what stands in front of a text does not change can be carried along. -/
theorem and {keep : List υ → Prop} (h : Local pre post parse again)
    (hkeep : ∀ front text, keep text → keep (front ++ text)) :
    Local (fun text ↦ pre text ∧ keep text) (fun text ↦ post text ∧ keep text) parse again := by
  intro text value rest hparse
  obtain ⟨taken, htext, hlocal⟩ := h hparse
  refine ⟨taken, htext, fun more hmore ↦ ?_⟩
  have hagain := hlocal more hmore.1
  exact ⟨⟨hagain.1, hkeep taken more hmore.2⟩, hagain.2⟩

theorem none : Local pre post (fun _ ↦ Option.none) again := nofun

theorem pure (value : α) (h : ∀ more, post more → pre more) :
    Local pre post (fun text ↦ some (value, text)) fun text ↦ some (value, text) := by
  rintro text _ _ ⟨⟩
  exact ⟨[], rfl, fun more hmore ↦ ⟨h more hmore, rfl⟩⟩

theorem map (build : α → β) (h : Local pre post parse again) :
    Local pre post (fun text ↦ (parse text).map fun parsed ↦ (build parsed.1, parsed.2))
      fun text ↦ (again text).map fun parsed ↦ (build parsed.1, parsed.2) := by
  intro text _ _ hparse
  obtain ⟨⟨value, rest⟩, hvalue, ⟨⟩⟩ := map_eq_some_iff.mp hparse
  obtain ⟨taken, htext, hlocal⟩ := h hvalue
  refine ⟨taken, htext, fun more hmore ↦ ?_⟩
  obtain ⟨hpre, hagain⟩ := hlocal more hmore
  simp only [hagain]
  exact ⟨hpre, rfl⟩

theorem bind {next next' : α × List υ → Option (β × List υ)} (h : Local pre mid parse again)
    (hnext : ∀ value, Local mid post (fun rest ↦ next (value, rest)) fun rest ↦ next' (value, rest)) :
    Local pre post (fun text ↦ (parse text).bind next) fun text ↦ (again text).bind next' := by
  intro text value rest hparse
  obtain ⟨⟨first, tail⟩, hfirst, hbehind⟩ := bind_eq_some_iff.mp hparse
  obtain ⟨taken, rfl, hlocal⟩ := h hfirst
  obtain ⟨taken', rfl, hlocal'⟩ := hnext first hbehind
  refine ⟨taken ++ taken', (append_assoc ..).symm, fun more hmore ↦ ?_⟩
  obtain ⟨hmid, hagain'⟩ := hlocal' more hmore
  obtain ⟨hpre, hagain⟩ := hlocal _ hmid
  simp only [append_assoc, hagain]
  exact ⟨hpre, hagain'⟩

/-- A parser that takes something can be started behind a look at the first unit. -/
theorem peek (h : Local pre post parse again) (hpre : ¬ pre []) (hpost : post []) (unit : υ) :
    Local (fun rest ↦ pre (unit :: rest)) post (fun rest ↦ parse (unit :: rest))
      fun rest ↦ again (unit :: rest) := by
  intro text value rest hparse
  obtain ⟨taken, htext, hlocal⟩ := h hparse
  cases taken with
  | nil => exact absurd (hlocal [] hpost).1 hpre
  | cons first taken =>
    obtain ⟨rfl, rfl⟩ := htext
    exact ⟨taken, rfl, hlocal⟩

/-- A parser that skips some units first is local if it is behind every other unit. -/
theorem of_solid (skipped : υ → Bool) (hnil : parse [] = Option.none)
    (hparse : ∀ text, parse (text.dropWhile skipped) = parse text)
    (hagain : ∀ text, again (text.dropWhile skipped) = again text)
    (hpre : ∀ front text, (∀ unit ∈ front, skipped unit) → pre text → pre (front ++ text))
    (h : ∀ unit, skipped unit = false → Local (fun rest ↦ pre (unit :: rest)) post
      (fun rest ↦ parse (unit :: rest)) fun rest ↦ again (unit :: rest)) :
    Local pre post parse again := by
  intro text value rest hvalue
  have hfront : ∀ unit ∈ text.takeWhile skipped, skipped unit :=
    fun unit hunit ↦ mem_takeWhile_imp hunit
  have hhead := head?_dropWhile_not skipped text
  have htext : text.takeWhile skipped ++ text.dropWhile skipped = text := takeWhile_append_dropWhile
  rw [← hparse] at hvalue
  cases hsolid : text.dropWhile skipped with
  | nil => simp [hsolid, hnil] at hvalue
  | cons unit =>
    rw [hsolid] at hvalue hhead htext
    have hunit : skipped unit = false := by simpa using hhead
    obtain ⟨taken, rfl, hlocal⟩ := h unit hunit hvalue
    refine ⟨text.takeWhile skipped ++ unit :: taken, by simp [htext], fun more hmore ↦ ?_⟩
    obtain ⟨hwhole, hread⟩ := hlocal more hmore
    rw [append_assoc, cons_append, ← hagain, dropWhile_append_of_pos hfront,
      dropWhile_cons_of_neg (by simp [hunit])]
    exact ⟨hpre _ _ hfront hwhole, hread⟩

/-- A parser with a default for texts that do not start with one of its units. -/
theorem of_optional (starts : υ → Prop) {default : α} (hnil : parse [] = some (default, []))
    (hother : ∀ unit rest, ¬ starts unit → parse (unit :: rest) = some (default, unit :: rest))
    (hpost : ∀ more, post more → pre more ∧ again more = some (default, more))
    (h : ∀ unit, starts unit → Local (fun rest ↦ pre (unit :: rest)) post
      (fun rest ↦ parse (unit :: rest)) fun rest ↦ again (unit :: rest)) :
    Local pre post parse again := by
  intro text value rest hparse
  have hnothing (htext : parse text = some (default, text)) : ∃ taken, text = taken ++ rest ∧
      ∀ more, post more → pre (taken ++ more) ∧ again (taken ++ more) = some (value, more) := by
    obtain ⟨rfl, rfl⟩ := htext.symm.trans hparse
    exact ⟨[], rfl, hpost⟩
  cases text with
  | nil => exact hnothing hnil
  | cons unit tail =>
    by_cases hunit : starts unit
    · obtain ⟨taken, rfl, hlocal⟩ := h unit hunit hparse
      exact ⟨unit :: taken, rfl, hlocal⟩
    · exact hnothing (hother unit tail hunit)

end Local

end GajaeCode.Machine
