import GajaeCode.Compaction.Settings
import Mathlib.Tactic.Positivity

/-!
# When a compaction starts

`shouldCompact` compares the context's tokens with the resolved threshold, which for an adaptive
configuration itself depends on the tokens. A trigger is sane when it rises with the token count, is
off for an empty context and on for a full one.
-/

namespace GajaeCode.Compaction

inductive CompactionStrategy
  | contextFull
  | handoff
  | off
  deriving DecidableEq

/-- The threshold settings with the switch and the strategy in front of them. -/
structure TriggerSettings extends CompactionSettings where
  enabled : Bool
  strategy : Option CompactionStrategy

def defaultTriggerSettings : TriggerSettings :=
  { defaultCompactionSettings with enabled := true, strategy := some .contextFull }

def shouldCompact (contextTokens contextWindow : ℚ) (settings : TriggerSettings)
    (maxOutputTokens : ℚ) : Bool :=
  if !settings.enabled || settings.strategy = some .off || contextWindow ≤ 0 then false
  else resolveThresholdTokens contextWindow settings.toCompactionSettings maxOutputTokens
    (some contextTokens) < contextTokens

variable {window output : ℚ} {settings : TriggerSettings}

theorem shouldCompact_iff (contextTokens : ℚ) (hwindow : 0 < window)
    (henabled : settings.enabled) (hstrategy : settings.strategy ≠ some .off) :
    shouldCompact contextTokens window settings output ↔
      resolveThresholdTokens window settings.toCompactionSettings output
        (some contextTokens) < contextTokens := by
  simp [shouldCompact, henabled, hstrategy, not_le.mpr hwindow]

/-! ## Percentages -/

theorem mathFloor_le (x : ℚ) : mathFloor x ≤ x := Int.floor_le x

theorem clampPercent_mem (percent : ℚ) : clampPercent percent ∈ Set.Icc (1 : ℚ) 99 :=
  ⟨le_min (by norm_num) (le_max_left _ _), min_le_left _ _⟩

/-- A threshold at a clamped percentage is neither negative nor the whole window. -/
theorem mathFloor_percent_mem {percent : ℚ} (hwindow : 0 < window)
    (hpercent : percent ∈ Set.Icc (1 : ℚ) 99) :
    mathFloor (window * (percent / 100)) ∈ Set.Ico 0 window := by
  have hlow : 0 ≤ window * (percent / 100) :=
    mul_nonneg hwindow.le (div_nonneg (by linarith [hpercent.1]) (by norm_num))
  refine ⟨Int.cast_nonneg (Int.floor_nonneg.mpr hlow), ?_⟩
  calc mathFloor (window * (percent / 100)) ≤ window * (percent / 100) := mathFloor_le _
    _ < window * 1 := by
        apply mul_lt_mul_of_pos_left _ hwindow
        linarith [hpercent.2]
    _ = window := mul_one _

/-- An adaptive threshold takes one percentage while the context is filled little and another one
from there on. -/
theorem computeAdaptiveThresholdPercent_eq_ite (hwindow : 0 < window)
    (basePercent : Option ℚ) (state : Option AdaptiveCompactionDecisionState)
    (opts : AdaptiveCompactionOptions) :
    ∃ early ∈ Set.Icc (1 : ℚ) 99, ∃ late ∈ Set.Icc (1 : ℚ) 99, ∀ contextTokens,
      computeAdaptiveThresholdPercent basePercent contextTokens window state opts =
        if max 0 contextTokens / window < early / 100 * (7 / 10) then early else late := by
  have hbase : (basePercent.map clampPercent).getD 85 ∈ Set.Icc (1 : ℚ) 99 := by
    cases basePercent with
    | none => norm_num
    | some percent => exact clampPercent_mem percent
  refine ⟨_, hbase, ?_⟩
  unfold computeAdaptiveThresholdPercent
  cases state with
  | none => exact ⟨_, hbase, fun _ ↦ (ite_self _).symm⟩
  | some state =>
    cases positive? opts.turnWindow with
    | none => exact ⟨_, hbase, fun _ ↦ (ite_self _).symm⟩
    | some =>
      simp only [if_neg (not_le.mpr hwindow)]
      by_cases hturns : max 0 (state.turnsSinceCompact.getD 0) ≤ 3
      · exact ⟨_, hbase, fun _ ↦ by simp only [if_pos hturns]⟩
      · refine ⟨_, ?_, fun _ ↦ by simp only [if_neg hturns]; rfl⟩
        exact ⟨le_max_left _ _, max_le (by norm_num) (min_le_left _ _)⟩

/-- A context that a percentage stops is past the early fill of an adaptive threshold. -/
theorem not_early_of_mathFloor_lt {percent : ℚ} (hwindow : 0 < window)
    (hpercent : percent ∈ Set.Icc (1 : ℚ) 99) {tokens : ℕ}
    (htokens : mathFloor (window * (percent / 100)) < tokens) :
    ¬ max 0 (tokens : ℚ) / window < percent / 100 * (7 / 10) := by
  have hpos : 0 < window * (percent / 100) :=
    mul_pos hwindow (div_pos (by linarith [hpercent.1]) (by norm_num))
  have hceil : window * (percent / 100) < tokens := by
    -- both sides of the comparison are whole numbers
    have hfloor : ⌊window * (percent / 100)⌋ < (tokens : ℤ) := Int.cast_lt.mp htokens
    exact Int.floor_lt.mp hfloor
  rw [max_eq_right (Nat.cast_nonneg tokens), not_lt, le_div_iff₀ hwindow]
  calc percent / 100 * (7 / 10) * window = window * (percent / 100) * (7 / 10) := by ring
    _ ≤ window * (percent / 100) := by linarith
    _ ≤ tokens := hceil.le

/-! ## Sanity -/

/-- The windows whose threshold leaves room on both sides: a fixed limit needs one token; a
percentage always fits; the default needs its reserves to fit and one of them to count. -/
def ThresholdFits (window : ℚ) (settings : TriggerSettings) (output : ℚ) : Prop :=
  match positive? settings.thresholdTokens, positive? settings.thresholdPercent,
    settings.adaptive.filter AdaptiveCompactionOptions.enabled with
  | some _, _, _ => 1 ≤ window
  | none, none, none => settings.reserveTokens ≤ window ∧ output ≤ window ∧
      (20 / 3 ≤ window ∨ 0 < settings.reserveTokens ∨ 0 < output)
  | none, _, _ => True

/-- The trigger rises with the token count, is off at no tokens and on at a full window. -/
def TriggerSane (window : ℚ) (settings : TriggerSettings) (output : ℚ) : Prop :=
  (∀ tokens tokens' : ℕ, tokens ≤ tokens' →
    shouldCompact tokens window settings output = true →
      shouldCompact tokens' window settings output = true) ∧
    shouldCompact 0 window settings output = false ∧
    shouldCompact window window settings output = true

/-- A threshold that does not depend on the tokens is sane exactly when it lies in the window. -/
theorem sane_of_constant {threshold : ℚ → ℚ} {limit : ℚ} (h : ∀ tokens, threshold tokens = limit) :
    ((∀ tokens tokens' : ℕ, tokens ≤ tokens' → threshold tokens < tokens →
      threshold tokens' < tokens') ∧ ¬ threshold 0 < 0 ∧ threshold window < window) ↔
      limit ∈ Set.Ico 0 window := by
  simp only [h, not_lt, Set.mem_Ico]
  refine and_iff_right fun tokens tokens' hle hlt ↦ hlt.trans_le (by exact_mod_cast hle)

theorem fixedLimit_mem_iff {thresholdTokens : ℚ} :
    min (window - 1) (max 1 thresholdTokens) ∈ Set.Ico 0 window ↔ 1 ≤ window := by
  have hfull : min (window - 1) (max 1 thresholdTokens) < window :=
    (min_le_left _ _).trans_lt (by linarith)
  have hroom : 0 ≤ max 1 thresholdTokens := zero_le_one.trans (le_max_left _ _)
  rw [Set.mem_Ico, and_iff_left hfull, le_min_iff, and_iff_left hroom, sub_nonneg]

/-- The default threshold lies in the window when no reserve exceeds it and one is positive. -/
theorem defaultThreshold_mem_iff (hwindow : 0 < window) :
    min (window - effectiveReserveTokens window settings.toCompactionSettings
      output) defaultAutoThresholdCeilingTokens ∈ Set.Ico 0 window ↔
      settings.reserveTokens ≤ window ∧ output ≤ window ∧
        (20 / 3 ≤ window ∨ 0 < settings.reserveTokens ∨ 0 < output) := by
  have hshare : mathFloor (window * (15 / 100)) ≤ window := (mathFloor_le _).trans (by linarith)
  have hcounts : 0 < mathFloor (window * (15 / 100)) ↔ 20 / 3 ≤ window := by
    calc 0 < mathFloor (window * (15 / 100))
        ↔ 1 ≤ window * (15 / 100) := Int.cast_pos.trans (Int.floor_pos (a := window * (15 / 100)))
      _ ↔ 20 / 3 ≤ window := by constructor <;> intro h <;> linarith
  have hceiling : (0 : ℚ) ≤ defaultAutoThresholdCeilingTokens := by
    norm_num [defaultAutoThresholdCeilingTokens]
  have hlarge : defaultAutoThresholdCeilingTokens < window → 20 / 3 ≤ window := by
    norm_num [defaultAutoThresholdCeilingTokens]
    intro h
    linarith
  simp only [Set.mem_Ico, le_min_iff, min_lt_iff, hceiling, sub_nonneg, sub_lt_self_iff,
    effectiveReserveTokens, max_le_iff, lt_max_iff, hshare, hwindow.le, hcounts, lt_irrefl]
  tauto

/-- An adaptive threshold never falls behind the tokens again. -/
theorem adaptive_monotone (hwindow : 0 < window) (basePercent : Option ℚ)
    (state : Option AdaptiveCompactionDecisionState) (opts : AdaptiveCompactionOptions)
    {tokens tokens' : ℕ} (hle : tokens ≤ tokens')
    (h : mathFloor (window * (computeAdaptiveThresholdPercent basePercent tokens
      window state opts / 100)) < tokens) :
    mathFloor (window * (computeAdaptiveThresholdPercent basePercent tokens'
      window state opts / 100)) < tokens' := by
  obtain ⟨early, hearly, late, -, heq⟩ :=
    computeAdaptiveThresholdPercent_eq_ite hwindow basePercent state opts
  rw [heq] at h ⊢
  have hfilled : ¬ max 0 (tokens : ℚ) / window < early / 100 * (7 / 10) := by
    intro hlow
    rw [if_pos hlow] at h
    exact not_early_of_mathFloor_lt hwindow hearly h hlow
  have hcast : (tokens : ℚ) ≤ tokens' := Nat.cast_le.mpr hle
  have hfilled' : ¬ max 0 (tokens' : ℚ) / window < early / 100 * (7 / 10) := by
    apply mt (lt_of_le_of_lt _) hfilled
    exact div_le_div_of_nonneg_right (max_le_max_left 0 hcast) hwindow.le
  rw [if_neg hfilled] at h
  rw [if_neg hfilled']
  exact h.trans_le hcast

/-- The trigger is sane exactly for the thresholds that fit the window. -/
theorem triggerSane_iff (hwindow : 0 < window) (henabled : settings.enabled = true)
    (hstrategy : settings.strategy ≠ some .off) :
    TriggerSane window settings output ↔ ThresholdFits window settings output := by
  simp only [TriggerSane, ← Bool.not_eq_true,
    shouldCompact_iff _ hwindow henabled hstrategy, ThresholdFits, resolveThresholdTokens]
  cases positive? settings.thresholdTokens with
  | some => exact (sane_of_constant fun _ ↦ rfl).trans fixedLimit_mem_iff
  | none =>
    cases settings.adaptive.filter AdaptiveCompactionOptions.enabled with
    | none =>
      cases positive? settings.thresholdPercent with
      | none => exact (sane_of_constant fun _ ↦ rfl).trans (defaultThreshold_mem_iff hwindow)
      | some thresholdPercent =>
        have hmem := mathFloor_percent_mem hwindow (clampPercent_mem thresholdPercent)
        exact (sane_of_constant fun _ ↦ rfl).trans (iff_true_intro hmem)
    | some adaptive =>
      have hmem : ∀ tokens, mathFloor (window * (computeAdaptiveThresholdPercent
          adaptive.baseThresholdPercent tokens window settings.adaptiveState adaptive / 100)) ∈
          Set.Ico 0 window := by
        intro tokens
        obtain ⟨early, hearly, late, hlate, heq⟩ := computeAdaptiveThresholdPercent_eq_ite hwindow
          adaptive.baseThresholdPercent settings.adaptiveState adaptive
        apply mathFloor_percent_mem hwindow
        rw [heq]
        split
        · exact hearly
        · exact hlate
      have hrecent : ∀ tokens, 0 ≤ tokens → adaptiveContextTokens (some tokens)
          (settings.adaptiveState.bind AdaptiveCompactionDecisionState.lastContextTokens) = tokens :=
        fun _ hnonneg ↦ max_eq_right hnonneg
      simp only [hrecent _ (Nat.cast_nonneg _)]
      refine iff_of_true ⟨?_, not_lt.mpr (hmem _).1, (hmem _).2⟩ ?_
      · intro tokens tokens' hle h
        exact adaptive_monotone hwindow _ _ _ hle h
      · cases positive? settings.thresholdPercent <;> trivial

theorem defaultTriggerSettings_sane : TriggerSane 200000 defaultTriggerSettings 0 := by
  apply (triggerSane_iff (by norm_num) rfl (by decide)).mpr
  have hreserve : ThresholdFits 200000 defaultTriggerSettings 0 ↔
      (16384 : ℚ) ≤ 200000 ∧ (0 : ℚ) ≤ 200000 ∧
        ((20 / 3 : ℚ) ≤ 200000 ∨ (0 : ℚ) < 16384 ∨ (0 : ℚ) < 0) := Iff.rfl
  rw [hreserve]
  norm_num

/-- A window smaller than the default reserve is compacted while it is still empty. -/
theorem shouldCompact_empty_context : shouldCompact 0 8192 defaultTriggerSettings 0 = true := by
  decide +kernel

end GajaeCode.Compaction
