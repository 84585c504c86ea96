import Mathlib.Order.Lattice
import Mathlib.Order.MinMax
import Mathlib.Data.Nat.Basic
import Mathlib.Tactic.Common

/-! Retargeting over the natural numbers: a measured time span is damped toward its goal and
clamped around it, and the difficulty that was spent in that span is divided by what is left. -/
namespace DifficultyRetarget

def damp (actual goal dampFactor : ℕ) : ℕ := (actual + (dampFactor - 1) * goal) / dampFactor

def clamp (actual goal clampFactor : ℕ) : ℕ :=
  max (goal / clampFactor) (min actual (goal * clampFactor))

/-- The rule for a window of `slots` blocks. -/
structure Rule where
  slots : ℕ
  targetBlockTime : ℕ
  dampFactor : ℕ
  clampFactor : ℕ
  maxDifficulty : ℕ
  minDifficulty : ℕ

def Rule.window (r : Rule) : ℕ := r.slots * r.targetBlockTime

/-- The span the rule reckons with when `span` was measured. -/
def Rule.adjusted (r : Rule) (span : ℕ) : ℕ :=
  clamp (damp (max 1 span) r.window r.dampFactor) r.window r.clampFactor

def Rule.retarget (r : Rule) (work span : ℕ) : ℕ :=
  min r.maxDifficulty (max r.minDifficulty
    (max work r.minDifficulty * r.targetBlockTime / r.adjusted span))

theorem clamp_le (actual goal : ℕ) {clampFactor : ℕ} (hc : 0 < clampFactor) :
    clamp actual goal clampFactor ≤ goal * clampFactor := by
  apply max_le _ (min_le_right _ _)
  exact (Nat.div_le_self _ _).trans (Nat.le_mul_of_pos_right _ hc)

theorem damp_pos {actual goal dampFactor : ℕ} (ha : 0 < actual) (hg : 0 < goal)
    (hf : 0 < dampFactor) : 0 < damp actual goal dampFactor := by
  apply Nat.div_pos _ hf
  have hpull : dampFactor - 1 ≤ (dampFactor - 1) * goal := Nat.le_mul_of_pos_right _ hg
  omega

/-- Positive parameters never lead to a division by zero. -/
theorem Rule.adjusted_pos {r : Rule} (hw : 0 < r.window) (hd : 0 < r.dampFactor)
    (hc : 0 < r.clampFactor) (span : ℕ) : 0 < r.adjusted span := by
  have hdamp := damp_pos (Nat.lt_of_lt_of_le Nat.one_pos (le_max_left 1 span)) hw hd
  have hhigh : 0 < r.window * r.clampFactor := Nat.mul_pos hw hc
  exact (lt_min hdamp hhigh).trans_le (le_max_right _ _)

theorem damp_mono {a b : ℕ} (h : a ≤ b) (goal dampFactor : ℕ) :
    damp a goal dampFactor ≤ damp b goal dampFactor :=
  Nat.div_le_div_right (Nat.add_le_add_right h _)

theorem clamp_mono {a b : ℕ} (h : a ≤ b) (goal clampFactor : ℕ) :
    clamp a goal clampFactor ≤ clamp b goal clampFactor :=
  max_le_max_left _ (min_le_min_right _ h)

theorem Rule.adjusted_mono (r : Rule) {span span' : ℕ} (h : span ≤ span') :
    r.adjusted span ≤ r.adjusted span' :=
  clamp_mono (damp_mono (max_le_max_left 1 h) _ _) _ _

/-- More work in less time never lowers the difficulty. -/
theorem Rule.retarget_mono {r : Rule} {work work' span span' : ℕ} (hpos : 0 < r.adjusted span')
    (hwork : work ≤ work') (hspan : span' ≤ span) :
    r.retarget work span ≤ r.retarget work' span' := by
  have hproduct : max work r.minDifficulty * r.targetBlockTime ≤
      max work' r.minDifficulty * r.targetBlockTime :=
    Nat.mul_le_mul_right _ (max_le_max_right _ hwork)
  have hquotient := Nat.div_le_div hproduct (r.adjusted_mono hspan) hpos.ne'
  exact min_le_min_left _ (max_le_max_left _ hquotient)

theorem Rule.retarget_le (r : Rule) (work span : ℕ) : r.retarget work span ≤ r.maxDifficulty :=
  min_le_left _ _

theorem Rule.le_retarget {r : Rule} (h : r.minDifficulty ≤ r.maxDifficulty) (work span : ℕ) :
    r.minDifficulty ≤ r.retarget work span :=
  le_min h (le_max_left _ _)

end DifficultyRetarget
