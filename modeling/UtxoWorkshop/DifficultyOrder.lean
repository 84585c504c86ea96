import Mathlib.Algebra.Order.BigOperators.Group.List
import Mathlib.Algebra.Order.Ring.Nat
import UtxoWorkshop.DifficultyPace

/-! How far the timestamps can move the difficulty. A window with more work and smaller deltas is
never given a lower difficulty, and whatever the deltas are, the damping and the clamp keep the
next difficulty between half and one and a half times the average of the window. -/
namespace DifficultyOrder

open MachineWords SlidingWindow DifficultyRetarget DifficultyPallet DifficultyChain
  DifficultyPace

variable {cfg : Config} {initialDifficulty : U256} {s t : Storage} {now later : U64}
  {data data' : List (Option DifficultyAndTimestamp)}

/-- The second window has the empty slots of the first, difficulties that are at least as great
and deltas that are at most as long. -/
structure Faster (cfg : Config) (data data' : List (Option DifficultyAndTimestamp)) : Prop where
  slots : List.Forall₂ (Option.Rel fun r r' : DifficultyAndTimestamp => r.difficulty ≤ r'.difficulty)
    data data'
  deltas : List.Forall₂ (· ≤ ·) (deltas cfg data') (deltas cfg data)

theorem Faster.work_le (h : Faster cfg data data') :
    work initialDifficulty data ≤ work initialDifficulty data' := by
  have hslot : ∀ d d', Option.Rel
      (fun r r' : DifficultyAndTimestamp => r.difficulty ≤ r'.difficulty) d d' →
        (recorded initialDifficulty d).val ≤ (recorded initialDifficulty d').val := by
    intro d d' hd
    cases hd with
    | some hle => exact hle
    | none => exact le_rfl
  apply List.Forall₂.sum_le_sum
  rw [List.forall₂_map_left_iff, List.forall₂_map_right_iff]
  exact h.slots.imp hslot

theorem Faster.span_le (h : Faster cfg data data') : span cfg data' ≤ span cfg data := by
  rw [← deltas_sum, ← deltas_sum]
  apply List.Forall₂.sum_le_sum
  rw [List.forall₂_map_left_iff, List.forall₂_map_right_iff]
  exact h.deltas

/-- Every difficulty that a finalization reads is within the maximum. -/
def WithinMaximum (s : Storage) (data : List (Option DifficultyAndTimestamp)) : Prop :=
  ∀ d ∈ data, (recorded s.initialDifficulty d).val ≤ runtimeConfig.maxDifficulty.val

instance : Decidable (WithinMaximum s data) := inferInstanceAs (Decidable (∀ d ∈ data, _))

theorem runtime_adjusted_pos (span : ℕ) : 0 < runtimeConfig.rule.adjusted span :=
  Rule.adjusted_pos (by decide) (by decide) (by decide) span

theorem retarget_monotone (hs : WithinMaximum s (recordBlock now s).toList)
    (ht : WithinMaximum t (recordBlock later t).toList)
    (hinit : s.initialDifficulty = t.initialDifficulty)
    (h : Faster runtimeConfig (recordBlock now s).toList (recordBlock later t).toList) :
    ∃ s' t', onFinalize runtimeConfig now s = some s' ∧
      onFinalize runtimeConfig later t = some t' ∧
      s'.currentDifficulty ≤ t'.currentDifficulty := by
  obtain ⟨s', hs', hcur⟩ := onFinalize_retargets (work_le hs)
  obtain ⟨t', ht', hcur'⟩ := onFinalize_retargets (work_le ht)
  refine ⟨s', t', hs', ht', ?_⟩
  rw [Fin.le_def, hcur, hcur', hinit]
  exact Rule.retarget_mono (runtime_adjusted_pos _) h.work_le h.span_le

/-- A window at one third of the pace and a greater difficulty. -/
def steadyFast : Storage := { steady 1000 5000000 with initialDifficulty := 4000000 }

theorem steady_faster : Faster runtimeConfig (recordBlock 180000 (steady 3000 4000000)).toList
    (recordBlock 60000 steadyFast).toList := by
  have hslow : (recordBlock 180000 (steady 3000 4000000)).toList =
      (steadyRecords 3000 4000000).map some := by decide +kernel
  have hfast : (recordBlock 60000 steadyFast).toList = (steadyRecords 1000 5000000).map some := by
    decide +kernel
  have hle : (4000000 : U256) ≤ 5000000 := by decide
  refine ⟨?_, by decide +kernel⟩
  simp only [hslow, hfast, steadyRecords, List.forall₂_map_left_iff, List.forall₂_map_right_iff]
  exact List.forall₂_same.mpr fun _ _ => .some hle

theorem steady_monotone : ∃ s' t', onFinalize runtimeConfig 180000 (steady 3000 4000000) = some s' ∧
    onFinalize runtimeConfig 60000 steadyFast = some t' ∧
    s'.currentDifficulty ≤ t'.currentDifficulty :=
  retarget_monotone (by decide +kernel) (by decide +kernel) rfl steady_faster

/-- The damping alone keeps the adjusted time above two thirds of the window; the clamp is what
keeps it below two windows. -/
theorem runtime_adjusted_bounds (span : ℕ) :
    120000 ≤ runtimeConfig.rule.adjusted span ∧ runtimeConfig.rule.adjusted span ≤ 360000 := by
  have hwindow : runtimeConfig.rule.window = 180000 := by decide
  have hdamp : runtimeConfig.rule.dampFactor = 3 := by decide
  have hclamp : runtimeConfig.rule.clampFactor = 2 := by decide
  rw [Rule.adjusted, DifficultyRetarget.clamp, DifficultyRetarget.damp, hwindow, hdamp, hclamp]
  omega

theorem quotient_bounds {n adjusted : ℕ} (hlow : 120000 ≤ adjusted) (hhigh : adjusted ≤ 360000) :
    n / 120 ≤ n * 3000 / adjusted ∧ n * 3000 / adjusted ≤ n / 40 := by
  have hwide : n * 3000 / 360000 = n / 120 := Nat.mul_div_mul_right n 120 (by decide : 0 < 3000)
  have hnarrow : n * 3000 / 120000 = n / 40 := Nat.mul_div_mul_right n 40 (by decide : 0 < 3000)
  rw [← hwide, ← hnarrow]
  exact ⟨Nat.div_le_div_left hhigh (by omega), Nat.div_le_div_left hlow (by decide)⟩

/-- The difficulty the rule reckons with: what the window has spent, and at least the minimum. -/
def reckoned (s : Storage) (data : List (Option DifficultyAndTimestamp)) : ℕ :=
  max runtimeConfig.minDifficulty.val (data.map fun d => (recorded s.initialDifficulty d).val).sum

/-- Miners choose the timestamps, and with them no more than half the average up or down. -/
theorem timestamps_bounded (hs : WithinMaximum s (recordBlock now s).toList) :
    ∃ s', onFinalize runtimeConfig now s = some s' ∧
      min runtimeConfig.maxDifficulty.val
          (max runtimeConfig.minDifficulty.val (reckoned s (recordBlock now s).toList / 120)) ≤
        s'.currentDifficulty.val ∧
      s'.currentDifficulty.val ≤
        max runtimeConfig.minDifficulty.val (reckoned s (recordBlock now s).toList / 40) := by
  obtain ⟨s', hs', hcur⟩ := onFinalize_retargets (work_le hs)
  obtain ⟨hlow, hhigh⟩ := runtime_adjusted_bounds (span runtimeConfig (recordBlock now s).toList)
  obtain ⟨hdown, hup⟩ := quotient_bounds (n := reckoned s (recordBlock now s).toList) hlow hhigh
  have hmin : runtimeConfig.minDifficulty.val = 3 := by decide
  have hreckoned : max (work s.initialDifficulty (recordBlock now s).toList) 3 =
      reckoned s (recordBlock now s).toList := by
    rw [max_comm, reckoned, hmin, work]
  rw [runtime_retarget, hreckoned] at hcur
  refine ⟨s', hs', ?_, ?_⟩
  · rw [hcur, hmin]
    exact min_le_min_left _ (max_le_max_left _ hdown)
  · rw [hcur, hmin]
    exact (min_le_right _ _).trans (max_le_max_left _ hup)

/-- The last block claims the greatest timestamp of all. -/
theorem extreme_timestamp_bounded : ∃ s',
    onFinalize runtimeConfig (Fin.last _) (steady 3000 4000000) = some s' ∧
      min runtimeConfig.maxDifficulty.val (max runtimeConfig.minDifficulty.val
          (reckoned (steady 3000 4000000)
            (recordBlock (Fin.last _) (steady 3000 4000000)).toList / 120)) ≤
        s'.currentDifficulty.val ∧
      s'.currentDifficulty.val ≤ max runtimeConfig.minDifficulty.val
        (reckoned (steady 3000 4000000)
          (recordBlock (Fin.last _) (steady 3000 4000000)).toList / 40) :=
  timestamps_bounded (by decide +kernel)

end DifficultyOrder
