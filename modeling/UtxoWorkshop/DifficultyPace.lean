import UtxoWorkshop.DifficultyChain

/-! The difficulty of a steady chain. Sixty blocks at one pace have 59 gaps between them, and
they are measured against a nominal window of 60 target times: on-target blocks look fast by one
part in 180, and the difficulty drifts upward wherever that part is a whole unit. -/
namespace DifficultyPace

open MachineWords SlidingWindow DifficultyRetarget DifficultyPallet DifficultyChain

variable {s : Storage} {now : U64} {v initialDifficulty : U256} {pace : ℕ}
  {data : List (Option DifficultyAndTimestamp)}

/-- A full window of blocks at difficulty `v`, each `pace` after the one before. -/
def Paced (pace : ℕ) (v : U256) (data : List (Option DifficultyAndTimestamp)) : Prop :=
  ∃ records : List DifficultyAndTimestamp, data = records.map some ∧
    (∀ r ∈ records, r.difficulty = v) ∧
    records.IsChain fun a b => time b = time a + pace

theorem work_paced (h : Paced pace v data) : work initialDifficulty data = data.length * v.val := by
  obtain ⟨records, rfl, hv, -⟩ := h
  have hmap : (records.map some).map (fun d => (recorded initialDifficulty d).val) =
      List.replicate (records.map some).length v.val := by
    rw [List.map_map, List.length_map, List.map_eq_replicate_iff]
    intro r hr
    exact congrArg Fin.val (hv r hr)
  rw [work, hmap, List.sum_replicate_nat]

theorem span_paced {cfg : Config} (h : Paced pace v data) :
    span cfg data = (data.length - 1) * pace := by
  obtain ⟨records, rfl, -, hchain⟩ := h
  cases records with
  | nil => simp [span, gaps]
  | cons r records =>
    rw [span, gaps_sum_paced _ hchain, List.length_map, List.length_cons, Nat.add_sub_cancel]

/-- The retarget of a steady window is the rule applied to 60 blocks and 59 gaps. -/
theorem onFinalize_paced (hv : v.val ≤ runtimeConfig.maxDifficulty.val)
    (hw : Paced pace v (recordBlock now s).toList) :
    ∃ s', onFinalize runtimeConfig now s = some s' ∧
      s'.currentDifficulty.val = runtimeConfig.rule.retarget (60 * v.val) (59 * pace) := by
  have hspan : span runtimeConfig (recordBlock now s).toList = 59 * pace := by
    rw [span_paced hw, Vector.length_toList]
  have hwork : work s.initialDifficulty (recordBlock now s).toList = 60 * v.val := by
    rw [work_paced hw, Vector.length_toList]
  obtain ⟨s', hs', hcur⟩ := onFinalize_retargets (hwork.trans_le (Nat.mul_le_mul_left 60 hv))
  exact ⟨s', hs', by rw [hcur, hspan, hwork]⟩

theorem runtime_retarget (work span : ℕ) : runtimeConfig.rule.retarget work span =
    min runtimeConfig.maxDifficulty.val
      (max 3 (max work 3 * 3000 / runtimeConfig.rule.adjusted span)) := by
  have htarget : runtimeConfig.rule.targetBlockTime = 3000 := by decide
  have hlow : runtimeConfig.rule.minDifficulty = 3 := by decide
  have hhigh : runtimeConfig.rule.maxDifficulty = runtimeConfig.maxDifficulty.val := rfl
  rw [Rule.retarget, htarget, hlow, hhigh]

/-- Exactly the small difficulties, and the greatest one, are fixed by on-target blocks. -/
theorem on_target_keeps_iff (hmin : runtimeConfig.minDifficulty.val ≤ v.val)
    (hmax : v.val ≤ runtimeConfig.maxDifficulty.val)
    (hw : Paced runtimeConfig.targetBlockTime v (recordBlock now s).toList) :
    ∃ s', onFinalize runtimeConfig now s = some s' ∧
      (s'.currentDifficulty = v ↔ v.val < 179 ∨ v.val = runtimeConfig.maxDifficulty.val) := by
  obtain ⟨s', hs', hcur⟩ := onFinalize_paced hmax hw
  refine ⟨s', hs', ?_⟩
  have hpace : 59 * runtimeConfig.targetBlockTime.val = 177000 := by decide
  have hadjusted : runtimeConfig.rule.adjusted 177000 = 179000 := by decide
  have hfloor : runtimeConfig.minDifficulty.val = 3 := by decide
  rw [hpace, runtime_retarget, hadjusted] at hcur
  rw [Fin.ext_iff, hcur]
  omega

/-- The state after 60 blocks at one pace, before the block that follows them. -/
def steady (pace : ℕ) (v : U256) : Storage where
  pastDifficultiesAndTimestamps := Vector.ofFn fun i : Fin 60 =>
    some { difficulty := v, timestamp := Fin.ofNat _ (i.val * pace) }
  currentDifficulty := v
  initialDifficulty := v

def steadyRecords (pace : ℕ) (v : U256) : List DifficultyAndTimestamp :=
  (List.range 60).map fun i => { difficulty := v, timestamp := Fin.ofNat _ ((i + 1) * pace) }

theorem on_target_paced : Paced runtimeConfig.targetBlockTime 4000000
    (recordBlock 180000 (steady 3000 4000000)).toList :=
  ⟨steadyRecords 3000 4000000, by decide +kernel, by decide +kernel, by decide +kernel⟩

theorem on_target_demo : ∃ s', onFinalize runtimeConfig 180000 (steady 3000 4000000) = some s' ∧
    (s'.currentDifficulty = 4000000 ↔ (4000000 : U256).val < 179 ∨
      (4000000 : U256).val = runtimeConfig.maxDifficulty.val) :=
  on_target_keeps_iff (by decide +kernel) (by decide +kernel) on_target_paced

/-- The node's own initial difficulty, on target for a whole window. -/
theorem on_target_drifts : Paced runtimeConfig.targetBlockTime 4000000
      (recordBlock 180000 (steady 3000 4000000)).toList ∧
    (onFinalize runtimeConfig 180000 (steady 3000 4000000)).map Storage.currentDifficulty =
      some 4022346 :=
  ⟨on_target_paced, by decide +kernel⟩

/-- `MinimumPeriod` of the timestamp pallet, the smallest time between two blocks. -/
def minimumPeriod : U64 := 1000

/-- Blocks as fast as the chain permits raise every difficulty but the minimum. -/
theorem fastest_raises_iff (hmin : runtimeConfig.minDifficulty.val ≤ v.val)
    (hmax : v.val < runtimeConfig.maxDifficulty.val)
    (hw : Paced minimumPeriod v (recordBlock now s).toList) :
    ∃ s', onFinalize runtimeConfig now s = some s' ∧
      (v < s'.currentDifficulty ↔ v.val ≠ runtimeConfig.minDifficulty.val) := by
  obtain ⟨s', hs', hcur⟩ := onFinalize_paced hmax.le hw
  refine ⟨s', hs', ?_⟩
  have hpace : 59 * minimumPeriod.val = 59000 := by decide
  have hadjusted : runtimeConfig.rule.adjusted 59000 = 139666 := by decide
  have hfloor : runtimeConfig.minDifficulty.val = 3 := by decide
  rw [hpace, runtime_retarget, hadjusted] at hcur
  rw [Fin.lt_def, hcur, hfloor]
  omega

theorem minimum_paced : Paced minimumPeriod 3 (recordBlock 60000 (steady 1000 3)).toList :=
  ⟨steadyRecords 1000 3, by decide +kernel, by decide +kernel, by decide +kernel⟩

theorem minimum_demo : ∃ s', onFinalize runtimeConfig 60000 (steady 1000 3) = some s' ∧
    ((3 : U256) < s'.currentDifficulty ↔
      (3 : U256).val ≠ runtimeConfig.minDifficulty.val) :=
  fastest_raises_iff (by decide +kernel) (by decide +kernel) minimum_paced

/-- The minimum is where the retarget gets stuck. -/
theorem minimum_stuck : runtimeConfig.minDifficulty = 3 ∧
    Paced minimumPeriod 3 (recordBlock 60000 (steady 1000 3)).toList ∧
    (onFinalize runtimeConfig 60000 (steady 1000 3)).map Storage.currentDifficulty = some 3 :=
  ⟨by decide, minimum_paced, by decide +kernel⟩

end DifficultyPace
