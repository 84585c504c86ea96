import UtxoWorkshop.DifficultyOrder
import UtxoWorkshop.MovingWindow

/-! How far the difficulty can go over a whole chain. Whatever timestamps the miners choose, each
block raises the work of the window by at most a fortieth, and sixty blocks cannot bring the
difficulty below a sixth of where they found it. -/
namespace DifficultyGrowth

open MachineWords SlidingWindow DifficultyRetarget DifficultyPallet DifficultyChain DifficultyPace
  DifficultyOrder MovingWindow

variable {initialDifficulty : U256} {t : ℕ → U64} {n : ℕ} {s : Storage}

/-- The difficulty after the first `n` blocks of an endless list of timestamps. -/
def difficultyAfter (initialDifficulty : U256) (t : ℕ → U64) (n : ℕ) : ℕ :=
  ((difficulty runtimeConfig initialDifficulty ((List.range n).map t)).map Fin.val).getD 0

/-- The recorded difficulties, behind the initial one of every empty slot. -/
def recordedAt (initialDifficulty : U256) (t : ℕ → U64) (n : ℕ) : ℕ :=
  if n < 60 then initialDifficulty.val else difficultyAfter initialDifficulty t (n - 60)

theorem recordedAt_of_lt (h : n < 60) : recordedAt initialDifficulty t n = initialDifficulty.val :=
  if_pos h

theorem recordedAt_add (n : ℕ) :
    recordedAt initialDifficulty t (n + 60) = difficultyAfter initialDifficulty t n := by
  rw [recordedAt, if_neg (by omega), Nat.add_sub_cancel]

theorem difficultyAfter_of_chain
    (hs : chain runtimeConfig initialDifficulty ((List.range n).map t) = some s) :
    difficultyAfter initialDifficulty t n = s.currentDifficulty.val := by
  simp [difficultyAfter, difficulty, hs]

theorem chain_exists (h : initialDifficulty.val ≤ runtimeConfig.maxDifficulty.val) (t : ℕ → U64)
    (n : ℕ) : ∃ s, chain runtimeConfig initialDifficulty ((List.range n).map t) = some s :=
  chain_completes runtime_positive (runtime_neverOverflows h _)

/-- The stored window holds the last sixty recorded difficulties. -/
theorem window_recorded
    (hs : chain runtimeConfig initialDifficulty ((List.range n).map t) = some s) :
    s.pastDifficultiesAndTimestamps.toList.map
        (fun d => (recorded initialDifficulty d).val) =
      (List.range 60).map fun i => recordedAt initialDifficulty t (n + i) := by
  induction n generalizing s with
  | zero =>
    cases hs
    have hsame : (List.range 60).map (fun i => recordedAt initialDifficulty t (0 + i)) =
        (List.range 60).map fun _ => initialDifficulty.val := by
      apply List.map_congr_left
      intro i hi
      exact recordedAt_of_lt (by have := List.mem_range.mp hi; omega)
    rw [hsame]
    simp [genesis, recorded]
  | succ n ih =>
    rw [List.range_succ, List.map_append, List.map_singleton, chain_concat,
      Option.bind_eq_some_iff] at hs
    obtain ⟨s₀, hs₀, hfin⟩ := hs
    obtain ⟨-, -, -, hpast, -, -⟩ := onFinalize_eq_some.mp hfin
    have hcur : recordedAt initialDifficulty t (n + 60) = s₀.currentDifficulty.val :=
      (recordedAt_add n).trans (difficultyAfter_of_chain hs₀)
    rw [hpast, recordBlock, push_toList, List.map_append, List.map_tail, ih hs₀,
      ← map_range_tail _ 59 n, hcur]
    rfl

theorem clamped_bounds {work quotient top : ℕ} (hle : work ≤ 60 * top)
    (hlow : max work 3 / 120 ≤ quotient) (hhigh : quotient ≤ max work 3 / 40) :
    work / 120 ≤ min top (max 3 quotient) ∧ min top (max 3 quotient) ≤ max 3 (work / 40) := by
  omega

theorem sum_map_range (f : ℕ → ℕ) (k : ℕ) :
    ((List.range k).map f).sum = ∑ i ∈ Finset.range k, f i := rfl

/-- Whatever the timestamps, the next difficulty is held to the sum of the window on both sides. -/
theorem next_bounds (h : initialDifficulty.val ≤ runtimeConfig.maxDifficulty.val) (t : ℕ → U64)
    (n : ℕ) :
    (∑ i ∈ Finset.range 60, recordedAt initialDifficulty t (n + 1 + i)) / 120 ≤
        recordedAt initialDifficulty t (n + 1 + 60) ∧
      recordedAt initialDifficulty t (n + 1 + 60) ≤
        max 3 ((∑ i ∈ Finset.range 60, recordedAt initialDifficulty t (n + 1 + i)) / 40) := by
  obtain ⟨s₀, hs₀⟩ := chain_exists h t n
  obtain ⟨s, hs⟩ := chain_exists h t (n + 1)
  have hb := (chain_bounded h hs₀).1
  have hinit := (chain_window hs₀).1
  have hpast := window_recorded hs
  have hcur := (recordedAt_add (n + 1)).trans (difficultyAfter_of_chain hs)
  rw [List.range_succ, List.map_append, List.map_singleton, chain_concat, hs₀,
    Option.bind_some] at hs
  obtain ⟨-, -, -, hrecord, -, hval⟩ := onFinalize_eq_some.mp hs
  have hle := work_le (recordBlock_bounded hb (t n))
  have hwork : work s₀.initialDifficulty (recordBlock (t n) s₀).toList =
      ∑ i ∈ Finset.range 60, recordedAt initialDifficulty t (n + 1 + i) := by
    rw [hinit, ← hrecord, work, hpast, sum_map_range]
  obtain ⟨hlow, hhigh⟩ := runtime_adjusted_bounds (span runtimeConfig (recordBlock (t n) s₀).toList)
  obtain ⟨hdown, hup⟩ := quotient_bounds (n := max (work s₀.initialDifficulty
    (recordBlock (t n) s₀).toList) 3) hlow hhigh
  rw [runtime_retarget] at hval
  rw [hcur, hval, ← hwork]
  exact clamped_bounds hle hdown hup

theorem recordedAt_sixty : recordedAt initialDifficulty t 60 = initialDifficulty.val := by
  have hgenesis : chain runtimeConfig initialDifficulty ((List.range 0).map t) =
      some (genesis initialDifficulty) := rfl
  exact (recordedAt_add 0).trans (difficultyAfter_of_chain hgenesis)

theorem windowSum_cast (g : ℕ → ℕ) (n : ℕ) : windowSum (fun i => (g i : ℚ)) 60 n =
    ((∑ i ∈ Finset.range 60, g (n + i) : ℕ) : ℚ) := by
  rw [windowSum, Nat.cast_sum]

theorem sum_initial {g : ℕ → ℕ} {v : ℕ} (h : ∀ i < 60, g i = v) :
    ∑ i ∈ Finset.range 60, g (0 + i) = 60 * v := by
  have hsame : ∀ i ∈ Finset.range 60, g (0 + i) = v := by
    intro i hi
    rw [Nat.zero_add]
    exact h i (Finset.mem_range.mp hi)
  rw [Finset.sum_const_nat hsame, Finset.card_range]

/-- The recorded difficulties, lifted to the minimum that the rule puts under them. -/
def liftedAt (initialDifficulty : U256) (t : ℕ → U64) (n : ℕ) : ℕ :=
  max (recordedAt initialDifficulty t n) 3

theorem liftedAt_next (h : initialDifficulty.val ≤ runtimeConfig.maxDifficulty.val) (t : ℕ → U64)
    (n : ℕ) : 40 * liftedAt initialDifficulty t (n + 60) ≤
      ∑ i ∈ Finset.range 60, liftedAt initialDifficulty t (n + i) := by
  cases n with
  | zero =>
    have hsum := sum_initial (g := liftedAt initialDifficulty t) (v := max initialDifficulty.val 3)
      (fun i hi => by rw [liftedAt, recordedAt_of_lt hi])
    rw [hsum, Nat.zero_add, liftedAt, recordedAt_sixty]
    omega
  | succ n =>
    have hup := (next_bounds h t n).2
    have hlift : ∑ i ∈ Finset.range 60, recordedAt initialDifficulty t (n + 1 + i) ≤
        ∑ i ∈ Finset.range 60, liftedAt initialDifficulty t (n + 1 + i) :=
      Finset.sum_le_sum fun i _ => le_max_left _ _
    have hmin := Finset.card_nsmul_le_sum (Finset.range 60)
      (fun i => liftedAt initialDifficulty t (n + 1 + i)) 3 (fun i _ => le_max_right _ _)
    rw [Finset.card_range, smul_eq_mul] at hmin
    rw [liftedAt]
    omega

/-- A block raises the work of the window by a fortieth at most. -/
theorem growth_bound (h : initialDifficulty.val ≤ runtimeConfig.maxDifficulty.val) (t : ℕ → U64)
    (n : ℕ) : 2 * 40 ^ n * difficultyAfter initialDifficulty t n ≤
      3 * 41 ^ n * max initialDifficulty.val 3 := by
  have hnext : ∀ n, (liftedAt initialDifficulty t (n + 60) : ℚ) ≤
      1 / 40 * windowSum (fun i => (liftedAt initialDifficulty t i : ℚ)) 60 n := by
    intro n
    have hle : (40 * liftedAt initialDifficulty t (n + 60) : ℚ) ≤
        ((∑ i ∈ Finset.range 60, liftedAt initialDifficulty t (n + i) : ℕ) : ℚ) := by
      exact_mod_cast liftedAt_next h t n
    rw [windowSum_cast]
    linarith
  have hsum := sum_initial (g := liftedAt initialDifficulty t) (v := max initialDifficulty.val 3)
    (fun i hi => by rw [liftedAt, recordedAt_of_lt hi])
  have hwindow := windowSum_le (fun n => Nat.cast_nonneg _) (by norm_num) hnext n
  rw [windowSum_cast (liftedAt initialDifficulty t) 0, hsum] at hwindow
  have hlift : (difficultyAfter initialDifficulty t n : ℚ) ≤
      liftedAt initialDifficulty t (n + 60) := by
    rw [liftedAt, recordedAt_add]
    exact_mod_cast le_max_left _ _
  have hpow : (1 + 1 / 40 : ℚ) ^ n * 40 ^ n = 41 ^ n := by
    rw [← mul_pow]
    norm_num
  have hcast : (2 * 40 ^ n * difficultyAfter initialDifficulty t n : ℚ) ≤
      3 * 41 ^ n * (max initialDifficulty.val 3 : ℕ) := by
    calc (2 * 40 ^ n * difficultyAfter initialDifficulty t n : ℚ)
        ≤ 2 * 40 ^ n * (1 / 40 *
            ((1 + 1 / 40) ^ n * ((60 * max initialDifficulty.val 3 : ℕ) : ℚ))) := by
          gcongr
          exact hlift.trans ((hnext n).trans (by gcongr))
      _ = 3 * ((1 + 1 / 40) ^ n * 40 ^ n) * (max initialDifficulty.val 3 : ℕ) := by
          push_cast
          ring
      _ = 3 * 41 ^ n * (max initialDifficulty.val 3 : ℕ) := by rw [hpow]
  exact_mod_cast hcast

/-- Two above the recorded difficulty, which makes up for what the division cuts off. -/
theorem raisedAt_next (h : initialDifficulty.val ≤ runtimeConfig.maxDifficulty.val) (t : ℕ → U64)
    (n : ℕ) : ∑ i ∈ Finset.range 60, (recordedAt initialDifficulty t (n + i) + 2) ≤
      120 * (recordedAt initialDifficulty t (n + 60) + 2) := by
  cases n with
  | zero =>
    have hsum := sum_initial (g := fun i => recordedAt initialDifficulty t i + 2)
      (v := initialDifficulty.val + 2) (fun i hi => by rw [recordedAt_of_lt hi])
    rw [hsum, Nat.zero_add, recordedAt_sixty]
    omega
  | succ n =>
    have hdown := (next_bounds h t n).1
    rw [Finset.sum_add_distrib, Finset.sum_const, Finset.card_range, smul_eq_mul]
    omega

/-- Sixty blocks cannot bring the difficulty below a sixth. -/
theorem decline_bound (h : initialDifficulty.val ≤ runtimeConfig.maxDifficulty.val) (t : ℕ → U64)
    (n : ℕ) : initialDifficulty.val + 2 ≤
      6 ^ (n / 60 + 1) * (difficultyAfter initialDifficulty t n + 2) := by
  have hnext : ∀ n, 1 / 120 *
      windowSum (fun i => ((recordedAt initialDifficulty t i + 2 : ℕ) : ℚ)) 60 n ≤
        ((recordedAt initialDifficulty t (n + 60) + 2 : ℕ) : ℚ) := by
    intro n
    have hle : ((∑ i ∈ Finset.range 60, (recordedAt initialDifficulty t (n + i) + 2) : ℕ) : ℚ) ≤
        120 * ((recordedAt initialDifficulty t (n + 60) + 2 : ℕ) : ℚ) := by
      exact_mod_cast raisedAt_next h t n
    rw [windowSum_cast fun i => recordedAt initialDifficulty t i + 2]
    linarith
  have hfirst : ∀ i < 60, ((initialDifficulty.val + 2 : ℕ) : ℚ) ≤
      ((recordedAt initialDifficulty t i + 2 : ℕ) : ℚ) := by
    intro i hi
    rw [recordedAt_of_lt hi]
  have hsixth : (1 / 6 : ℚ) ≤ decline (1 / 120) 60 60 := by
    rw [decline]
    norm_num
  have hlow := window_ge (by norm_num) (by norm_num) (by linarith) (by positivity) hnext hfirst
    (n / 60 + 1) (Nat.mod_lt n (by omega : 0 < 60))
  have hindex : 60 * (n / 60 + 1) + n % 60 = n + 60 := by omega
  rw [hindex, recordedAt_add] at hlow
  have hpow : (1 / 6 : ℚ) ^ (n / 60 + 1) * 6 ^ (n / 60 + 1) = 1 := by
    rw [← mul_pow]
    norm_num
  have hcast : ((initialDifficulty.val + 2 : ℕ) : ℚ) ≤
      6 ^ (n / 60 + 1) * ((difficultyAfter initialDifficulty t n + 2 : ℕ) : ℚ) := by
    calc ((initialDifficulty.val + 2 : ℕ) : ℚ)
        = ((1 / 6) ^ (n / 60 + 1) * 6 ^ (n / 60 + 1)) * ((initialDifficulty.val + 2 : ℕ) : ℚ) := by
          rw [hpow, one_mul]
      _ = 6 ^ (n / 60 + 1) * (((initialDifficulty.val + 2 : ℕ) : ℚ) *
            (1 / 6) ^ (n / 60 + 1)) := by ring
      _ ≤ 6 ^ (n / 60 + 1) * (((initialDifficulty.val + 2 : ℕ) : ℚ) *
            decline (1 / 120) 60 60 ^ (n / 60 + 1)) := by gcongr
      _ ≤ 6 ^ (n / 60 + 1) * ((difficultyAfter initialDifficulty t n + 2 : ℕ) : ℚ) := by gcongr
  exact_mod_cast hcast

/-- Whoever chooses the timestamps of a whole chain moves the difficulty up by a fortieth a block
and down to a sixth every sixty blocks, and no further. -/
theorem difficulty_drift (h : initialDifficulty.val ≤ runtimeConfig.maxDifficulty.val)
    (timestamps : List U64) :
    ∃ s, chain runtimeConfig initialDifficulty timestamps = some s ∧
      2 * 40 ^ timestamps.length * s.currentDifficulty.val ≤
        3 * 41 ^ timestamps.length * max initialDifficulty.val runtimeConfig.minDifficulty.val ∧
      initialDifficulty.val + 2 ≤
        6 ^ (timestamps.length / 60 + 1) * (s.currentDifficulty.val + 2) := by
  have hstream : (List.range timestamps.length).map (fun i => timestamps.getD i 0) =
      timestamps := by
    apply List.ext_getElem
    · simp
    · intro i hi hi'
      simp [hi']
  obtain ⟨s, hs⟩ := chain_exists h (fun i => timestamps.getD i 0) timestamps.length
  have hcur := difficultyAfter_of_chain hs
  have hmin : runtimeConfig.minDifficulty.val = 3 := by decide
  have hup := growth_bound h (fun i => timestamps.getD i 0) timestamps.length
  have hdown := decline_bound h (fun i => timestamps.getD i 0) timestamps.length
  rw [hstream] at hs
  rw [hcur] at hup hdown
  rw [hmin]
  exact ⟨s, hs, hup, hdown⟩

theorem erratic_drift : ∃ s,
    chain runtimeConfig 4000000 [7, Fin.last _, 0, Fin.last _] = some s ∧
      2 * 40 ^ 4 * s.currentDifficulty.val ≤
        3 * 41 ^ 4 * max (4000000 : U256).val runtimeConfig.minDifficulty.val ∧
      (4000000 : U256).val + 2 ≤ 6 ^ (4 / 60 + 1) * (s.currentDifficulty.val + 2) :=
  difficulty_drift (by decide) [7, Fin.last _, 0, Fin.last _]

end DifficultyGrowth
