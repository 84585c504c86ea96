import Mathlib.Data.List.Induction
import UtxoWorkshop.DifficultyPallet

/-! The difficulty over whole chains. The stored window is the end of the history of blocks, each
with the difficulty it was mined at, and the current difficulty is the rule applied to it; with
the runtime's parameters no timestamps can make a finalization fail. -/
namespace DifficultyChain

open MachineWords SlidingWindow DifficultyRetarget DifficultyPallet

variable {cfg : Config} {initialDifficulty : U256} {timestamps : List U64} {s s' : Storage}

/-- No finalization of the chain overflows, as far as the chain goes. -/
def NeverOverflows (cfg : Config) (initialDifficulty : U256) (timestamps : List U64) : Prop :=
  ∀ before now, before ++ [now] <+: timestamps → ∀ s,
    chain cfg initialDifficulty before = some s → InRange cfg now s

theorem chain_completes (hpos : cfg.Positive)
    (hfit : NeverOverflows cfg initialDifficulty timestamps) :
    ∃ s, chain cfg initialDifficulty timestamps = some s := by
  induction timestamps using List.reverseRecOn with
  | nil => exact ⟨_, rfl⟩
  | append_singleton timestamps now ih =>
    have hbefore : NeverOverflows cfg initialDifficulty timestamps := by
      intro before last hinit
      exact hfit before last (hinit.trans (List.prefix_append _ _))
    obtain ⟨s, hs⟩ := ih hbefore
    obtain ⟨s', hs'⟩ := onFinalize_completes (hfit _ _ List.prefix_rfl s hs) hpos
    exact ⟨s', by rw [chain_concat, hs, Option.bind_some, hs']⟩

/-- Each block with the difficulty its parent's state prescribes. -/
structure History (cfg : Config) (initialDifficulty : U256) (timestamps : List U64)
    (records : List DifficultyAndTimestamp) : Prop where
  timestamps_eq : records.map DifficultyAndTimestamp.timestamp = timestamps
  difficulty_eq : ∀ k r, records[k]? = some r →
    difficulty cfg initialDifficulty (timestamps.take k) = some r.difficulty

theorem History.length_eq {records : List DifficultyAndTimestamp}
    (h : History cfg initialDifficulty timestamps records) :
    records.length = timestamps.length := by
  rw [← h.timestamps_eq, List.length_map]

theorem History.concat {records : List DifficultyAndTimestamp} {now : U64}
    (h : History cfg initialDifficulty timestamps records)
    (hs : chain cfg initialDifficulty timestamps = some s) :
    History cfg initialDifficulty (timestamps ++ [now])
      (records ++ [{ difficulty := s.currentDifficulty, timestamp := now }]) := by
  refine ⟨by simp [h.timestamps_eq], ?_⟩
  intro k r hk
  by_cases hlt : k < records.length
  · rw [List.getElem?_append_left hlt] at hk
    have hle : k ≤ timestamps.length := h.length_eq ▸ hlt.le
    rw [List.take_append_of_le_length hle]
    exact h.difficulty_eq k r hk
  · rw [List.getElem?_append_right (by omega)] at hk
    have hk0 : k = timestamps.length := by
      have hsome := List.getElem?_eq_some_iff.mp hk
      have hlen := h.length_eq
      obtain ⟨hk1, -⟩ := hsome
      simp only [List.length_singleton] at hk1
      omega
    subst hk0
    rw [h.length_eq, Nat.sub_self] at hk
    cases hk
    rw [List.take_left', difficulty, hs]
    · rfl
    · rfl

theorem recordBlock_window {records : List DifficultyAndTimestamp} {now : U64}
    (h : s.pastDifficultiesAndTimestamps.toList = window 60 records) :
    (recordBlock now s).toList =
      window 60 (records ++ [{ difficulty := s.currentDifficulty, timestamp := now }]) := by
  rw [recordBlock, push_toList, h]
  exact window_concat (by decide) records _

/-- The stored window is the end of the history. -/
theorem chain_window (h : chain cfg initialDifficulty timestamps = some s) :
    s.initialDifficulty = initialDifficulty ∧
    ∃ records, History cfg initialDifficulty timestamps records ∧
      s.pastDifficultiesAndTimestamps.toList = window 60 records := by
  induction timestamps using List.reverseRecOn generalizing s with
  | nil =>
    cases h
    refine ⟨rfl, [], ⟨rfl, by simp⟩, ?_⟩
    simp [genesis]
  | append_singleton timestamps now ih =>
    rw [chain_concat, Option.bind_eq_some_iff] at h
    obtain ⟨s₀, hs₀, hfin⟩ := h
    obtain ⟨hinit, records, hrec, hwin⟩ := ih hs₀
    obtain ⟨-, -, -, hpast, hinit', -⟩ := onFinalize_eq_some.mp hfin
    refine ⟨hinit'.trans hinit, _, hrec.concat hs₀, ?_⟩
    rw [hpast]
    exact recordBlock_window hwin

theorem chain_current (hne : timestamps ≠ [])
    (h : chain cfg initialDifficulty timestamps = some s) :
    s.currentDifficulty.val = cfg.rule.retarget
      (work initialDifficulty s.pastDifficultiesAndTimestamps.toList)
      (span cfg s.pastDifficultiesAndTimestamps.toList) := by
  obtain ⟨before, now, rfl⟩ := List.eq_nil_or_concat' timestamps |>.resolve_left hne
  rw [chain_concat, Option.bind_eq_some_iff] at h
  obtain ⟨s₀, hs₀, hfin⟩ := h
  obtain ⟨hinit, -⟩ := chain_window hs₀
  obtain ⟨-, -, -, hpast, -, hcur⟩ := onFinalize_eq_some.mp hfin
  rw [hcur, hpast, hinit]

/-- The timestamp of the `k`-th block, counted from 1. -/
def stamp (timestamps : List U64) (k : ℕ) : ℕ := ((timestamps[k - 1]?).map Fin.val).getD 0

/-- From the first recorded block to the last, with a target time for each empty slot. -/
def measuredTime (cfg : Config) (timestamps : List U64) : ℕ :=
  let n := timestamps.length
  if 60 ≤ n then stamp timestamps n - stamp timestamps (n - 59)
  else (stamp timestamps n - stamp timestamps 1) + (60 - n) * cfg.targetBlockTime.val

/-- The recorded difficulties, with the initial one for each empty slot. -/
def measuredWork (initialDifficulty : U256) (records : List DifficultyAndTimestamp) : ℕ :=
  ((records.drop (records.length - 60)).map fun r => r.difficulty.val).sum +
    (60 - records.length) * initialDifficulty.val

theorem work_window (records : List DifficultyAndTimestamp) :
    work initialDifficulty (window 60 records) = measuredWork initialDifficulty records := by
  rw [work, window_eq, List.map_append, List.sum_append, List.map_replicate, List.sum_replicate,
    List.map_map, measuredWork, Nat.add_comm]
  rfl

theorem span_window {records : List DifficultyAndTimestamp}
    (h : History cfg initialDifficulty timestamps records) (hne : timestamps ≠ [])
    (hsorted : timestamps.Pairwise (· ≤ ·)) :
    span cfg (window 60 records) = measuredTime cfg timestamps := by
  have hlen := h.length_eq
  have hpos : 0 < timestamps.length := List.length_pos_iff.mpr hne
  have hdrop : records.drop (records.length - 60) ≠ [] := by
    intro hnil
    have := List.drop_eq_nil_iff.mp hnil
    omega
  obtain ⟨x, xs, hx⟩ := List.exists_cons_of_ne_nil hdrop
  obtain ⟨hfirst, hlast⟩ := getElem?_of_drop_eq_cons hx
  have hord : (x :: xs).Pairwise fun a b => time a ≤ time b := by
    rw [← h.timestamps_eq] at hsorted
    exact hx ▸ (List.pairwise_map.mp hsorted).sublist (List.drop_sublist _ _)
  have hstamp : ∀ k r, records[k - 1]? = some r → stamp timestamps k = time r := by
    intro k r hk
    simp only [stamp, ← h.timestamps_eq, List.getElem?_map, hk]
    rfl
  rw [span, window_eq, hx, gaps_sum _ _ hord, measuredTime, ← hlen, hstamp _ _ hlast]
  by_cases hfull : 60 ≤ records.length
  · have hk : records.length - 59 - 1 = records.length - 60 := by omega
    have hzero : 60 - records.length = 0 := by omega
    rw [if_pos hfull, hstamp (records.length - 59) x (hk ▸ hfirst), hzero]
    omega
  · have hk : records.length - 60 = 1 - 1 := by omega
    rw [if_neg hfull, hstamp 1 x (hk ▸ hfirst), Nat.add_comm]
    rfl

/-- Every stored difficulty is within the maximum. -/
structure Bounded (s : Storage) : Prop where
  initial : s.initialDifficulty.val ≤ runtimeConfig.maxDifficulty.val
  current : s.currentDifficulty.val ≤ runtimeConfig.maxDifficulty.val
  past : ∀ d ∈ s.pastDifficultiesAndTimestamps.toList,
    (recorded s.initialDifficulty d).val ≤ runtimeConfig.maxDifficulty.val

theorem genesis_bounded (h : initialDifficulty.val ≤ runtimeConfig.maxDifficulty.val) :
    Bounded (genesis initialDifficulty) := by
  refine ⟨h, h, ?_⟩
  intro d hd
  obtain rfl : d = none := by
    simp only [genesis, Vector.toList_replicate] at hd
    exact List.eq_of_mem_replicate hd
  exact h

theorem recordBlock_bounded (hb : Bounded s) (now : U64) :
    ∀ d ∈ (recordBlock now s).toList,
      (recorded s.initialDifficulty d).val ≤ runtimeConfig.maxDifficulty.val := by
  intro d hd
  rw [recordBlock, push_toList] at hd
  rcases List.mem_append.mp hd with hd | hd
  · exact hb.past d (List.mem_of_mem_tail hd)
  · obtain rfl := List.mem_singleton.mp hd
    exact hb.current

theorem work_le {data : Vector (Option DifficultyAndTimestamp) 60}
    (h : ∀ d ∈ data.toList,
      (recorded initialDifficulty d).val ≤ runtimeConfig.maxDifficulty.val) :
    work initialDifficulty data.toList ≤ 60 * runtimeConfig.maxDifficulty.val := by
  have hle : ∀ n ∈ data.toList.map fun d => (recorded initialDifficulty d).val,
      n ≤ runtimeConfig.maxDifficulty.val := by
    intro n hn
    obtain ⟨d, hd, rfl⟩ := List.mem_map.mp hn
    exact h d hd
  have hsum := sum_le_length_mul hle
  rwa [List.length_map, Vector.length_toList] at hsum

theorem span_le (data : Vector (Option DifficultyAndTimestamp) 60) :
    span runtimeConfig data.toList ≤ 60 * 2 ^ 64 := by
  have htarget : runtimeConfig.rule.targetBlockTime ≤ 2 ^ 64 := by decide
  have hstamp : ∀ d, time d ≤ 2 ^ 64 := fun d => d.timestamp.isLt.le
  have hsum := gaps_sum_le htarget hstamp data.toList
  rwa [Vector.length_toList] at hsum

theorem runtime_positive : runtimeConfig.Positive := ⟨by decide, by decide, by decide⟩

/-- The runtime's parameters leave room for any window of bounded difficulties. -/
theorem runtime_noOverflow {work span : ℕ} (hw : work ≤ 60 * runtimeConfig.maxDifficulty.val)
    (hs : span ≤ 60 * 2 ^ 64) : NoOverflow runtimeConfig work span := by
  have hwindow : runtimeConfig.rule.window = 180000 := by decide
  have hdamp : runtimeConfig.rule.dampFactor = 3 := by decide
  have hclamp : runtimeConfig.rule.clampFactor = 2 := by decide
  have htarget : runtimeConfig.rule.targetBlockTime = 3000 := by decide
  have hmin : runtimeConfig.rule.minDifficulty = 3 := by decide
  have hmax : runtimeConfig.maxDifficulty.val = 2 ^ 128 - 1 := by decide
  refine ⟨?_, ?_, ?_, ?_⟩
  · omega
  · rw [hdamp, hwindow]
    omega
  · rw [hclamp, hwindow]
    omega
  · rw [hmin, htarget]
    omega

theorem inRange_of_work {now : U64} (hw : work s.initialDifficulty (recordBlock now s).toList ≤
    60 * runtimeConfig.maxDifficulty.val) : InRange runtimeConfig now s := by
  have hs := span_le (recordBlock now s)
  have hmax : runtimeConfig.maxDifficulty.val = 2 ^ 128 - 1 := by decide
  exact ⟨by omega, by omega, runtime_noOverflow hw hs⟩

theorem Bounded.inRange (hb : Bounded s) (now : U64) : InRange runtimeConfig now s :=
  inRange_of_work (work_le (recordBlock_bounded hb now))

/-- Under the runtime's parameters a finalization is the rule, whatever the timestamps. -/
theorem onFinalize_retargets {now : U64}
    (hw : work s.initialDifficulty (recordBlock now s).toList ≤
      60 * runtimeConfig.maxDifficulty.val) :
    ∃ s', onFinalize runtimeConfig now s = some s' ∧
      s'.currentDifficulty.val = runtimeConfig.rule.retarget
        (work s.initialDifficulty (recordBlock now s).toList)
        (span runtimeConfig (recordBlock now s).toList) := by
  obtain ⟨s', hs'⟩ := onFinalize_completes (inRange_of_work hw) runtime_positive
  obtain ⟨-, -, -, -, -, hcur⟩ := onFinalize_eq_some.mp hs'
  exact ⟨s', hs', hcur⟩

/-- A finalization keeps the difficulties bounded, and the new one is not below the minimum. -/
theorem Bounded.onFinalize {now : U64} (hb : Bounded s)
    (h : onFinalize runtimeConfig now s = some s') :
    Bounded s' ∧ runtimeConfig.minDifficulty.val ≤ s'.currentDifficulty.val := by
  obtain ⟨-, -, -, hpast, hinit, hcur⟩ := onFinalize_eq_some.mp h
  have hle := Rule.retarget_le runtimeConfig.rule
    (work s.initialDifficulty (recordBlock now s).toList)
    (span runtimeConfig (recordBlock now s).toList)
  have hge := Rule.le_retarget (r := runtimeConfig.rule) (by decide)
    (work s.initialDifficulty (recordBlock now s).toList)
    (span runtimeConfig (recordBlock now s).toList)
  refine ⟨⟨hinit ▸ hb.initial, hcur.trans_le hle, ?_⟩, hge.trans hcur.ge⟩
  rw [hpast, hinit]
  exact recordBlock_bounded hb now

/-- The chain as far as it goes. -/
theorem chain_bounded (h : initialDifficulty.val ≤ runtimeConfig.maxDifficulty.val)
    (hs : chain runtimeConfig initialDifficulty timestamps = some s) :
    Bounded s ∧ (timestamps ≠ [] → runtimeConfig.minDifficulty.val ≤ s.currentDifficulty.val) := by
  induction timestamps using List.reverseRecOn generalizing s with
  | nil =>
    cases hs
    exact ⟨genesis_bounded h, fun hne => absurd rfl hne⟩
  | append_singleton timestamps now ih =>
    rw [chain_concat, Option.bind_eq_some_iff] at hs
    obtain ⟨s₀, hs₀, hfin⟩ := hs
    obtain ⟨hb, hmin⟩ := (ih hs₀).1.onFinalize hfin
    exact ⟨hb, fun _ => hmin⟩

theorem runtime_neverOverflows (h : initialDifficulty.val ≤ runtimeConfig.maxDifficulty.val)
    (timestamps : List U64) : NeverOverflows runtimeConfig initialDifficulty timestamps := by
  intro before now _ s hs
  exact (chain_bounded h hs).1.inRange now

/-- No timestamps can stop a retarget or lead it out of its range. -/
theorem retarget_never_fails (h : initialDifficulty.val ≤ runtimeConfig.maxDifficulty.val)
    (timestamps : List U64) :
    ∃ s, chain runtimeConfig initialDifficulty timestamps = some s ∧
      (timestamps ≠ [] →
        runtimeConfig.minDifficulty.val ≤ s.currentDifficulty.val ∧
        s.currentDifficulty.val ≤ runtimeConfig.maxDifficulty.val) := by
  obtain ⟨s, hs⟩ := chain_completes runtime_positive (runtime_neverOverflows h timestamps)
  obtain ⟨hb, hmin⟩ := chain_bounded h hs
  exact ⟨s, hs, fun hne => ⟨hmin hne, hb.current⟩⟩

theorem erratic_retarget : ∃ s,
    chain runtimeConfig 4000000 [7, Fin.last _, 0, Fin.last _] = some s ∧
      (([7, Fin.last _, 0, Fin.last _] : List U64) ≠ [] →
        runtimeConfig.minDifficulty.val ≤ s.currentDifficulty.val ∧
        s.currentDifficulty.val ≤ runtimeConfig.maxDifficulty.val) :=
  retarget_never_fails (by decide) _

theorem window_implements_specification (hpos : cfg.Positive)
    (hfit : NeverOverflows cfg initialDifficulty timestamps) (hne : timestamps ≠ [])
    (hsorted : timestamps.Pairwise (· ≤ ·)) :
    ∃ s records, chain cfg initialDifficulty timestamps = some s ∧
      History cfg initialDifficulty timestamps records ∧
      s.pastDifficultiesAndTimestamps.toList =
        List.replicate (60 - timestamps.length) none ++
          (records.drop (timestamps.length - 60)).map some ∧
      s.currentDifficulty.val = cfg.rule.retarget (measuredWork initialDifficulty records)
        (measuredTime cfg timestamps) := by
  obtain ⟨s, h⟩ := chain_completes hpos hfit
  obtain ⟨-, records, hrec, hwin⟩ := chain_window h
  refine ⟨s, records, h, hrec, ?_, ?_⟩
  · rw [hwin, window_eq, hrec.length_eq]
  · rw [chain_current hne h, hwin, work_window, span_window hrec hne hsorted]

/-- Three blocks over the initial difficulty of the node's chain specification. -/
def firstBlocks : List U64 := [1000, 4000, 9000]

theorem firstBlocks_window : ∃ s records, chain runtimeConfig 4000000 firstBlocks = some s ∧
    History runtimeConfig 4000000 firstBlocks records ∧
    s.pastDifficultiesAndTimestamps.toList =
      List.replicate (60 - firstBlocks.length) none ++
        (records.drop (firstBlocks.length - 60)).map some ∧
    s.currentDifficulty.val = runtimeConfig.rule.retarget (measuredWork 4000000 records)
      (measuredTime runtimeConfig firstBlocks) :=
  window_implements_specification runtime_positive (runtime_neverOverflows (by decide) _)
    (by decide) (by decide)

end DifficultyChain
