import UtxoWorkshop.MachineWords
import UtxoWorkshop.SlidingWindow
import UtxoWorkshop.DifficultyRetarget

/-! The difficulty adjustment pallet. `none` is an overflow or a division by zero: a build with
overflow checks panics there, one without them goes on with a wrapped number after an overflow.
`onFinalize_eq_some` says over the natural numbers when neither occurs and what is computed. -/
namespace DifficultyPallet

open MachineWords SlidingWindow DifficultyRetarget

structure DifficultyAndTimestamp where
  difficulty : U256
  timestamp : U64
  deriving DecidableEq

def damp (actual goal dampFactor : U128) : Option U128 := do
  let weight ← checkedSub dampFactor 1
  let pull ← checkedMul weight goal
  let sum ← checkedAdd actual pull
  checkedDiv sum dampFactor

def clamp (actual goal clampFactor : U128) : Option U128 := do
  let low ← checkedDiv goal clampFactor
  let high ← checkedMul goal clampFactor
  pure (max low (min actual high))

structure Config where
  targetBlockTime : U128
  dampFactor : U128
  clampFactor : U128
  maxDifficulty : U128
  minDifficulty : U128

/-- The parameters of the node's runtime, whose minimum is its damp factor. -/
def runtimeConfig : Config where
  targetBlockTime := 3000
  dampFactor := 3
  clampFactor := 2
  maxDifficulty := Fin.last _
  minDifficulty := 3

def DIFFICULTY_ADJUST_WINDOW : U128 := 60

structure Storage where
  pastDifficultiesAndTimestamps : Vector (Option DifficultyAndTimestamp) 60
  currentDifficulty : U256
  initialDifficulty : U256

def genesis (initialDifficulty : U256) : Storage where
  pastDifficultiesAndTimestamps := Vector.replicate 60 none
  currentDifficulty := initialDifficulty
  initialDifficulty := initialDifficulty

/-- The window after the block at `now`: shifted, with the block in the last slot. -/
def recordBlock (now : U64) (s : Storage) : Vector (Option DifficultyAndTimestamp) 60 :=
  push s.pastDifficultiesAndTimestamps (some { timestamp := now, difficulty := s.currentDifficulty })

variable (cfg : Config)

def delta : Option DifficultyAndTimestamp → Option DifficultyAndTimestamp → U128
  | some prev, some cur => saturatingSub (cast 128 cur.timestamp) (cast 128 prev.timestamp)
  | _, _ => cfg.targetBlockTime

def deltas (data : List (Option DifficultyAndTimestamp)) : List U128 :=
  List.zipWith (delta cfg) data data.tail

def recorded (initialDifficulty : U256) : Option DifficultyAndTimestamp → U256
  | some d => d.difficulty
  | none => initialDifficulty

def nonzero (tsDelta : U128) : U128 := if tsDelta = 0 then 1 else tsDelta

def atLeast (low diffSum : U256) : U256 := if diffSum < low then low else diffSum

def nextDifficulty (tsDelta : U128) (diffSum : U256) : Option U256 := do
  let tsDelta := nonzero tsDelta
  let minDifficulty := cast 256 cfg.minDifficulty
  let diffSum := atLeast minDifficulty diffSum
  let adjustmentWindow ← checkedMul DIFFICULTY_ADJUST_WINDOW cfg.targetBlockTime
  let damped ← damp tsDelta adjustmentWindow cfg.dampFactor
  let adjTs ← clamp damped adjustmentWindow cfg.clampFactor
  let product ← checkedMul diffSum (cast 256 cfg.targetBlockTime)
  let quotient ← checkedDiv product (cast 256 adjTs)
  pure (min (cast 256 cfg.maxDifficulty) (max minDifficulty quotient))

def onFinalize (now : U64) (s : Storage) : Option Storage := do
  let data := recordBlock now s
  let tsDelta ← checkedSum (deltas cfg data.toList) 0
  let diffSum ← checkedSum (data.toList.map (recorded s.initialDifficulty)) 0
  let difficulty ← nextDifficulty cfg tsDelta diffSum
  pure { s with pastDifficultiesAndTimestamps := data, currentDifficulty := difficulty }

/-- The state of the chain whose blocks carry these timestamps, oldest first. -/
def chain (initialDifficulty : U256) (timestamps : List U64) : Option Storage :=
  timestamps.foldlM (fun s now => onFinalize cfg now s) (genesis initialDifficulty)

/-- `Sha3Algorithm::difficulty`: the runtime's answer in the state after the parent block. -/
def difficulty (initialDifficulty : U256) (parent : List U64) : Option U256 :=
  (chain cfg initialDifficulty parent).map Storage.currentDifficulty

variable {cfg : Config}

theorem damp_eq_some {actual goal dampFactor d : U128} :
    damp actual goal dampFactor = some d ↔ 0 < dampFactor.val ∧
      actual.val + (dampFactor.val - 1) * goal.val < 2 ^ 128 ∧
      d.val = DifficultyRetarget.damp actual goal dampFactor := by
  simp only [damp, Option.bind_eq_bind, Option.bind_eq_some_iff, checkedSub_eq_some,
    checkedMul_eq_some, checkedAdd_eq_some, checkedDiv_eq_some, DifficultyRetarget.damp]
  constructor
  · intro h
    rcases h with ⟨weight, ⟨hle, hw⟩, pull, hp, sum, hs, hpos, hd⟩
    have hone : (1 : U128).val = 1 := rfl
    rw [hone] at hw
    rw [hw, hp, hs]
    exact ⟨by omega, sum.isLt, hd.symm⟩
  · intro h
    rcases h with ⟨hpos, hfit, hd⟩
    have hone : (1 : U128).val = 1 := rfl
    have hdamp := dampFactor.isLt
    have hpull : (dampFactor.val - 1) * goal.val < 2 ^ 128 := by omega
    exact ⟨⟨dampFactor.val - 1, by omega⟩, ⟨hpos, rfl⟩, ⟨_, hpull⟩, rfl, ⟨_, hfit⟩, rfl,
      by omega, hd.symm⟩

theorem clamp_eq_some {actual goal clampFactor d : U128} :
    clamp actual goal clampFactor = some d ↔ 0 < clampFactor.val ∧
      goal.val * clampFactor.val < 2 ^ 128 ∧
      d.val = DifficultyRetarget.clamp actual goal clampFactor := by
  simp only [clamp, Option.bind_eq_bind, Option.bind_eq_some_iff, checkedDiv_eq_some,
    checkedMul_eq_some, Option.pure_def, Option.some.injEq, Fin.ext_iff, Fin.coe_max,
    Fin.coe_min, DifficultyRetarget.clamp]
  constructor
  · intro h
    rcases h with ⟨low, ⟨hpos, hlow⟩, high, hhigh, hd⟩
    rw [hlow, hhigh]
    exact ⟨by omega, high.isLt, hd.symm⟩
  · intro h
    rcases h with ⟨hpos, hfit, hd⟩
    have hlow : goal.val / clampFactor.val < 2 ^ 128 := (Nat.div_le_self _ _).trans_lt goal.isLt
    exact ⟨⟨_, hlow⟩, ⟨by omega, rfl⟩, ⟨_, hfit⟩, rfl, hd.symm⟩

def Config.rule (cfg : Config) : Rule where
  slots := 60
  targetBlockTime := cfg.targetBlockTime
  dampFactor := cfg.dampFactor
  clampFactor := cfg.clampFactor
  maxDifficulty := cfg.maxDifficulty
  minDifficulty := cfg.minDifficulty

/-- No intermediate value of the retarget overflows. -/
structure NoOverflow (cfg : Config) (work span : ℕ) : Prop where
  window : cfg.rule.window < 2 ^ 128
  damp : max 1 span + (cfg.rule.dampFactor - 1) * cfg.rule.window < 2 ^ 128
  clamp : cfg.rule.window * cfg.rule.clampFactor < 2 ^ 128
  product : max work cfg.rule.minDifficulty * cfg.rule.targetBlockTime < 2 ^ 256

/-- And nothing is divided by zero. -/
structure Fits (cfg : Config) (work span : ℕ) : Prop extends NoOverflow cfg work span where
  damp_pos : 0 < cfg.rule.dampFactor
  clamp_pos : 0 < cfg.rule.clampFactor
  adjusted_pos : cfg.rule.adjusted span ≠ 0

structure Config.Positive (cfg : Config) : Prop where
  targetBlockTime : 0 < cfg.targetBlockTime.val
  dampFactor : 0 < cfg.dampFactor.val
  clampFactor : 0 < cfg.clampFactor.val

theorem NoOverflow.fits {work span : ℕ} (h : NoOverflow cfg work span) (hpos : cfg.Positive) :
    Fits cfg work span := by
  have hslots : 0 < cfg.rule.slots := Nat.zero_lt_succ 59
  have hwindow : 0 < cfg.rule.window := Nat.mul_pos hslots hpos.targetBlockTime
  exact {
    toNoOverflow := h
    damp_pos := hpos.dampFactor
    clamp_pos := hpos.clampFactor
    adjusted_pos := (Rule.adjusted_pos hwindow hpos.dampFactor hpos.clampFactor span).ne' }

theorem nonzero_val (tsDelta : U128) : (nonzero tsDelta).val = max 1 tsDelta.val := by
  unfold nonzero
  split_ifs with h
  · rw [h]
    rfl
  · have hne : tsDelta.val ≠ 0 := fun h0 => h (Fin.ext h0)
    omega

theorem atLeast_val (low diffSum : U256) :
    (atLeast low diffSum).val = max diffSum.val low.val := by
  unfold atLeast
  split_ifs with h
  · rw [Fin.lt_def] at h
    omega
  · rw [Fin.lt_def] at h
    omega

theorem wide_val (x : U128) : (cast 256 x).val = x.val := cast_val_of_le x (by decide)

theorem nextDifficulty_eq_some {tsDelta : U128} {diffSum d : U256} :
    nextDifficulty cfg tsDelta diffSum = some d ↔
      Fits cfg diffSum tsDelta ∧ d.val = cfg.rule.retarget diffSum tsDelta := by
  simp only [nextDifficulty, Option.bind_eq_bind, Option.bind_eq_some_iff, checkedDiv_eq_some,
    checkedMul_eq_some, damp_eq_some, clamp_eq_some, Option.pure_def, Option.some.injEq,
    Fin.ext_iff, Fin.coe_max, Fin.coe_min, nonzero_val, atLeast_val, wide_val]
  have hwindow : DIFFICULTY_ADJUST_WINDOW.val * cfg.targetBlockTime.val = cfg.rule.window := rfl
  rw [hwindow]
  constructor
  · intro h
    rcases h with ⟨w, hw, damped, ⟨hdpos, hdfit, hd⟩, adjTs, ⟨hcpos, hcfit, hc⟩, product, hp,
      quotient, ⟨hne, hq⟩, hres⟩
    have hadjusted : cfg.rule.adjusted tsDelta = adjTs.val := by
      rw [hc, hd, ← hw]
      rfl
    rw [← hw] at hdfit hcfit
    refine ⟨⟨⟨hw ▸ w.isLt, hdfit, hcfit, hp ▸ product.isLt⟩, hdpos, hcpos, hadjusted ▸ hne⟩, ?_⟩
    rw [← hres, Rule.retarget, hadjusted, ← hq, ← hp]
    rfl
  · intro h
    rcases h with ⟨hfits, hres⟩
    have hdamped := (Nat.div_le_self _ cfg.rule.dampFactor).trans_lt hfits.damp
    have hadjusted : cfg.rule.adjusted tsDelta < 2 ^ 128 :=
      (clamp_le _ _ hfits.clamp_pos).trans_lt hfits.clamp
    have hquotient := (Nat.div_le_self _ (cfg.rule.adjusted tsDelta)).trans_lt hfits.product
    exact ⟨⟨_, hfits.window⟩, rfl, ⟨_, hdamped⟩, ⟨hfits.damp_pos, hfits.damp, rfl⟩,
      ⟨_, hadjusted⟩, ⟨hfits.clamp_pos, hfits.clamp, rfl⟩, ⟨_, hfits.product⟩, rfl,
      ⟨_, hquotient⟩, ⟨hfits.adjusted_pos, rfl⟩, hres.symm⟩

def time (d : DifficultyAndTimestamp) : ℕ := d.timestamp.val

/-- The time the window spans. -/
def span (cfg : Config) (data : List (Option DifficultyAndTimestamp)) : ℕ :=
  (gaps cfg.rule.targetBlockTime time data).sum

/-- The difficulty spent in the window. -/
def work (initialDifficulty : U256) (data : List (Option DifficultyAndTimestamp)) : ℕ :=
  (data.map fun d => (recorded initialDifficulty d).val).sum

theorem delta_val (a b : Option DifficultyAndTimestamp) :
    (delta cfg a b).val = gap cfg.rule.targetBlockTime time a b := by
  have hstamp : ∀ t : U64, (cast 128 t).val = t.val := fun t => cast_val_of_le t (by decide)
  cases a with
  | none => rfl
  | some prev =>
    cases b with
    | none => rfl
    | some cur =>
      rw [delta, saturatingSub_val, hstamp, hstamp]
      rfl

theorem deltas_sum (data : List (Option DifficultyAndTimestamp)) :
    ((deltas cfg data).map Fin.val).sum = span cfg data := by
  rw [deltas, List.map_zipWith, span, gaps]
  simp only [delta_val]

theorem onFinalize_eq_some {now : U64} {s s' : Storage} :
    onFinalize cfg now s = some s' ↔
      span cfg (recordBlock now s).toList < 2 ^ 128 ∧
      work s.initialDifficulty (recordBlock now s).toList < 2 ^ 256 ∧
      Fits cfg (work s.initialDifficulty (recordBlock now s).toList)
        (span cfg (recordBlock now s).toList) ∧
      s'.pastDifficultiesAndTimestamps = recordBlock now s ∧
      s'.initialDifficulty = s.initialDifficulty ∧
      s'.currentDifficulty.val = cfg.rule.retarget
        (work s.initialDifficulty (recordBlock now s).toList)
        (span cfg (recordBlock now s).toList) := by
  have hwork : work s.initialDifficulty (recordBlock now s).toList =
      (((recordBlock now s).toList.map (recorded s.initialDifficulty)).map Fin.val).sum := by
    rw [List.map_map]
    rfl
  simp only [onFinalize, Option.bind_eq_bind, Option.bind_eq_some_iff, checkedSum_eq_some,
    nextDifficulty_eq_some, Option.pure_def, Option.some.injEq, Fin.val_zero, Nat.zero_add]
  rw [hwork, ← deltas_sum]
  constructor
  · intro h
    rcases h with ⟨tsDelta, ht, diffSum, hd, d, ⟨hfits, hval⟩, rfl⟩
    have ht : ((deltas cfg (recordBlock now s).toList).map Fin.val).sum = tsDelta.val := ht
    have hd : (((recordBlock now s).toList.map (recorded s.initialDifficulty)).map
        Fin.val).sum = diffSum.val := hd
    rw [ht, hd]
    exact ⟨tsDelta.isLt, diffSum.isLt, hfits, rfl, rfl, hval⟩
  · intro h
    rcases h with ⟨ht, hd, hfits, hpast, hinit, hcur⟩
    obtain ⟨tsDelta, hts⟩ := exists_val ht
    obtain ⟨diffSum, hds⟩ := exists_val hd
    rw [← hts, ← hds] at hfits hcur
    refine ⟨tsDelta, hts.symm, diffSum, hds.symm, s'.currentDifficulty, ⟨hfits, hcur⟩, ?_⟩
    cases s'
    simp only at hpast hinit
    rw [hpast, hinit]

/-- A finalization at `now` stays within its machine words. -/
structure InRange (cfg : Config) (now : U64) (s : Storage) : Prop where
  span : span cfg (recordBlock now s).toList < 2 ^ 128
  work : work s.initialDifficulty (recordBlock now s).toList < 2 ^ 256
  retarget : NoOverflow cfg (DifficultyPallet.work s.initialDifficulty (recordBlock now s).toList)
    (DifficultyPallet.span cfg (recordBlock now s).toList)

theorem onFinalize_completes {now : U64} {s : Storage} (h : InRange cfg now s)
    (hpos : cfg.Positive) : ∃ s', onFinalize cfg now s = some s' := by
  have hle := Rule.retarget_le cfg.rule (work s.initialDifficulty (recordBlock now s).toList)
    (span cfg (recordBlock now s).toList)
  have hmax : cfg.rule.maxDifficulty < 2 ^ 256 :=
    cfg.maxDifficulty.isLt.trans (by decide)
  obtain ⟨d, hd⟩ := exists_val (hle.trans_lt hmax)
  exact ⟨⟨recordBlock now s, d, s.initialDifficulty⟩,
    onFinalize_eq_some.mpr ⟨h.span, h.work, h.retarget.fits hpos, rfl, rfl, hd⟩⟩

theorem chain_concat {initialDifficulty : U256} {timestamps : List U64} {now : U64} :
    chain cfg initialDifficulty (timestamps ++ [now]) =
      (chain cfg initialDifficulty timestamps).bind (onFinalize cfg now) := by
  simp [chain, List.foldlM_append]

end DifficultyPallet
