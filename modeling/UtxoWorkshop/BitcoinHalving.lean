import Mathlib.Algebra.BigOperators.Intervals
import Mathlib.Algebra.Order.BigOperators.Group.Finset
import UtxoWorkshop.MachineWords

/-! The issuance schedule. Its guard stops at 64 halvings although the number it shifts has 32
bits: from 32 halvings on the shift is undefined, and a build without overflow checks starts the
schedule again until the guard takes effect. -/
namespace BitcoinHalving

open MachineWords

def HALVING_INTERVAL : U32 := 210000

def INITIAL_ISSUANCE : U32 := 50

/-- `none` is the panic of an overflow check. -/
def issuance (overflowChecks : Bool) (block : U32) : Option U128 := do
  let halvings ← checkedDiv block HALVING_INTERVAL
  if 64 ≤ halvings then pure 0
  else do
    let shifted ← plainShr overflowChecks INITIAL_ISSUANCE halvings
    pure (cast 128 shifted)

def halvings (block : U32) : ℕ := block.val / 210000

/-- The schedule that the halvings describe. -/
def scheduled (block : U32) : ℕ := 50 / 2 ^ halvings block

/-- What is issued after some number of halvings when nothing panics. -/
def unchecked (halvings : ℕ) : ℕ := if 64 ≤ halvings then 0 else 50 / 2 ^ (halvings % 32)

/-- The blocks at which the shift amount is out of width. -/
def OutOfWidth (block : U32) : Prop := 32 ≤ halvings block ∧ halvings block < 64

instance : DecidablePred OutOfWidth := fun _ => inferInstanceAs (Decidable (_ ∧ _))

variable {c : Bool} {block : U32}

theorem shifted_val {k : ℕ} : (cast 128 (shiftRight INITIAL_ISSUANCE k)).val = 50 / 2 ^ k := by
  have hinitial : INITIAL_ISSUANCE.val = 50 := rfl
  rw [cast_val_of_le _ (by decide), shiftRight_val, hinitial]

theorem issuance_val (c : Bool) (block : U32) : (issuance c block).map Fin.val =
    if c ∧ OutOfWidth block then none else some (unchecked (halvings block)) := by
  have hlt : halvings block < 2 ^ 32 := (Nat.div_le_self _ _).trans_lt block.isLt
  have hdiv : checkedDiv block HALVING_INTERVAL = some ⟨halvings block, hlt⟩ :=
    checkedDiv_eq_some.mpr ⟨by decide, rfl⟩
  have hguard : (64 : U32) ≤ ⟨halvings block, hlt⟩ ↔ 64 ≤ halvings block := Iff.rfl
  simp only [issuance, hdiv, Option.bind_eq_bind, Option.bind_some, hguard, unchecked]
  by_cases h64 : 64 ≤ halvings block
  · have hwidth : ¬ (c ∧ OutOfWidth block) := fun h => h.2.2.not_ge h64
    rw [if_pos h64, if_neg hwidth, if_pos h64]
    rfl
  · rw [if_neg h64, if_neg h64, plainShr]
    by_cases h32 : halvings block < 32
    · have hwidth : ¬ (c ∧ OutOfWidth block) := fun h => h.2.1.not_gt h32
      rw [if_pos h32, if_neg hwidth, Nat.mod_eq_of_lt h32]
      exact congrArg some shifted_val
    · rw [if_neg h32]
      cases c with
      | true =>
        rw [if_pos rfl, if_pos ⟨rfl, not_lt.mp h32, not_le.mp h64⟩]
        rfl
      | false =>
        rw [if_neg Bool.false_ne_true, if_neg (fun h => Bool.false_ne_true h.1)]
        exact congrArg some shifted_val

theorem issuance_eq_some {v : U128} : issuance c block = some v ↔
    ¬ (c ∧ OutOfWidth block) ∧ v.val = unchecked (halvings block) := by
  have hval := issuance_val c block
  constructor
  · intro h
    rw [h] at hval
    split_ifs at hval with hwidth
    · cases hval
    · exact ⟨hwidth, Option.some.inj hval⟩
  · intro h
    rcases h with ⟨hwidth, hv⟩
    rw [if_neg hwidth, ← hv] at hval
    exact Option.map_injective Fin.val_injective hval

/-- Inside the width the code follows the schedule, and behind the guard nothing is left of it. -/
theorem unchecked_eq (h : ¬ OutOfWidth block) : unchecked (halvings block) = scheduled block := by
  unfold unchecked scheduled
  split_ifs with h64
  · have hsmall : 50 < 2 ^ halvings block :=
      Nat.lt_of_lt_of_le (by decide) (Nat.pow_le_pow_right (n := 2) (by decide) h64)
    exact (Nat.div_eq_of_lt hsmall).symm
  · have h32 : halvings block < 32 := by
      by_contra hge
      exact h ⟨not_lt.mp hge, not_le.mp h64⟩
    rw [Nat.mod_eq_of_lt h32]

/-- The exact blocks at which both builds follow the schedule. -/
theorem follows_schedule_iff :
    (∀ c, (issuance c block).map Fin.val = some (scheduled block)) ↔ ¬ OutOfWidth block := by
  constructor
  · intro h hwidth
    have hchecked := h true
    rw [issuance_val, if_pos ⟨rfl, hwidth⟩] at hchecked
    cases hchecked
  · intro hwidth c
    rw [issuance_val, if_neg (fun h => hwidth h.2), unchecked_eq hwidth]

/-- The later halving issues more: the schedule has started again, and is not yet as far as it
was at the earlier one. -/
def Restarts (j k : ℕ) : Prop := 32 ≤ k ∧ k < 38 ∧ k - 32 < j ∧ j < 32

instance (j k : ℕ) : Decidable (Restarts j k) :=
  inferInstanceAs (Decidable (_ ∧ _ ∧ _ ∧ _))

theorem unchecked_le_iff {j k : ℕ} (h : j ≤ k) : unchecked k ≤ unchecked j ↔ ¬ Restarts j k := by
  by_cases h64 : 64 ≤ k
  · have hzero : unchecked k = 0 := if_pos h64
    rw [hzero, Restarts]
    simp only [Nat.zero_le, true_iff]
    omega
  · have htable : ∀ k < 64, ∀ j ≤ k, (unchecked k ≤ unchecked j ↔ ¬ Restarts j k) := by
      decide +kernel
    exact htable k (by omega) j h

theorem issuance_antitone_iff {a b : U32} (h : a ≤ b) :
    (∀ c v w, issuance c a = some v → issuance c b = some w → w ≤ v) ↔
      ¬ Restarts (halvings a) (halvings b) := by
  have hle : halvings a ≤ halvings b := Nat.div_le_div_right h
  rw [← unchecked_le_iff hle]
  constructor
  · intro hanti
    have hsome : ∀ x, ∃ v, issuance false x = some v := by
      intro x
      have hval := issuance_val false x
      rw [if_neg (fun h => Bool.false_ne_true h.1)] at hval
      obtain ⟨v, hv, -⟩ := Option.map_eq_some_iff.mp hval
      exact ⟨v, hv⟩
    obtain ⟨v, hv⟩ := hsome a
    obtain ⟨w, hw⟩ := hsome b
    rw [← (issuance_eq_some.mp hv).2, ← (issuance_eq_some.mp hw).2]
    exact hanti false v w hv hw
  · intro hunchecked c v w hv hw
    rw [Fin.le_def, (issuance_eq_some.mp hv).2, (issuance_eq_some.mp hw).2]
    exact hunchecked

def issuedAt (c : Bool) (block : ℕ) : ℕ := ((issuance c (Fin.ofNat _ block)).map Fin.val).getD 0

/-- What the blocks below `n` are issued together. -/
def issuedBefore (c : Bool) (n : ℕ) : ℕ := ∑ block ∈ Finset.range n, issuedAt c block

theorem halvings_ofNat {n : ℕ} (h : n < 2 ^ 32) : halvings (Fin.ofNat _ n) = n / 210000 := by
  rw [halvings, Fin.val_ofNat, Nat.mod_eq_of_lt h]

theorem issuedAt_le {n : ℕ} (h : n < 2 ^ 32) (c : Bool) : issuedAt c n ≤ unchecked (n / 210000) := by
  rw [issuedAt, issuance_val, halvings_ofNat h]
  split_ifs
  · exact Nat.zero_le _
  · exact Nat.le_refl _

theorem issuedAt_false {n : ℕ} (h : n < 2 ^ 32) : issuedAt false n = unchecked (n / 210000) := by
  rw [issuedAt, issuance_val, halvings_ofNat h, if_neg (fun h => Bool.false_ne_true h.1)]
  rfl

theorem sum_range_div (f : ℕ → ℕ) {m : ℕ} (hm : 0 < m) (k : ℕ) :
    ∑ n ∈ Finset.range (k * m), f (n / m) = m * ∑ j ∈ Finset.range k, f j := by
  induction k with
  | zero => simp
  | succ k ih =>
    have hlast : ∀ x ∈ Finset.range m, f ((k * m + x) / m) = f k := by
      intro x hx
      have hdiv : (k * m + x) / m = k := by
        rw [Nat.mul_comm, Nat.mul_add_div hm, Nat.div_eq_of_lt (Finset.mem_range.mp hx),
          Nat.add_zero]
      rw [hdiv]
    rw [Nat.succ_mul, Finset.sum_range_add, ih, Finset.sum_const_nat hlast, Finset.card_range,
      Finset.sum_range_succ, Nat.mul_add]

theorem issuedBefore_le {n : ℕ} (h : n ≤ 2 ^ 32) (c : Bool) :
    issuedBefore c n ≤ ∑ block ∈ Finset.range n, unchecked (block / 210000) := by
  apply Finset.sum_le_sum
  intro block hblock
  exact issuedAt_le ((Finset.mem_range.mp hblock).trans_le h) c

/-- The first 32 halvings. -/
theorem first_round : ∑ block ∈ Finset.range (32 * 210000), unchecked (block / 210000) =
    210000 * (50 + 25 + 12 + 6 + 3 + 1) := by
  rw [sum_range_div unchecked (by decide)]
  decide +kernel

theorem sum_range_le_iff {f : ℕ → ℕ} {m n : ℕ} (hm : 0 < f m) :
    ∑ i ∈ Finset.range n, f i ≤ ∑ i ∈ Finset.range m, f i ↔ n ≤ m := by
  constructor
  · intro h
    by_contra hn
    have hmono : ∑ i ∈ Finset.range (m + 1), f i ≤ ∑ i ∈ Finset.range n, f i :=
      Finset.sum_le_sum_of_subset (Finset.range_mono (by omega))
    rw [Finset.sum_range_succ] at hmono
    omega
  · intro h
    exact Finset.sum_le_sum_of_subset (Finset.range_mono h)

theorem issuedBefore_le_iff {n : ℕ} (h : n ≤ 2 ^ 32) :
    (∀ c, issuedBefore c n ≤ 210000 * (50 + 25 + 12 + 6 + 3 + 1)) ↔ n ≤ 32 * 210000 := by
  have hrestart : 0 < unchecked (32 * 210000 / 210000) := by decide +kernel
  rw [← sum_range_le_iff (f := fun block => unchecked (block / 210000)) hrestart, first_round]
  constructor
  · intro hcap
    have hsame : issuedBefore false n = ∑ block ∈ Finset.range n, unchecked (block / 210000) := by
      apply Finset.sum_congr rfl
      intro block hblock
      exact issuedAt_false ((Finset.mem_range.mp hblock).trans_le h)
    exact hsame ▸ hcap false
  · intro hsum c
    exact (issuedBefore_le h c).trans hsum

/-- The schedule holds at the blocks whose shift is within the width, and only there; what the
blocks issue falls, and stays under its cap, until the schedule starts again. -/
theorem schedule_halves {a b : U32} {n : ℕ} (block : U32) (hab : a ≤ b) (hn : n ≤ 2 ^ 32) :
    ((∀ c, (issuance c block).map Fin.val = some (50 / 2 ^ (block.val / 210000))) ↔
      block.val / 210000 < 32 ∨ 64 ≤ block.val / 210000) ∧
    ((∀ c v w, issuance c a = some v → issuance c b = some w → w ≤ v) ↔
      ¬ Restarts (halvings a) (halvings b)) ∧
    ((∀ c, issuedBefore c n ≤ 210000 * (50 + 25 + 12 + 6 + 3 + 1)) ↔ n ≤ 32 * 210000) := by
  have hwidth : ¬ OutOfWidth block ↔ block.val / 210000 < 32 ∨ 64 ≤ block.val / 210000 := by
    rw [OutOfWidth, halvings]
    omega
  rw [← hwidth]
  exact ⟨follows_schedule_iff, issuance_antitone_iff hab, issuedBefore_le_iff hn⟩

theorem first_halving_lowers :
    (∀ c v w, issuance c 0 = some v → issuance c 210000 = some w → w ≤ v) ∧
    ∀ c, issuedBefore c 210001 ≤ 210000 * (50 + 25 + 12 + 6 + 3 + 1) := by
  obtain ⟨-, hfalls, hcap⟩ := schedule_halves (a := 0) (b := 210000) (n := 210001) 0
    (by decide +kernel) (by omega)
  exact ⟨hfalls.mpr (by decide +kernel), hcap.mpr (by omega)⟩

/-- After 32 halvings a build with overflow checks panics and one without issues 50 again. -/
theorem schedule_restarts : issuance true 6720000 = none ∧ issuance false 6720000 = some 50 ∧
    50 / 2 ^ ((6720000 : U32).val / 210000) = 0 := by
  decide +kernel

end BitcoinHalving
