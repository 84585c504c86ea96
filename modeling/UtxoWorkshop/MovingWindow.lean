import Mathlib.Algebra.BigOperators.Intervals
import Mathlib.Algebra.Order.BigOperators.Ring.Finset
import Mathlib.Algebra.Order.Field.Basic
import Mathlib.Algebra.Ring.GeomSum
import Mathlib.Tactic.GCongr
import Mathlib.Tactic.LinearCombination
import Mathlib.Tactic.Linarith
import Mathlib.Tactic.Positivity
import Mathlib.Tactic.Ring

/-! A sequence whose next term is held to the sum of its last `w` terms. If the next term is at most
`c` times the sum, the sum grows by at most `1 + c` a step; if it is at least that, a whole window
can fall by no more than a fixed factor while it is replaced. -/
namespace MovingWindow

variable {F : Type*} [Field F] [LinearOrder F] [IsStrictOrderedRing F]

def windowSum (f : ℕ → F) (w n : ℕ) : F := ∑ i ∈ Finset.range w, f (n + i)

variable {f : ℕ → F} {w : ℕ} {c L : F}

omit [LinearOrder F] [IsStrictOrderedRing F] in
theorem windowSum_succ (f : ℕ → F) (w n : ℕ) :
    windowSum f w (n + 1) + f n = windowSum f w n + f (n + w) := by
  have hlast : ∑ i ∈ Finset.range (w + 1), f (n + i) = windowSum f w n + f (n + w) :=
    Finset.sum_range_succ _ w
  have hfirst : ∑ i ∈ Finset.range (w + 1), f (n + i) =
      ∑ i ∈ Finset.range w, f (n + (i + 1)) + f n := Finset.sum_range_succ' _ w
  have hshift : ∑ i ∈ Finset.range w, f (n + (i + 1)) = windowSum f w (n + 1) := by
    apply Finset.sum_congr rfl
    intro i _
    rw [Nat.add_right_comm, Nat.add_assoc]
  rw [← hlast, hfirst, hshift]

/-- What leaves the window is not negative, so the sum grows by what enters at most. -/
theorem windowSum_le (hpos : ∀ n, 0 ≤ f n) (hc : 0 ≤ c)
    (h : ∀ n, f (n + w) ≤ c * windowSum f w n) (n : ℕ) :
    windowSum f w n ≤ (1 + c) ^ n * windowSum f w 0 := by
  induction n with
  | zero => simp
  | succ n ih =>
    have hstep := windowSum_succ f w n
    have hleft := hpos n
    have hnew := h n
    have hgrow : windowSum f w (n + 1) ≤ (1 + c) * windowSum f w n := by linarith
    calc windowSum f w (n + 1) ≤ (1 + c) * windowSum f w n := hgrow
      _ ≤ (1 + c) * ((1 + c) ^ n * windowSum f w 0) := by gcongr
      _ = (1 + c) ^ (n + 1) * windowSum f w 0 := by ring

/-- A lower bound of the `j`-th term behind a window that is nowhere below 1. -/
def decline (c : F) (w j : ℕ) : F := 1 - (1 - c * w) * (1 + c) ^ j

omit [LinearOrder F] [IsStrictOrderedRing F] in
/-- The bound is the recursion itself: `j` terms of the window have been replaced. -/
theorem decline_eq (c : F) {w j : ℕ} (hj : j ≤ w) :
    c * (((w - j : ℕ) : F) + ∑ i ∈ Finset.range j, decline c w i) = decline c w j := by
  have hgeom := geom_sum_mul (1 + c) j
  have hsum : ∑ i ∈ Finset.range j, decline c w i =
      (j : F) - (1 - c * w) * ∑ i ∈ Finset.range j, (1 + c) ^ i := by
    simp only [decline, Finset.sum_sub_distrib, Finset.sum_const, Finset.card_range, nsmul_eq_mul,
      mul_one, Finset.mul_sum]
  rw [hsum, Nat.cast_sub hj, decline]
  linear_combination (-(1 - c * w)) * hgeom

/-- While the window is replaced, its terms fall no further than the bound. -/
theorem replaced_ge (hc : 0 ≤ c) (h : ∀ n, c * windowSum f w n ≤ f (n + w)) {m : ℕ}
    (hL : ∀ i < w, L ≤ f (m + i)) {j : ℕ} (hj : j < w) :
    L * decline c w j ≤ f (m + w + j) := by
  induction j using Nat.strong_induction_on with
  | _ j ih =>
    have hsplit : windowSum f w (m + j) = ∑ i ∈ Finset.range (w - j), f (m + j + i) +
        ∑ i ∈ Finset.range j, f (m + w + i) := by
      have hw : w = w - j + j := by omega
      rw [windowSum]
      conv_lhs => rw [hw, Finset.sum_range_add]
      congr 1
      apply Finset.sum_congr rfl
      intro i _
      congr 1
      omega
    have hold : ((w - j : ℕ) : F) * L ≤ ∑ i ∈ Finset.range (w - j), f (m + j + i) := by
      have hcard := Finset.card_nsmul_le_sum (Finset.range (w - j)) (fun i => f (m + j + i)) L
        (fun i hi => by
          have hi := Finset.mem_range.mp hi
          simpa only [Nat.add_assoc] using hL (j + i) (by omega))
      rwa [Finset.card_range, nsmul_eq_mul] at hcard
    have hnew : L * ∑ i ∈ Finset.range j, decline c w i ≤
        ∑ i ∈ Finset.range j, f (m + w + i) := by
      rw [Finset.mul_sum]
      apply Finset.sum_le_sum
      intro i hi
      have hi := Finset.mem_range.mp hi
      exact ih i hi (hi.trans hj)
    calc L * decline c w j
        = c * (((w - j : ℕ) : F) * L + L * ∑ i ∈ Finset.range j, decline c w i) := by
          rw [← decline_eq c hj.le]
          ring
      _ ≤ c * windowSum f w (m + j) := by
          rw [hsplit]
          gcongr
      _ ≤ f (m + w + j) := by
          have hnext := h (m + j)
          rwa [Nat.add_right_comm] at hnext

/-- Each replacement of the whole window costs one factor. -/
theorem window_ge (hc : 0 ≤ c) (hcw : c * w ≤ 1) (hr : 0 ≤ decline c w w) (hL0 : 0 ≤ L)
    (h : ∀ n, c * windowSum f w n ≤ f (n + w)) (hL : ∀ i < w, L ≤ f i) (q : ℕ) {j : ℕ}
    (hj : j < w) : L * decline c w w ^ q ≤ f (w * q + j) := by
  induction q generalizing j with
  | zero => simpa using hL j hj
  | succ q ih =>
    have hstep := replaced_ge hc h (m := w * q) (L := L * decline c w w ^ q)
      (fun i hi => ih hi) hj
    have hpow : (1 + c) ^ j ≤ (1 + c) ^ w := pow_le_pow_right₀ (by linarith) hj.le
    have hmono : decline c w w ≤ decline c w j := by
      have h1 : 0 ≤ 1 - c * w := by linarith
      have := mul_le_mul_of_nonneg_left hpow h1
      rw [decline, decline]
      linarith
    have hnonneg : 0 ≤ L * decline c w w ^ q := by positivity
    calc L * decline c w w ^ (q + 1) = L * decline c w w ^ q * decline c w w := by ring
      _ ≤ L * decline c w w ^ q * decline c w j := by gcongr
      _ ≤ f (w * q + w + j) := hstep
      _ = f (w * (q + 1) + j) := by rw [Nat.mul_succ]

end MovingWindow
