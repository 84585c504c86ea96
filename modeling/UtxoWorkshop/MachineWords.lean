import Mathlib.Data.ZMod.Defs
import Mathlib.Data.Nat.Basic
import Mathlib.Data.Fin.Basic
import Mathlib.Order.Fin.Basic
import Mathlib.Algebra.BigOperators.Group.List.Basic

/-! Unsigned machine integers of a fixed width, with the checked, wrapping, saturating and
overflow-reporting operations a Rust-like language offers. A checked result is an `Option`;
every lemma states it over the natural numbers. -/
namespace MachineWords

abbrev Word (w : ℕ) := Fin (2 ^ w)

abbrev U32 := Word 32
abbrev U64 := Word 64
abbrev U128 := Word 128
abbrev U256 := Word 256

/-- What the literals of each width rest on. -/
instance neZeroU32 : NeZero (2 ^ 32 : ℕ) := ⟨by decide⟩
instance neZeroU64 : NeZero (2 ^ 64 : ℕ) := ⟨by decide⟩
instance neZeroU128 : NeZero (2 ^ 128 : ℕ) := ⟨by decide⟩
instance neZeroU256 : NeZero (2 ^ 256 : ℕ) := ⟨by decide⟩

variable {w v : ℕ}

def checkedAdd (a b : Word w) : Option (Word w) :=
  if h : a.val + b.val < 2 ^ w then some ⟨a.val + b.val, h⟩ else none

def checkedSub (a b : Word w) : Option (Word w) :=
  if b.val ≤ a.val then some ⟨a.val - b.val, (Nat.sub_le _ _).trans_lt a.isLt⟩ else none

def checkedMul (a b : Word w) : Option (Word w) :=
  if h : a.val * b.val < 2 ^ w then some ⟨a.val * b.val, h⟩ else none

def checkedDiv (a b : Word w) : Option (Word w) :=
  if b.val = 0 then none
  else some ⟨a.val / b.val, (Nat.div_le_self _ _).trans_lt a.isLt⟩

/-- The loop `sum += x`, stopped by the first overflow. -/
def checkedSum : List (Word w) → Word w → Option (Word w)
  | [], sum => some sum
  | x :: xs, sum => (checkedAdd sum x).bind (checkedSum xs)

def saturatingSub (a b : Word w) : Word w := ⟨a.val - b.val, (Nat.sub_le _ _).trans_lt a.isLt⟩

/-- The wrapped product and whether it overflowed. -/
def overflowingMul (a b : Word w) : Word w × Bool := (a * b, decide (2 ^ w ≤ a.val * b.val))

/-- The cast `as`: narrowing drops the high bits, widening keeps the value. -/
def cast (v : ℕ) (a : Word w) : Word v := ⟨a.val % 2 ^ v, Nat.mod_lt _ (Nat.two_pow_pos v)⟩

/-- The operator `+`: an overflow panics in a build with overflow checks and wraps in one
without. -/
def plainAdd (overflowChecks : Bool) (a b : Word w) : Option (Word w) :=
  match checkedAdd a b with
  | some c => some c
  | none => if overflowChecks then none else some (a + b)

def shiftRight (a : Word w) (n : ℕ) : Word w :=
  ⟨a.val >>> n, (Nat.shiftRight_le _ _).trans_lt a.isLt⟩

/-- The operator `>>`: an amount of the width or more panics in a build with overflow checks and
is reduced modulo the width in one without. -/
def plainShr (overflowChecks : Bool) (a : Word w) (n : U32) : Option (Word w) :=
  if n.val < w then some (shiftRight a n)
  else if overflowChecks then none
  else some (shiftRight a (n % w))

theorem checkedAdd_eq_some {a b c : Word w} :
    checkedAdd a b = some c ↔ a.val + b.val = c.val := by
  unfold checkedAdd
  split
  · simp [Fin.ext_iff]
  · have := c.isLt
    simp only [reduceCtorEq, false_iff]
    omega

theorem checkedAdd_eq_none {a b : Word w} :
    checkedAdd a b = none ↔ 2 ^ w ≤ a.val + b.val := by
  simp [checkedAdd]

theorem checkedSub_eq_some {a b c : Word w} :
    checkedSub a b = some c ↔ b.val ≤ a.val ∧ a.val - b.val = c.val := by
  simp [checkedSub, Fin.ext_iff]

theorem checkedMul_eq_some {a b c : Word w} :
    checkedMul a b = some c ↔ a.val * b.val = c.val := by
  unfold checkedMul
  split
  · simp [Fin.ext_iff]
  · have := c.isLt
    simp only [reduceCtorEq, false_iff]
    omega

theorem checkedDiv_eq_some {a b c : Word w} :
    checkedDiv a b = some c ↔ b.val ≠ 0 ∧ a.val / b.val = c.val := by
  unfold checkedDiv
  split_ifs with h
  · exact ⟨False.elim, fun hc => absurd h hc.1⟩
  · rw [Option.some.injEq, Fin.ext_iff]
    exact ⟨fun hc => ⟨h, hc⟩, And.right⟩

theorem checkedSum_eq_some {xs : List (Word w)} {a c : Word w} :
    checkedSum xs a = some c ↔ a.val + (xs.map Fin.val).sum = c.val := by
  induction xs generalizing a with
  | nil => simp [checkedSum, Fin.ext_iff]
  | cons x xs ih =>
    simp only [checkedSum, Option.bind_eq_some_iff, checkedAdd_eq_some, ih, List.map_cons,
      List.sum_cons]
    constructor
    · intro h
      rcases h with ⟨b, hb, hc⟩
      omega
    · intro hc
      have := c.isLt
      exact ⟨⟨a.val + x.val, by omega⟩, rfl, by simp only; omega⟩

theorem exists_val {n : ℕ} (h : n < 2 ^ w) : ∃ a : Word w, a.val = n := ⟨⟨n, h⟩, rfl⟩

theorem exists_checkedAdd {a b : Word w} (h : a.val + b.val < 2 ^ w) :
    ∃ c, checkedAdd a b = some c ∧ c.val = a.val + b.val :=
  ⟨⟨_, h⟩, by simp [checkedAdd, h], rfl⟩

@[simp] theorem saturatingSub_val (a b : Word w) : (saturatingSub a b).val = a.val - b.val := rfl

@[simp] theorem cast_val (a : Word w) : (cast v a).val = a.val % 2 ^ v := rfl

theorem cast_val_of_le (a : Word w) (h : w ≤ v) : (cast v a).val = a.val :=
  Nat.mod_eq_of_lt (a.isLt.trans_le (Nat.pow_le_pow_right (by omega) h))

@[simp] theorem shiftRight_val (a : Word w) (n : ℕ) : (shiftRight a n).val = a.val / 2 ^ n :=
  Nat.shiftRight_eq_div_pow _ _

/-- A sum that did not panic is the true one up to a wrap. -/
theorem plainAdd_val {overflowChecks : Bool} {a b c : Word w}
    (h : plainAdd overflowChecks a b = some c) : c.val = (a.val + b.val) % 2 ^ w := by
  unfold plainAdd at h
  cases hc : checkedAdd a b with
  | some d =>
    rw [hc] at h
    cases h
    rw [checkedAdd_eq_some.mp hc, Nat.mod_eq_of_lt c.isLt]
  | none =>
    rw [hc] at h
    cases overflowChecks with
    | true => simp at h
    | false =>
      simp only [Bool.false_eq_true, if_false, Option.some.injEq] at h
      rw [← h, Fin.val_add]

theorem exists_plainAdd (overflowChecks : Bool) {a b : Word w} (h : a.val + b.val < 2 ^ w) :
    ∃ c, plainAdd overflowChecks a b = some c ∧ c.val = a.val + b.val := by
  obtain ⟨c, hc, hval⟩ := exists_checkedAdd h
  exact ⟨c, by rw [plainAdd, hc], hval⟩

end MachineWords
