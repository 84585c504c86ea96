import Mathlib.Algebra.GroupWithZero.Nat
import Mathlib.Data.List.Basic
import Mathlib.Algebra.BigOperators.Group.List.Basic
import Mathlib.Tactic.Common

/-! A window over the last entries of a growing list, kept in an array of fixed size: each push
shifts the array down in place and writes its last slot. Read as a list, the array is the end
of the padded history; the gaps between its slots telescope. -/
namespace SlidingWindow

variable {α : Type*} {n : ℕ}

/-- The loop `data[i - 1] = data[i]` for `i` from 1 to `k`. -/
def shiftTo : (k : ℕ) → k ≤ n → Vector α (n + 1) → Vector α (n + 1)
  | 0, _, data => data
  | k + 1, h, data =>
    let data := shiftTo k (Nat.le_of_succ_le h) data
    data.set k data[k + 1]

def shift (data : Vector α (n + 1)) : Vector α (n + 1) := shiftTo n (Nat.le_refl n) data

def push (data : Vector α (n + 1)) (x : α) : Vector α (n + 1) := (shift data).set n x

/-- The first `k` slots are shifted and the others are still the old ones. -/
theorem shiftTo_getElem? (data : Vector α (n + 1)) {k : ℕ} (hk : k ≤ n) (j : ℕ) :
    (shiftTo k hk data)[j]? = if j < k then data[j + 1]? else data[j]? := by
  induction k generalizing j with
  | zero => simp [shiftTo]
  | succ k ih =>
    have hk' : k ≤ n := Nat.le_of_succ_le hk
    have hnext : (shiftTo k hk' data)[k + 1]? = data[k + 1]? := by
      rw [ih hk', if_neg (by omega)]
    have hread : some (shiftTo k hk' data)[k + 1] = data[k + 1]? := by
      rw [← hnext, Vector.getElem?_eq_getElem]
    rw [shiftTo, Vector.getElem?_set]
    by_cases hj : k = j
    · subst hj
      rw [if_pos rfl, if_pos (by omega), hread]
    · rw [if_neg hj, ih hk']
      by_cases hlt : j < k
      · rw [if_pos hlt, if_pos (by omega)]
      · rw [if_neg hlt, if_neg (by omega)]

theorem push_toList (data : Vector α (n + 1)) (x : α) :
    (push data x).toList = data.toList.tail ++ [x] := by
  apply List.ext_getElem?
  intro j
  have hlen : data.toList.tail.length = n := by simp
  have hpush : (push data x).toList[j]? = (push data x)[j]? := by simp
  rw [hpush, push, Vector.getElem?_set, List.getElem?_append]
  by_cases hj : n = j
  · subst hj
    rw [if_pos rfl, if_neg (by omega), hlen]
    simp
  · rw [if_neg hj, shift, shiftTo_getElem?]
    by_cases hlt : j < n
    · rw [if_pos hlt, if_pos (by omega)]
      simp
    · rw [if_neg hlt, if_neg (by omega), hlen]
      have hout : ¬ j < n + 1 := by omega
      have hout' : j - n ≠ 0 := by omega
      simp [hout, hout']

/-- The last `n` entries of a history, right-aligned. -/
def window (n : ℕ) (xs : List α) : List (Option α) :=
  (List.replicate n none ++ xs.map some).drop xs.length

@[simp] theorem window_nil (n : ℕ) : window n ([] : List α) = List.replicate n none := by
  simp [window]

/-- A push into the window is the next entry of the history. -/
theorem window_concat {n : ℕ} (hn : 0 < n) (xs : List α) (x : α) :
    (window n xs).tail ++ [some x] = window n (xs ++ [x]) := by
  have hle : xs.length + 1 ≤ (List.replicate n none ++ xs.map some).length := by
    simp only [List.length_append, List.length_replicate, List.length_map]
    omega
  rw [window, List.tail_drop, window, List.length_append, List.length_singleton, List.map_append,
    ← List.append_assoc, List.drop_append_of_le_length hle]
  rfl

theorem window_eq (n : ℕ) (xs : List α) : window n xs =
    List.replicate (n - xs.length) none ++ (xs.drop (xs.length - n)).map some := by
  rw [window, List.drop_append, List.drop_replicate, List.length_replicate, List.map_drop]

theorem getElem?_of_drop_eq_cons {l xs : List α} {x : α} {j : ℕ} (h : l.drop j = x :: xs) :
    l[j]? = some x ∧ l[l.length - 1]? = some (xs.getLastD x) := by
  have hlen : l.length - j = xs.length + 1 := by
    rw [← List.length_drop, h, List.length_cons]
  have hfirst : (l.drop j)[0]? = l[j]? := List.getElem?_drop
  have hlast : (l.drop j)[xs.length]? = l[l.length - 1]? := by
    rw [List.getElem?_drop]
    congr 1
    omega
  rw [h] at hfirst hlast
  have hend : (x :: xs)[xs.length]? = (x :: xs).getLast? := List.getLast?_eq_getElem?.symm
  rw [hend, List.getLast?_cons, ← List.getLastD_eq_getLast?] at hlast
  exact ⟨hfirst.symm, hlast.symm⟩

/-- The distance between two slots, or a default where one of them is empty. -/
def gap (default : ℕ) (time : α → ℕ) : Option α → Option α → ℕ
  | some a, some b => time b - time a
  | _, _ => default

def gaps (default : ℕ) (time : α → ℕ) (w : List (Option α)) : List ℕ :=
  List.zipWith (gap default time) w w.tail

theorem gaps_cons (default : ℕ) (time : α → ℕ) (a b : Option α) (w : List (Option α)) :
    gaps default time (a :: b :: w) = gap default time a b :: gaps default time (b :: w) := rfl

theorem sum_le_length_mul {l : List ℕ} {bound : ℕ} (h : ∀ x ∈ l, x ≤ bound) :
    l.sum ≤ l.length * bound := by
  induction l with
  | nil => exact Nat.zero_le _
  | cons x xs ih =>
    obtain ⟨hx, hxs⟩ := List.forall_mem_cons.mp h
    have hsum := ih hxs
    rw [List.sum_cons, List.length_cons, Nat.succ_mul]
    omega

theorem gap_le {default bound : ℕ} {time : α → ℕ} (hd : default ≤ bound)
    (ht : ∀ x, time x ≤ bound) (a b : Option α) : gap default time a b ≤ bound := by
  cases a with
  | none => exact hd
  | some x =>
    cases b with
    | none => exact hd
    | some y => exact Nat.le_trans (Nat.sub_le _ _) (ht y)

theorem gaps_sum_le {default bound : ℕ} {time : α → ℕ} (hd : default ≤ bound)
    (ht : ∀ x, time x ≤ bound) (w : List (Option α)) :
    (gaps default time w).sum ≤ w.length * bound := by
  have hle : ∀ g ∈ gaps default time w, g ≤ bound := by
    intro g hg
    obtain ⟨i, hi, rfl⟩ := List.mem_iff_getElem.mp hg
    simp only [gaps, List.getElem_zipWith]
    exact gap_le hd ht _ _
  have hlen : (gaps default time w).length ≤ w.length := by simp [gaps]
  exact Nat.le_trans (sum_le_length_mul hle) (Nat.mul_le_mul_right _ hlen)

theorem gaps_sum_filled (default : ℕ) {time : α → ℕ} {x : α} {xs : List α}
    (h : (x :: xs).Pairwise fun a b => time a ≤ time b) :
    time x ≤ time (xs.getLastD x) ∧
      (gaps default time ((x :: xs).map some)).sum = time (xs.getLastD x) - time x := by
  induction xs generalizing x with
  | nil => simp [gaps]
  | cons y ys ih =>
    obtain ⟨hx, hrest⟩ := List.pairwise_cons.mp h
    obtain ⟨hle, hsum⟩ := ih hrest
    have hxy : time x ≤ time y := hx y List.mem_cons_self
    have hgap : (gaps default time ((x :: y :: ys).map some)).sum =
        (time y - time x) + (gaps default time ((y :: ys).map some)).sum := rfl
    rw [List.getLastD_cons, hgap, hsum]
    omega

/-- Entries at one pace have a gap fewer than there are entries. -/
theorem gaps_sum_paced (default : ℕ) {pace : ℕ} {time : α → ℕ} {x : α} {xs : List α}
    (h : (x :: xs).IsChain fun a b => time b = time a + pace) :
    (gaps default time ((x :: xs).map some)).sum = xs.length * pace := by
  induction xs generalizing x with
  | nil => simp [gaps]
  | cons y ys ih =>
    obtain ⟨hxy, hrest⟩ := List.isChain_cons_cons.mp h
    have hgap : (gaps default time ((x :: y :: ys).map some)).sum =
        (time y - time x) + (gaps default time ((y :: ys).map some)).sum := rfl
    rw [hgap, ih hrest, hxy, Nat.add_sub_cancel_left, List.length_cons, Nat.succ_mul, Nat.add_comm]

/-- The gaps of ordered entries telescope, and every empty slot adds the default. -/
theorem gaps_sum (default m : ℕ) {time : α → ℕ} {x : α} {xs : List α}
    (h : (x :: xs).Pairwise fun a b => time a ≤ time b) :
    (gaps default time (List.replicate m none ++ (x :: xs).map some)).sum =
      m * default + (time (xs.getLastD x) - time x) := by
  induction m with
  | zero =>
    rw [Nat.zero_mul, Nat.zero_add]
    exact (gaps_sum_filled default h).2
  | succ m ih =>
    have hne : List.replicate m none ++ (x :: xs).map some ≠ [] := by simp
    obtain ⟨b, w, hw⟩ := List.exists_cons_of_ne_nil hne
    rw [List.replicate_succ, List.cons_append, hw, gaps_cons, List.sum_cons, ← hw, ih,
      Nat.succ_mul]
    have hgap : gap default time none b = default := rfl
    rw [hgap]
    omega

/-- A window of a function on the numbers, moved on by one. -/
theorem map_range_tail (f : ℕ → α) (k m : ℕ) :
    ((List.range (k + 1)).map fun i => f (m + i)).tail ++ [f (m + (k + 1))] =
      (List.range (k + 1)).map fun i => f (m + 1 + i) := by
  rw [List.range_succ_eq_map, List.map_cons, List.tail_cons, List.map_map, ← List.range_succ_eq_map,
    List.range_succ, List.map_append, List.map_singleton]
  congr 1
  · apply List.map_congr_left
    intro i _
    simp only [Function.comp_apply, Nat.succ_eq_add_one]
    congr 1
    omega
  · congr 2
    omega

end SlidingWindow
