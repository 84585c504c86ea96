import Mathlib.Algebra.Group.Nat.Defs
import Mathlib.Algebra.Group.Int.Defs
import Mathlib.Data.List.Basic
import Mathlib.Data.List.DropRight
import Mathlib.Tactic.Common

/-! Decimal numbers and blanks in plain text, as the string methods of a Java-like language write
and read them. Numbers are written without leading zeros, so a name that ends in a number, or in
two numbers with a hyphen between them, says which numbers they are. -/
namespace PlainText

/-- `split(" ")`: the parts between the blanks, without the empty ones at the end; a string
without a blank is its own only part. -/
def split (s : String) : List String :=
  if ' ' ∈ s.toList then ((s.toList.splitOn ' ').rdropWhile (· = [])).map String.ofList else [s]

/-- `parts[parts.length - k]` -/
def fromEnd (parts : List String) (k : ℕ) : Option String :=
  if k ≤ parts.length then parts[parts.length - k]? else none

def digitsValue (cs : List Char) : Option ℕ :=
  if cs ≠ [] ∧ cs.all Char.isDigit then some (Nat.ofDigitChars 10 cs 0) else none

def signedValue : List Char → Option ℤ
  | '-' :: cs => (digitsValue cs).map fun n => -Int.ofNat n
  | '+' :: cs => (digitsValue cs).map Int.ofNat
  | cs => (digitsValue cs).map Int.ofNat

/-- `Integer.parseInt`: an optional sign and digits whose value is an `int`. -/
def parseInt (s : String) : Option ℤ :=
  (signedValue s.toList).filter fun v => -2 ^ 31 ≤ v ∧ v < 2 ^ 31

theorem toList_toString (n : ℕ) : (toString n).toList = Nat.toDigits 10 n := Nat.toList_repr

theorem isDigit_of_mem {n : ℕ} {c : Char} (h : c ∈ (toString n).toList) : c.isDigit := by
  rw [toList_toString] at h
  exact Nat.isDigit_of_mem_toDigits (by decide) (by decide) h

theorem notMem_of_not_isDigit {c : Char} (hc : c.isDigit = false) (n : ℕ) :
    c ∉ (toString n).toList := by
  intro h
  rw [isDigit_of_mem h] at hc
  cases hc

theorem toString_injective : Function.Injective fun n : ℕ => toString n := by
  intro m n h
  have hdigits : Nat.toDigits 10 m = Nat.toDigits 10 n := by
    rw [← toList_toString, ← toList_toString]
    exact congrArg String.toList h
  rw [← Nat.ofDigitChars_ten_toDigits (n := m), hdigits, Nat.ofDigitChars_ten_toDigits]

theorem numbered_injective (stem : String) :
    Function.Injective fun n : ℕ => stem ++ toString n := by
  intro m n h
  have hlist := congrArg String.toList h
  simp only [String.toList_append] at hlist
  exact toString_injective (String.toList_inj.mp (List.append_cancel_left hlist))

/-- The hyphen stands behind the digits of the first number. -/
theorem numbered_pair_injective {stem : String} {i j i' j' : ℕ}
    (h : stem ++ toString i ++ "-" ++ toString j = stem ++ toString i' ++ "-" ++ toString j') :
    i = i' ∧ j = j' := by
  have hlist := congrArg String.toList h
  have hyphen : "-".toList = ['-'] := by decide +kernel
  simp only [String.toList_append, List.append_assoc, hyphen, List.singleton_append] at hlist
  have hdigit : ∀ n : ℕ, '-' ∉ (toString n).toList := notMem_of_not_isDigit (by decide)
  obtain ⟨hi, -, hj⟩ := (List.append_cons_inj_of_notMem (hdigit _) (hdigit _)).mp
    (List.append_cancel_left hlist)
  exact ⟨toString_injective (String.toList_inj.mp hi), toString_injective (String.toList_inj.mp hj)⟩

theorem digitsValue_toString (n : ℕ) : digitsValue (toString n).toList = some n := by
  have hne : (toString n).toList ≠ [] := by
    rw [toList_toString]
    exact Nat.toDigits_ne_nil
  have hall : (toString n).toList.all Char.isDigit :=
    List.all_eq_true.mpr fun c hc => isDigit_of_mem hc
  rw [digitsValue, if_pos ⟨hne, hall⟩, toList_toString, Nat.ofDigitChars_ten_toDigits]

theorem signedValue_toString (n : ℕ) : signedValue (toString n).toList = some (n : ℤ) := by
  have hvalue := digitsValue_toString n
  cases hn : (toString n).toList with
  | nil =>
    rw [hn] at hvalue
    cases hvalue
  | cons c cs =>
    have hc : c.isDigit := isDigit_of_mem (hn ▸ List.mem_cons_self)
    have hminus : c ≠ '-' := fun h => absurd (h ▸ hc) (by decide)
    have hplus : c ≠ '+' := fun h => absurd (h ▸ hc) (by decide)
    rw [hn] at hvalue
    simp [signedValue, hminus, hplus, hvalue]

theorem parseInt_toString {n : ℕ} (h : n < 2 ^ 31) : parseInt (toString n) = some (n : ℤ) := by
  have hrange : -2 ^ 31 ≤ (n : ℤ) ∧ (n : ℤ) < 2 ^ 31 := by omega
  rw [parseInt, signedValue_toString]
  exact Option.filter_eq_some_iff.mpr ⟨rfl, decide_eq_true hrange⟩

/-- Words without blanks, the last one not empty, are the parts of the text they make. -/
theorem split_intercalate {words : List String} {last : String}
    (hblank : ∀ w ∈ words ++ [last], ' ' ∉ w.toList) (hlast : last ≠ "") (hne : words ≠ []) :
    split (String.intercalate " " (words ++ [last])) = words ++ [last] := by
  have hsep : " ".toList = [' '] := by decide +kernel
  have hparts : (String.intercalate " " (words ++ [last])).toList.splitOn ' ' =
      (words ++ [last]).map String.toList := by
    rw [String.toList_intercalate, hsep]
    apply List.splitOn_intercalate
    · intro cs hcs
      obtain ⟨w, hw, rfl⟩ := List.mem_map.mp hcs
      exact hblank w hw
    · simp
  have hmem : ' ' ∈ (String.intercalate " " (words ++ [last])).toList := by
    by_contra hnot
    rw [List.splitOn_eq_singleton hnot] at hparts
    have hlength := congrArg List.length hparts
    have hpos := List.length_pos_iff.mpr hne
    simp only [List.length_map, List.length_append, List.length_singleton] at hlength
    omega
  have hkeep : ¬ decide (last.toList = []) := by simpa using hlast
  rw [split, if_pos hmem, hparts, List.map_append, List.map_singleton,
    List.rdropWhile_concat_neg (fun cs => cs = []) _ _ hkeep]
  simp [Function.comp_def]

theorem notMem_of_mem_splitOn {α : Type} [DecidableEq α] {sep : α} {part cs : List α}
    (h : part ∈ cs.splitOn sep) : sep ∉ part := by
  induction cs generalizing part with
  | nil =>
    rw [List.splitOn_nil, List.mem_singleton] at h
    simp [h]
  | cons c cs ih =>
    obtain ⟨first, rest, hparts⟩ := List.exists_cons_of_ne_nil (List.splitOn_ne_nil sep cs)
    rw [List.splitOn_cons_eq_if_modifyHead, hparts] at h
    rw [hparts] at ih
    by_cases hc : c = sep
    · rw [if_pos (beq_iff_eq.mpr hc)] at h
      rcases List.mem_cons.mp h with rfl | h
      · exact List.not_mem_nil
      · exact ih h
    · rw [if_neg (by simpa using hc), List.modifyHead_cons] at h
      rcases List.mem_cons.mp h with rfl | h
      · simp [Ne.symm hc, ih List.mem_cons_self]
      · exact ih (List.mem_cons_of_mem _ h)

theorem split_no_blank {s w : String} (h : w ∈ split s) : ' ' ∉ w.toList := by
  rw [split] at h
  split_ifs at h with hblank
  · obtain ⟨part, hpart, rfl⟩ := List.mem_map.mp h
    rw [String.toList_ofList]
    exact notMem_of_mem_splitOn ((List.rdropWhile_prefix _ _).mem hpart)
  · rwa [List.mem_singleton.mp h]

theorem rdropWhile_cons {α : Type} (p : α → Bool) (a : α) (l : List α) :
    (a :: l).rdropWhile p =
      if l.rdropWhile p = [] then (if p a then [] else [a]) else a :: l.rdropWhile p := by
  have hempty : l.rdropWhile p = [] ↔ (l.reverse.dropWhile p).isEmpty := by
    rw [List.rdropWhile, List.reverse_eq_nil_iff, List.isEmpty_iff]
  rw [List.rdropWhile, List.reverse_cons, List.dropWhile_append]
  by_cases h : l.rdropWhile p = []
  · rw [if_pos h, if_pos (hempty.mp h)]
    by_cases ha : p a <;> simp [ha]
  · rw [if_neg h, if_neg (mt hempty.mpr h), List.reverse_append]
    rfl

/-- What stands in front of a visible character keeps its parts. -/
theorem count_lt_length_split {cs rest : List Char} {c : Char} (hc : c ≠ ' ') :
    cs.count ' ' < (((cs ++ c :: rest).splitOn ' ').rdropWhile (· = [])).length := by
  induction cs with
  | nil =>
    obtain ⟨first, parts, hparts⟩ := List.exists_cons_of_ne_nil (List.splitOn_ne_nil ' ' rest)
    rw [List.nil_append, List.splitOn_cons_eq_if_modifyHead, if_neg (by simpa using hc), hparts,
      List.modifyHead_cons, rdropWhile_cons]
    split_ifs <;> simp_all
  | cons d cs ih =>
    obtain ⟨first, parts, hparts⟩ :=
      List.exists_cons_of_ne_nil (List.splitOn_ne_nil ' ' (cs ++ c :: rest))
    rw [List.cons_append, List.splitOn_cons_eq_if_modifyHead]
    rw [hparts] at ih ⊢
    by_cases hd : d = ' '
    · subst hd
      have hne : (first :: parts).rdropWhile (fun part => decide (part = [])) ≠ [] := by
        intro h
        rw [h] at ih
        exact absurd ih (Nat.not_lt_zero _)
      rw [if_pos (beq_self_eq_true _), rdropWhile_cons, if_neg hne, List.count_cons_self,
        List.length_cons]
      exact Nat.succ_lt_succ ih
    · rw [if_neg (by simpa using hd), List.modifyHead_cons, List.count_cons_of_ne hd,
        rdropWhile_cons]
      rw [rdropWhile_cons] at ih
      split_ifs at ih ⊢ <;> simp_all

/-- The words of a text between blanks. -/
def words (s : String) : List String :=
  ((s.toList.splitOn ' ').filter (· ≠ [])).map String.ofList

theorem words_no_blank {s w : String} (h : w ∈ words s) : ' ' ∉ w.toList := by
  obtain ⟨part, hpart, rfl⟩ := List.mem_map.mp h
  rw [String.toList_ofList]
  exact notMem_of_mem_splitOn (List.mem_of_mem_filter hpart)

theorem words_join {ws : List String} (h : ∀ w ∈ ws, w ≠ "" ∧ ' ' ∉ w.toList) :
    words (String.join (ws.map fun w => w ++ " ")) = ws := by
  induction ws with
  | nil => rfl
  | cons w ws ih =>
    obtain ⟨⟨hne, hblank⟩, hws⟩ := List.forall_mem_cons.mp h
    have hsep : " ".toList = [' '] := by decide +kernel
    have htext : (String.join ((w :: ws).map fun w => w ++ " ")).toList =
        w.toList ++ ' ' :: (String.join (ws.map fun w => w ++ " ")).toList := by
      rw [List.map_cons, String.join_cons, String.toList_append, String.toList_append, hsep,
        List.append_assoc]
      rfl
    have hkeep : w.toList ≠ [] := by simpa using hne
    have ih := ih hws
    rw [words] at ih ⊢
    rw [htext, List.splitOn_append_cons_self_of_not_mem hblank, List.filter_cons_of_pos (by simpa),
      List.map_cons, ih, String.ofList_toList]

theorem filter_rdropWhile {α : Type} (p : α → Bool) (l : List α) :
    (l.rdropWhile p).filter (fun x => !p x) = l.filter fun x => !p x := by
  induction l with
  | nil => rfl
  | cons a l ih =>
    rw [rdropWhile_cons]
    by_cases h : l.rdropWhile p = []
    · rw [h] at ih
      by_cases ha : p a <;> simp [h, ha, ← ih]
    · rw [if_neg h, List.filter_cons, List.filter_cons, ih]

theorem filter_split (s : String) : (split s).filter (· ≠ "") = words s := by
  rw [split, words]
  by_cases hblank : ' ' ∈ s.toList
  · have hvisible : ((fun w : String => decide (w ≠ "")) ∘ String.ofList) =
        fun cs => !decide (cs = []) := by
      funext cs
      simp
    rw [if_pos hblank, List.filter_map, hvisible, filter_rdropWhile]
    simp
  · rw [if_neg hblank, List.splitOn_eq_singleton hblank]
    by_cases hs : s = "" <;> simp [hs]

theorem foldl_text {α : Type} (f : α → String) (l : List α) (content : String) :
    l.foldl (fun content x => content ++ f x) content = content ++ String.join (l.map f) := by
  induction l generalizing content with
  | nil => simp
  | cons x l ih => rw [List.foldl_cons, ih, List.map_cons, String.join_cons, String.append_assoc]

theorem foldl_filter_text {α : Type} (p : α → Prop) [DecidablePred p] (f : α → String) (l : List α)
    (content : String) : l.foldl (fun content x => if p x then content ++ f x else content) content =
      content ++ String.join ((l.filter p).map f) := by
  rw [← foldl_text, List.foldl_filter]
  simp only [decide_eq_true_eq]

theorem fromEnd_append (front : List String) (w : String) (back : List String) :
    fromEnd (front ++ w :: back) (back.length + 1) = some w := by
  simp [fromEnd]

end PlainText
