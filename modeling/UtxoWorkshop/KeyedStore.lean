import Mathlib.Algebra.GroupWithZero.Nat
import Mathlib.Data.Finmap
import Mathlib.Data.Finset.Card
import Mathlib.Algebra.BigOperators.Group.Multiset.Basic
import Mathlib.Tactic.Common

/-! A finite store of values under keys, changed by removing a list of keys and writing a list
of entries. Writes overwrite silently, so the lookup laws come first; the accounting laws say
what a change can do to the total weight of the stored values. -/
namespace KeyedStore

variable {K V : Type*} [DecidableEq K]

abbrev Store (K V : Type*) := Finmap fun _ : K => V

def removeAll (m : Store K V) (ks : List K) : Store K V := ks.foldl (fun m k => m.erase k) m

def insertAll (m : Store K V) (es : List (K × V)) : Store K V :=
  es.foldl (fun m e => m.insert e.1 e.2) m

def update (m : Store K V) (ks : List K) (es : List (K × V)) : Store K V :=
  insertAll (removeAll m ks) es

@[simp] theorem removeAll_nil (m : Store K V) : removeAll m [] = m := rfl

@[simp] theorem removeAll_cons (m : Store K V) (k : K) (ks : List K) :
    removeAll m (k :: ks) = removeAll (m.erase k) ks := rfl

@[simp] theorem insertAll_nil (m : Store K V) : insertAll m [] = m := rfl

@[simp] theorem insertAll_cons (m : Store K V) (e : K × V) (es : List (K × V)) :
    insertAll m (e :: es) = insertAll (m.insert e.1 e.2) es := rfl

theorem lookup_erase_eq (m : Store K V) (k x : K) :
    (m.erase k).lookup x = if x = k then none else m.lookup x := by
  split_ifs with h
  · rw [h, Finmap.lookup_erase]
  · rw [Finmap.lookup_erase_ne h]

theorem lookup_insert_eq (m : Store K V) (k x : K) (v : V) :
    (m.insert k v).lookup x = if x = k then some v else m.lookup x := by
  split_ifs with h
  · rw [h, Finmap.lookup_insert]
  · rw [Finmap.lookup_insert_of_ne _ h]

theorem lookup_removeAll (m : Store K V) (ks : List K) (x : K) :
    (removeAll m ks).lookup x = if x ∈ ks then none else m.lookup x := by
  induction ks generalizing m with
  | nil => simp
  | cons k ks ih =>
    rw [removeAll_cons, ih, lookup_erase_eq]
    by_cases hk : x = k <;> by_cases hks : x ∈ ks <;> simp [hk, hks]

theorem lookup_insertAll_of_notMem {es : List (K × V)} {x : K} (h : x ∉ es.map Prod.fst)
    (m : Store K V) : (insertAll m es).lookup x = m.lookup x := by
  induction es generalizing m with
  | nil => rfl
  | cons e es ih =>
    simp only [List.map_cons, List.mem_cons, not_or] at h
    rw [insertAll_cons, ih h.2, lookup_insert_eq, if_neg h.1]

/-- A written key no longer depends on what the store held. -/
theorem lookup_insertAll_congr {es : List (K × V)} {x : K} (h : x ∈ es.map Prod.fst)
    (m n : Store K V) : (insertAll m es).lookup x = (insertAll n es).lookup x := by
  induction es generalizing m n with
  | nil => simp at h
  | cons e es ih =>
    by_cases hx : x ∈ es.map Prod.fst
    · exact ih hx _ _
    · have hxe : x = e.1 := by simpa [hx] using h
      rw [insertAll_cons, insertAll_cons, lookup_insertAll_of_notMem hx,
        lookup_insertAll_of_notMem hx, lookup_insert_eq, lookup_insert_eq, if_pos hxe, if_pos hxe]

theorem lookup_insertAll_some {es : List (K × V)} {x : K} {v : V} {m : Store K V}
    (h : (insertAll m es).lookup x = some v) :
    (x, v) ∈ es ∨ x ∉ es.map Prod.fst ∧ m.lookup x = some v := by
  induction es generalizing m with
  | nil => exact Or.inr ⟨by simp, h⟩
  | cons e es ih =>
    rcases ih h with h | ⟨hx, h⟩
    · exact Or.inl (List.mem_cons_of_mem _ h)
    · rw [lookup_insert_eq] at h
      split_ifs at h with hxe
      · cases h
        exact Or.inl (by simp [hxe])
      · exact Or.inr ⟨by simpa [hxe] using hx, h⟩

theorem mem_insertAll {m : Store K V} {es : List (K × V)} {x : K} :
    x ∈ insertAll m es ↔ x ∈ es.map Prod.fst ∨ x ∈ m := by
  induction es generalizing m with
  | nil => simp
  | cons e es ih =>
    rw [insertAll_cons, ih, Finmap.mem_insert, List.map_cons, List.mem_cons]
    tauto

theorem keys_insertAll (m : Store K V) (es : List (K × V)) :
    (insertAll m es).keys = m.keys ∪ (es.map Prod.fst).toFinset := by
  ext x
  rw [Finmap.mem_keys, mem_insertAll, Finset.mem_union, Finmap.mem_keys, List.mem_toFinset]
  exact or_comm

/-- As many keys are stored as were written, unless one was written twice. -/
theorem card_insertAll_empty_iff {es : List (K × V)} :
    (insertAll ∅ es).keys.card = es.length ↔ (es.map Prod.fst).Nodup := by
  rw [keys_insertAll, Finmap.keys_empty, Finset.empty_union, List.card_toFinset,
    ← List.length_map (f := Prod.fst)]
  constructor
  · intro h
    exact List.dedup_eq_self.mp ((List.dedup_sublist _).eq_of_length h)
  · intro h
    rw [h.dedup]

/-- Writing one key several times with one value is writing it once. -/
theorem lookup_insertAll_of_mem {es : List (K × V)} {x : K} {v : V} (h : (x, v) ∈ es)
    (hv : ∀ u, (x, u) ∈ es → u = v) (m : Store K V) : (insertAll m es).lookup x = some v := by
  have hx : x ∈ es.map Prod.fst := List.mem_map_of_mem h
  obtain ⟨u, hu⟩ := Finmap.mem_iff.mp ((mem_insertAll (m := m)).mpr (Or.inl hx))
  rcases lookup_insertAll_some hu with hmem | ⟨hn, -⟩
  · rw [hu, hv u hmem]
  · exact absurd hx hn

theorem mem_removeAll {m : Store K V} {ks : List K} {x : K} :
    x ∈ removeAll m ks ↔ x ∉ ks ∧ x ∈ m := by
  rw [← Finmap.lookup_isSome, lookup_removeAll, ← Finmap.lookup_isSome]
  by_cases h : x ∈ ks <;> simp [h]

theorem mem_update {m : Store K V} {ks : List K} {es : List (K × V)} {x : K} :
    x ∈ update m ks es ↔ x ∈ es.map Prod.fst ∨ x ∉ ks ∧ x ∈ m := by
  rw [update, mem_insertAll, mem_removeAll]

theorem lookup_update_of_notMem {m : Store K V} {ks : List K} {es : List (K × V)} {x : K}
    (hx : x ∉ es.map Prod.fst) (hk : x ∉ ks) : (update m ks es).lookup x = m.lookup x := by
  rw [update, lookup_insertAll_of_notMem hx, lookup_removeAll, if_neg hk]

/-- Two changes commute when neither writes a key that the other one touches. -/
theorem update_comm {ks ls : List K} {es fs : List (K × V)}
    (hef : ∀ x ∈ es.map Prod.fst, x ∉ fs.map Prod.fst) (hel : ∀ x ∈ es.map Prod.fst, x ∉ ls)
    (hfk : ∀ x ∈ fs.map Prod.fst, x ∉ ks) (m : Store K V) :
    update (update m ks es) ls fs = update (update m ls fs) ks es := by
  apply Finmap.ext_lookup
  intro x
  by_cases he : x ∈ es.map Prod.fst
  · rw [lookup_update_of_notMem (hef x he) (hel x he)]
    exact lookup_insertAll_congr he _ _
  · by_cases hf : x ∈ fs.map Prod.fst
    · rw [lookup_update_of_notMem he (hfk x hf)]
      exact lookup_insertAll_congr hf _ _
    · simp only [update, lookup_insertAll_of_notMem he, lookup_insertAll_of_notMem hf,
        lookup_removeAll]
      split_ifs <;> rfl

/-- Changes that write each other's keys nowhere may be applied in any order. -/
theorem foldl_update_perm {α : Type*} {ks : α → List K} {es : α → List (K × V)} {l l' : List α}
    (hp : l.Perm l')
    (hes : ∀ a ∈ l, ∀ b ∈ l, a ≠ b → ∀ x ∈ (es a).map Prod.fst, x ∉ (es b).map Prod.fst)
    (hks : ∀ a ∈ l, ∀ b ∈ l, ∀ x ∈ (es a).map Prod.fst, x ∉ ks b) (m : Store K V) :
    l.foldl (fun m a => update m (ks a) (es a)) m =
      l'.foldl (fun m a => update m (ks a) (es a)) m := by
  apply hp.foldl_eq'
  intro a ha b hb m
  by_cases hab : a = b
  · rw [hab]
  · exact update_comm (hes a ha b hb hab) (hks a ha b hb) (hks b hb a ha) m

def total (weight : V → ℕ) (m : Store K V) : ℕ := (m.entries.map fun e => weight e.2).sum

def weightAt (weight : V → ℕ) (m : Store K V) (k : K) : ℕ := (m.lookup k).elim 0 weight

variable (weight : V → ℕ)

omit [DecidableEq K] in
@[simp] theorem total_empty : total weight (∅ : Store K V) = 0 := rfl

theorem total_insert {m : Store K V} {k : K} (h : k ∉ m) (v : V) :
    total weight (m.insert k v) = weight v + total weight m := by
  simp [total, Finmap.entries_insert_of_notMem h]

theorem insert_erase_self (m : Store K V) (k : K) (v : V) :
    (m.erase k).insert k v = m.insert k v := by
  apply Finmap.ext_lookup
  intro x
  simp only [lookup_insert_eq, lookup_erase_eq]
  split_ifs <;> rfl

theorem total_erase (m : Store K V) (k : K) :
    total weight (m.erase k) + weightAt weight m k = total weight m := by
  cases hk : m.lookup k with
  | none =>
    have herase : m.erase k = m := by
      apply Finmap.ext_lookup
      intro x
      rw [lookup_erase_eq]
      split_ifs with h
      · rw [h, hk]
      · rfl
    simp [weightAt, hk, herase]
  | some v =>
    have hback : (m.erase k).insert k v = m := by
      apply Finmap.ext_lookup
      intro x
      rw [insert_erase_self, lookup_insert_eq]
      split_ifs with h
      · rw [h, hk]
      · rfl
    have htotal := total_insert weight (Finmap.notMem_erase_self (s := m) (a := k)) v
    rw [hback] at htotal
    simp only [weightAt, hk, Option.elim_some]
    omega

theorem total_erase_le (m : Store K V) (k : K) : total weight (m.erase k) ≤ total weight m :=
  (Nat.le_add_right _ _).trans_eq (total_erase weight m k)

theorem total_insert_le (m : Store K V) (k : K) (v : V) :
    total weight (m.insert k v) ≤ total weight m + weight v := by
  have h := total_erase_le weight m k
  rw [← insert_erase_self, total_insert weight Finmap.notMem_erase_self]
  omega

/-- Removing distinct keys takes away exactly what they held; a missing key held nothing. -/
theorem total_removeAll {ks : List K} (hn : ks.Nodup) (m : Store K V) :
    total weight (removeAll m ks) + (ks.map (weightAt weight m)).sum = total weight m := by
  induction ks generalizing m with
  | nil => simp
  | cons k ks ih =>
    obtain ⟨hk, hn⟩ := List.nodup_cons.mp hn
    have hcongr : ks.map (weightAt weight (m.erase k)) = ks.map (weightAt weight m) := by
      apply List.map_congr_left
      intro x hx
      have hne : x ≠ k := fun h => hk (h ▸ hx)
      simp [weightAt, hne]
    have hrest := ih hn (m.erase k)
    have herase := total_erase weight m k
    rw [hcongr] at hrest
    rw [removeAll_cons, List.map_cons, List.sum_cons]
    omega

theorem total_insertAll_le (m : Store K V) (es : List (K × V)) :
    total weight (insertAll m es) ≤ total weight m + (es.map fun e => weight e.2).sum := by
  induction es generalizing m with
  | nil => simp
  | cons e es ih =>
    have h := ih (m.insert e.1 e.2)
    have hi := total_insert_le weight m e.1 e.2
    rw [insertAll_cons, List.map_cons, List.sum_cons]
    omega

/-- Writes under new keys lose nothing. -/
theorem total_insertAll {m : Store K V} {es : List (K × V)} (hn : (es.map Prod.fst).Nodup)
    (hm : ∀ k ∈ es.map Prod.fst, k ∉ m) :
    total weight (insertAll m es) = total weight m + (es.map fun e => weight e.2).sum := by
  induction es generalizing m with
  | nil => simp
  | cons e es ih =>
    obtain ⟨hfirst, hrest⟩ := List.forall_mem_cons.mp hm
    obtain ⟨he, hn⟩ := List.nodup_cons.mp hn
    have hfresh : ∀ k ∈ es.map Prod.fst, k ∉ m.insert e.1 e.2 := by
      intro k hk hmem
      rcases Finmap.mem_insert.mp hmem with rfl | hmem
      · exact he hk
      · exact hrest k hk hmem
    rw [insertAll_cons, ih hn hfresh, total_insert weight hfirst, List.map_cons, List.sum_cons]
    omega

theorem total_update_le {ks : List K} (hn : ks.Nodup) (m : Store K V) (es : List (K × V)) :
    total weight (update m ks es) + (ks.map (weightAt weight m)).sum ≤
      total weight m + (es.map fun e => weight e.2).sum := by
  have hr := total_removeAll weight hn m
  have hi := total_insertAll_le weight (removeAll m ks) es
  rw [update]
  omega

/-- Distinct stored keys hold no more than the store; keys that are not stored hold nothing. -/
theorem sum_weightAt_le {m : Store K V} {ks : List K} (hn : (ks.filter (· ∈ m)).Nodup) :
    (ks.map (weightAt weight m)).sum ≤ total weight m := by
  have hsum : (ks.map (weightAt weight m)).sum =
      ((ks.filter (· ∈ m)).map (weightAt weight m)).sum := by
    clear hn
    induction ks with
    | nil => rfl
    | cons k ks ih =>
      by_cases hk : k ∈ m
      · rw [List.filter_cons_of_pos (by simpa using hk), List.map_cons, List.map_cons,
          List.sum_cons, List.sum_cons, ih]
      · have hzero : weightAt weight m k = 0 := by
          rw [weightAt, Finmap.lookup_eq_none.mpr hk, Option.elim_none]
        rw [List.filter_cons_of_neg (by simpa using hk), List.map_cons, List.sum_cons, ih, hzero,
          Nat.zero_add]
  have h := total_removeAll weight hn m
  omega

/-- A store weighs what its keys hold. -/
theorem total_eq_sum (m : Store K V) :
    total weight m = (m.keys.toList.map (weightAt weight m)).sum := by
  have hempty : removeAll m m.keys.toList = ∅ := by
    apply Finmap.ext_lookup
    intro x
    rw [lookup_removeAll, Finmap.lookup_empty]
    split_ifs with hx
    · rfl
    · exact Finmap.lookup_eq_none.mpr (by simpa [Finmap.mem_keys] using hx)
  have h := total_removeAll weight m.keys.nodup_toList m
  rw [hempty, total_empty] at h
  omega

/-- The keys of the values that satisfy `P`, which together hold all there is of such values. -/
theorem exists_keys_total (P : V → Prop) [DecidablePred P] (m : Store K V) :
    ∃ ks : List K, ks.Nodup ∧ ks.length ≤ m.keys.card ∧
      (∀ k, k ∈ ks ↔ ∃ v, m.lookup k = some v ∧ P v) ∧
      (ks.map (weightAt weight m)).sum = total (fun v => if P v then weight v else 0) m := by
  refine ⟨m.keys.toList.filter fun k => (m.lookup k).any fun v => P v, ?_, ?_, ?_, ?_⟩
  · exact m.keys.nodup_toList.filter _
  · exact (List.length_filter_le _ _).trans (Finset.length_toList _).le
  · intro k
    rw [List.mem_filter, Finset.mem_toList, Finmap.mem_keys]
    constructor
    · rintro ⟨-, hany⟩
      obtain ⟨v, hv, hp⟩ := (Option.any_eq_true _ _).mp hany
      exact ⟨v, hv, of_decide_eq_true hp⟩
    · rintro ⟨v, hv, hp⟩
      refine ⟨Finmap.mem_iff.mpr ⟨v, hv⟩, ?_⟩
      rw [hv, Option.any_some]
      exact decide_eq_true hp
  · rw [total_eq_sum]
    induction m.keys.toList with
    | nil => rfl
    | cons k ks ih =>
      have hk : weightAt (fun v => if P v then weight v else 0) m k =
          if (m.lookup k).any fun v => P v then weightAt weight m k else 0 := by
        cases hl : m.lookup k <;> simp [weightAt, hl]
      rw [List.map_cons, List.sum_cons, ← ih, hk, List.filter_cons]
      split_ifs
      · rw [List.map_cons, List.sum_cons]
      · rw [Nat.zero_add]

/-- A change that writes distinct new keys adds exactly what it writes. -/
theorem total_update {m : Store K V} {ks : List K} {es : List (K × V)} (hks : ks.Nodup)
    (hes : (es.map Prod.fst).Nodup) (hfresh : ∀ k ∈ es.map Prod.fst, k ∉ m) :
    total weight (update m ks es) + (ks.map (weightAt weight m)).sum =
      total weight m + (es.map fun e => weight e.2).sum := by
  have hr := total_removeAll weight hks m
  have hi := total_insertAll weight (m := removeAll m ks) hes
    (fun k hk hmem => hfresh k hk (mem_removeAll.mp hmem).2)
  rw [update]
  omega

/-- Repeated entries collapse into one. -/
theorem insertAll_dedup [DecidableEq V] {es : List (K × V)}
    (hfun : ∀ k u v, (k, u) ∈ es → (k, v) ∈ es → u = v) :
    insertAll (∅ : Store K V) es.dedup = insertAll ∅ es := by
  apply Finmap.ext_lookup
  intro x
  by_cases hx : x ∈ es.map Prod.fst
  · obtain ⟨⟨k, v⟩, he, rfl⟩ := List.mem_map.mp hx
    rw [lookup_insertAll_of_mem he fun u hu => hfun k u v hu he,
      lookup_insertAll_of_mem (List.mem_dedup.mpr he) fun u hu =>
        hfun k u v (List.mem_dedup.mp hu) he]
  · have hd : x ∉ es.dedup.map Prod.fst := by simpa using hx
    rw [lookup_insertAll_of_notMem hx, lookup_insertAll_of_notMem hd]

/-- So a store that starts from functional entries weighs each of them once. -/
theorem total_insertAll_empty [DecidableEq V] {es : List (K × V)}
    (hfun : ∀ k u v, (k, u) ∈ es → (k, v) ∈ es → u = v) :
    total weight (insertAll (∅ : Store K V) es) = (es.dedup.map fun e => weight e.2).sum := by
  have hn : (es.dedup.map Prod.fst).Nodup := by
    apply (List.nodup_dedup es).map_on
    rintro ⟨k, u⟩ hu ⟨k', v⟩ hv h
    obtain rfl : k = k' := h
    rw [hfun k u v (List.mem_dedup.mp hu) (List.mem_dedup.mp hv)]
  rw [← insertAll_dedup hfun, total_insertAll weight hn (fun k _ => Finmap.notMem_empty),
    total_empty, Nat.zero_add]

end KeyedStore
