import Mathlib.Data.List.Pairwise
import UtxoWorkshop.KeyedStore

/-! What a store of unspent outputs is for, told by its history alone. The history lists the
accepted operations, newest first; each one consumes keys and creates outputs under keys. An
output is live when it was created and its key was never consumed. A key may be consumed only
while live and created only once, which is all the safety of the ledger. -/
namespace HistoryLedger

open KeyedStore

variable {K V : Type*}

structure Entry (K V : Type*) where
  consumed : List K
  created : List (K × V)

abbrev History (K V : Type*) := List (Entry K V)

def Created (h : History K V) (k : K) (v : V) : Prop := ∃ e ∈ h, (k, v) ∈ e.created

def Consumed (h : History K V) (k : K) : Prop := ∃ e ∈ h, k ∈ e.consumed

def Live (h : History K V) (k : K) (v : V) : Prop := Created h k v ∧ ¬ Consumed h k

structure Admissible (h : History K V) (e : Entry K V) : Prop where
  live : ∀ k ∈ e.consumed, ∃ v, Live h k v
  fresh : ∀ k v, (k, v) ∈ e.created → ∀ u, ¬ Created h k u
  functional : ∀ k u v, (k, u) ∈ e.created → (k, v) ∈ e.created → u = v

inductive Valid : History K V → Prop where
  | nil : Valid []
  | cons {h e} : Valid h → Admissible h e → Valid (e :: h)

@[simp] theorem created_cons {h : History K V} {e : Entry K V} {k : K} {v : V} :
    Created (e :: h) k v ↔ (k, v) ∈ e.created ∨ Created h k v := by
  simp [Created]

@[simp] theorem consumed_cons {h : History K V} {e : Entry K V} {k : K} :
    Consumed (e :: h) k ↔ k ∈ e.consumed ∨ Consumed h k := by
  simp [Consumed]

theorem consumed_created {h : History K V} (hv : Valid h) {k : K} (hk : Consumed h k) :
    ∃ v, Created h k v := by
  induction hv with
  | nil => simp [Consumed] at hk
  | cons _ ha ih =>
    rcases consumed_cons.mp hk with hk | hk
    · obtain ⟨v, hl⟩ := ha.live k hk
      exact ⟨v, created_cons.mpr (Or.inr hl.1)⟩
    · obtain ⟨v, hc⟩ := ih hk
      exact ⟨v, created_cons.mpr (Or.inr hc)⟩

/-- A key has been created with one value only. -/
theorem created_functional {h : History K V} (hv : Valid h) {k : K} {u v : V}
    (hu : Created h k u) (hw : Created h k v) : u = v := by
  induction hv with
  | nil => simp [Created] at hu
  | cons _ ha ih =>
    rcases created_cons.mp hu with hu | hu
    · rcases created_cons.mp hw with hw | hw
      · exact ha.functional k u v hu hw
      · exact absurd hw (ha.fresh k u hu v)
    · rcases created_cons.mp hw with hw | hw
      · exact absurd hu (ha.fresh k v hw u)
      · exact ih hu hw

/-- No key is consumed by two operations. -/
theorem consumed_once {h : History K V} (hv : Valid h) :
    h.Pairwise fun e f => ∀ k ∈ e.consumed, k ∉ f.consumed := by
  induction hv with
  | nil => exact List.Pairwise.nil
  | cons _ ha ih =>
    refine List.Pairwise.cons ?_ ih
    intro f hf k hk hkf
    obtain ⟨v, hl⟩ := ha.live k hk
    exact hl.2 ⟨f, hf, hkf⟩

theorem live_cons {h : History K V} {e : Entry K V} (hv : Valid h) (ha : Admissible h e)
    {k : K} {v : V} :
    Live (e :: h) k v ↔ (k, v) ∈ e.created ∨ Live h k v ∧ k ∉ e.consumed := by
  simp only [Live, created_cons, consumed_cons, not_or]
  constructor
  · intro h
    rcases h with ⟨hc | hc, hn, ho⟩
    · exact Or.inl hc
    · exact Or.inr ⟨⟨hc, ho⟩, hn⟩
  · rintro (hc | ⟨⟨hc, ho⟩, hn⟩)
    · refine ⟨Or.inl hc, fun hk => ?_, fun hk => ?_⟩
      · obtain ⟨u, hl⟩ := ha.live k hk
        exact ha.fresh k v hc u hl.1
      · obtain ⟨u, hu⟩ := consumed_created hv hk
        exact ha.fresh k v hc u hu
    · exact ⟨Or.inr hc, hn, ho⟩

variable [DecidableEq K]

/-- The store holds the live outputs and nothing else. -/
def Represents (m : Store K V) (h : History K V) : Prop :=
  ∀ k v, m.lookup k = some v ↔ Live h k v

theorem represents_nil : Represents (∅ : Store K V) [] := by
  intro k v
  simp [Live, Created]

theorem Represents.mem {m : Store K V} {h : History K V} (hr : Represents m h) {k : K} :
    k ∈ m ↔ ∃ v, Live h k v := by
  rw [Finmap.mem_iff]
  exact exists_congr (hr k)

/-- A key that the history never created is not stored. -/
theorem Represents.fresh {m : Store K V} {h : History K V} {e : Entry K V}
    (hr : Represents m h) (ha : Admissible h e) : ∀ k ∈ e.created.map Prod.fst, k ∉ m := by
  intro k hk hmem
  obtain ⟨⟨k, v⟩, hc, rfl⟩ := List.mem_map.mp hk
  obtain ⟨u, hl⟩ := hr.mem.mp hmem
  exact ha.fresh k v hc u hl.1

/-- Removing the consumed keys and writing the created entries is the ledger's own step. -/
theorem Represents.update {m : Store K V} {h : History K V} {e : Entry K V}
    (hr : Represents m h) (hv : Valid h) (ha : Admissible h e) :
    Represents (update m e.consumed e.created) (e :: h) := by
  intro k v
  rw [live_cons hv ha]
  constructor
  · intro hk
    rcases lookup_insertAll_some hk with hc | ⟨_, hk⟩
    · exact Or.inl hc
    · rw [lookup_removeAll] at hk
      split_ifs at hk with hn
      exact Or.inr ⟨(hr k v).mp hk, hn⟩
  · rintro (hc | ⟨hl, hn⟩)
    · exact lookup_insertAll_of_mem hc (fun u hu => ha.functional k u v hu hc) _
    · have hne : k ∉ e.created.map Prod.fst := by
        intro hk
        obtain ⟨⟨k', u⟩, hu, rfl⟩ := List.mem_map.mp hk
        exact ha.fresh k' u hu v hl.1
      rw [lookup_update_of_notMem hne hn]
      exact (hr k v).mpr hl

end HistoryLedger
