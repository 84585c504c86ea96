import Mathlib.Data.Set.Finite.Basic
import Mathlib.Logic.Relation
import Mathlib.Order.WellFoundedSet
import Mathlib.Tactic.Common

/-! Tasks that wait for one another. Which of them have finished is kept as a log, newest first, and
a task finishes only after everything that it awaits. -/
namespace DependencyOrder

open Relation

variable {K : Type*} {awaits : K → K → Prop} {log later earlier : List K} {k d : K}

/-- The orders in which tasks can finish. -/
inductive Schedule (awaits : K → K → Prop) : List K → Prop where
  | nil : Schedule awaits []
  | finish {k : K} {log : List K} : Schedule awaits log → k ∉ log → (∀ d, awaits k d → d ∈ log) →
      Schedule awaits (k :: log)

theorem Schedule.nodup (h : Schedule awaits log) : log.Nodup := by
  induction h with
  | nil => exact List.nodup_nil
  | finish _ hnew _ ih => exact List.nodup_cons.mpr ⟨hnew, ih⟩

theorem Schedule.suffix (h : Schedule awaits (later ++ earlier)) : Schedule awaits earlier := by
  induction later with
  | nil => exact h
  | cons k later ih =>
    cases h with
    | finish h _ _ => exact ih h

/-- Whatever a finished task awaits, directly or through others, finished before it. -/
theorem Schedule.before (h : Schedule awaits log) (hl : log = later ++ k :: earlier)
    (hd : TransGen awaits k d) : d ∈ earlier := by
  induction hd with
  | single hd =>
    subst hl
    cases h.suffix with
    | finish _ _ hdeps => exact hdeps _ hd
  | @tail d e _ hd ih =>
    obtain ⟨between, before, rfl⟩ := List.append_of_mem ih
    subst hl
    have h : Schedule awaits ((later ++ k :: between) ++ d :: before) := by
      simpa using h
    cases h.suffix with
    | finish _ _ hdeps =>
      exact List.mem_append_right _ (List.mem_cons_of_mem _ (hdeps _ hd))

theorem Schedule.closed (h : Schedule awaits log) (hk : k ∈ log) (hd : TransGen awaits k d) :
    d ∈ log := by
  obtain ⟨later, earlier, rfl⟩ := List.append_of_mem hk
  have hmem := h.before rfl hd
  simp [hmem]

/-- A task that could finish next has everything that it leads to behind it. -/
theorem Schedule.behind (h : Schedule awaits log) (hk : ∀ d, awaits k d → d ∈ log)
    (hd : TransGen awaits k d) : d ∈ log := by
  obtain ⟨d', hd', hrest⟩ := TransGen.head'_iff.mp hd
  rcases reflTransGen_iff_eq_or_transGen.mp hrest with rfl | hrest
  · exact hk _ hd'
  · exact h.closed (hk _ hd') hrest

/-- Nothing that finished awaits itself. -/
theorem Schedule.acyclic (h : Schedule awaits log) (hk : k ∈ log) : ¬TransGen awaits k k := by
  intro hcycle
  obtain ⟨later, earlier, rfl⟩ := List.append_of_mem hk
  have hmem := h.before rfl hcycle
  have hnew := (List.nodup_cons.mp (List.Nodup.of_append_right h.nodup)).1
  exact hnew hmem

/-- `k` leads to a task that failed, or into a cycle. -/
def LeadsAstray (awaits : K → K → Prop) (failed : K → Prop) (k : K) : Prop :=
  ∃ d, TransGen awaits k d ∧ (failed d ∨ TransGen awaits d d)

/-- In a finite set of tasks, one from which no cycle can be reached is well founded. -/
theorem acc_of_no_cycle {tasks : Set K} (hfin : tasks.Finite)
    (hmem : ∀ k d, awaits k d → k ∈ tasks ∧ d ∈ tasks)
    (h : ¬∃ d, ReflTransGen awaits k d ∧ TransGen awaits d d) :
    Acc (fun d k => awaits k d) k := by
  let below : K → K → Prop := fun d e =>
    e ∈ tasks ∧ d ∈ tasks ∧ ReflTransGen awaits k e ∧ TransGen awaits e d
  have hirrefl : ∀ d, ¬below d d := by
    intro d hd
    exact h ⟨d, hd.2.2.1, hd.2.2.2⟩
  have htrans : ∀ a b c, below a b → below b c → below a c := by
    rintro a b c ⟨hb, ha, _, hab⟩ ⟨hc, _, hkc, hbc⟩
    exact ⟨hc, ha, hkc, hbc.trans hab⟩
  have horder : IsStrictOrder K below := {
    irrefl := hirrefl
    trans := htrans }
  have hwf : tasks.WellFoundedOn below := hfin.wellFoundedOn
  have hall : ∀ e ∈ tasks, ReflTransGen awaits k e → Acc (fun d k => awaits k d) e := by
    intro e he
    apply hwf.induction he (P := fun e => ReflTransGen awaits k e → Acc (fun d k => awaits k d) e)
    intro e he ih hke
    refine ⟨e, fun d hd => ?_⟩
    have hmemd := (hmem e d hd).2
    exact ih d hmemd ⟨he, hmemd, hke, .single hd⟩ (hke.tail hd)
  by_cases hk : k ∈ tasks
  · exact hall k hk .refl
  · refine ⟨k, fun d hd => ?_⟩
    exact absurd (hmem k d hd).1 hk

/-- Tasks of which none can move: each has ended or is held by one that did not finish. -/
structure Standstill (awaits : K → K → Prop) (tasks : Set K) (ended finished : K → Prop) :
    Prop where
  finite : tasks.Finite
  mem_tasks : ∀ k d, awaits k d → k ∈ tasks ∧ d ∈ tasks
  held : ∀ k ∈ tasks, ¬ended k → ∃ d, awaits k d ∧ ¬finished d
  waited : ∀ k d, ended k → awaits k d → finished d
  finished_ended : ∀ k, finished k → ended k
  ordered : ∀ k, finished k → ¬TransGen awaits k k

variable {tasks : Set K} {ended finished : K → Prop}

theorem Standstill.finished_of_ended (h : Standstill awaits tasks ended finished) (hk : ended k)
    (hd : TransGen awaits k d) : finished d := by
  induction hd with
  | single hd => exact h.waited _ _ hk hd
  | tail _ hd ih => exact h.waited _ _ (h.finished_ended _ ih) hd

/-- What hangs is exactly what leads to a task that failed or into a cycle. -/
theorem Standstill.hangs_iff (h : Standstill awaits tasks ended finished) (hk : k ∈ tasks) :
    ¬ended k ↔ LeadsAstray awaits (fun d => ended d ∧ ¬finished d) k := by
  constructor
  · intro hend
    by_contra hstray
    have hacc : Acc (fun d k => awaits k d) k := by
      apply acc_of_no_cycle h.finite h.mem_tasks
      rintro ⟨d, hkd, hd⟩
      refine hstray ⟨d, ?_, .inr hd⟩
      rcases reflTransGen_iff_eq_or_transGen.mp hkd with rfl | hkd
      · exact hd
      · exact hkd
    induction hacc with
    | intro k _ ih =>
      obtain ⟨d, hd, hunfinished⟩ := h.held k hk hend
      by_cases hdend : ended d
      · exact hstray ⟨d, .single hd, .inl ⟨hdend, hunfinished⟩⟩
      · apply ih d hd (h.mem_tasks k d hd).2 hdend
        rintro ⟨e, he, hbad⟩
        exact hstray ⟨e, .head hd he, hbad⟩
  · rintro ⟨d, hd, hbad⟩ hend
    have hfin := h.finished_of_ended hend hd
    rcases hbad with hfailed | hcycle
    · exact hfailed.2 hfin
    · exact h.ordered d hfin hcycle

/-- Everything ends just when there is no cycle and nothing awaits a task that failed. -/
theorem Standstill.all_end_iff (h : Standstill awaits tasks ended finished) :
    (∀ k ∈ tasks, ended k) ↔
      (∀ k, ¬TransGen awaits k k) ∧ ∀ k d, awaits k d → ¬(ended d ∧ ¬finished d) := by
  constructor
  · intro hall
    constructor
    · intro k hcycle
      have hk : k ∈ tasks := by
        obtain ⟨d, hd, _⟩ := TransGen.head'_iff.mp hcycle
        exact (h.mem_tasks k d hd).1
      exact h.ordered k (h.finished_of_ended (hall k hk) hcycle) hcycle
    · intro k d hd hfailed
      exact hfailed.2 (h.waited k d (hall k (h.mem_tasks k d hd).1) hd)
  · rintro ⟨hacyclic, hsound⟩ k hk
    by_contra hend
    obtain ⟨d, hd, hbad⟩ := (h.hangs_iff hk).mp hend
    rcases hbad with hfailed | hcycle
    · obtain ⟨e, _, he⟩ := TransGen.tail'_iff.mp hd
      exact hsound e d he hfailed
    · exact hacyclic d hcycle

end DependencyOrder
