import UtxoWorkshop.EventWorker
import Mathlib.Algebra.BigOperators.Group.Finset.Piecewise
import Mathlib.Algebra.Order.BigOperators.Ring.Finset
import Mathlib.Data.List.TakeWhile

/-! When a run of the docker network simulator comes to its clean-up. -/
namespace EventCompletion

open DependencyOrder EventWorker Relation

variable {K V A : Type} [DecidableEq K]

/-- A worker stops at the first dependency that is no event, so it awaits only those before it. -/
def Awaits (events : Events K V A) (event dependOn : K) : Prop :=
  ∃ eventObject, (event, eventObject) ∈ events.entries ∧
    dependOn ∈ (dependencies eventObject).takeWhile (· ∈ events.keys)

/-- An event whose worker ended without setting the flag. -/
def Failed (s : State K V A) (event : K) : Prop :=
  s.threads event = some [] ∧ s.threadsFinished event ≠ some true

def mainWeight : MainInstruction K V A → ℕ
  | .start _ eventObject => (run eventObject).length + 1
  | _ => 1

/-- A bound on the steps that are left. -/
def remaining (events : Events K V A) (s : State K V A) : ℕ :=
  (s.main.map mainWeight).sum +
    ∑ event ∈ events.keys.toFinset, ((s.threads event).getD []).length

variable {int : V → Option ℤ} {events : Events K V A} {tr : List (Label K V A)}
  {s s' : State K V A} {l : Label K V A} {event d : K}

theorem sum_update {f : K → ℕ} {keys : Finset K} (h : event ∈ keys) (n : ℕ) :
    ∑ k ∈ keys, Function.update f event n k + f event = ∑ k ∈ keys, f k + n := by
  rw [Finset.sum_update_of_mem h, ← Finset.add_sum_erase keys f h, Finset.sdiff_singleton_eq_erase]
  omega

theorem sum_threads_update (h : event ∈ events.keys) (s : State K V A)
    (rest : List (Instruction K V A)) :
    ∑ k ∈ events.keys.toFinset, ((Function.update s.threads event (some rest) k).getD []).length +
      ((s.threads event).getD []).length =
        ∑ k ∈ events.keys.toFinset, ((s.threads k).getD []).length + rest.length := by
  rw [← sum_update (List.mem_toFinset.mpr h) rest.length]
  congr 1
  apply Finset.sum_congr rfl
  intro k _
  by_cases hk : k = event
  · subst hk
    simp
  · simp [hk]

theorem step_remaining (hr : Run int events tr s) (hstep : Step int s l s') :
    remaining events s' + 1 ≤ remaining events s := by
  obtain ⟨hcons, gone, hprogram, hstarted, _⟩ := run_consistent hr
  cases hstep with
  | start event e rest hm =>
    rw [hm] at hprogram
    obtain ⟨he, hfresh⟩ := start_fresh hprogram
    have hsum := sum_threads_update (events.mem_keys he) s (run e)
    have hnone := (hstarted event).mpr hfresh
    simp only [hnone, Option.getD_none, List.length_nil] at hsum
    simp only [remaining, hm, List.map_cons, List.sum_cons, mainWeight]
    omega
  | work event i rest o ht ho =>
    obtain ⟨e, he, _⟩ := hcons.alive ht
    have hsum := sum_threads_update (events.mem_keys he) s (if i.goesOn o then rest else [])
    have hle : (if i.goesOn o then rest else []).length ≤ rest.length := by
      split_ifs <;> simp
    simp only [ht, Option.getD_some, List.length_cons] at hsum
    simp only [remaining, afterWork]
    omega
  | join event rest hm ht =>
    simp only [remaining, hm, List.map_cons, List.sum_cons, mainWeight]
    omega
  | cleanUp part rest hm =>
    simp only [remaining, hm, List.map_cons, List.sum_cons, mainWeight]
    omega

theorem initial_remaining (events : Events K V A) : remaining events (initial events) =
    (events.entries.map fun entry => (run entry.2).length + 2).sum + 3 := by
  have hstarts : (events.entries.map fun entry => (run entry.2).length + 2).sum =
      (events.entries.map fun entry => (run entry.2).length + 1).sum + events.entries.length := by
    induction events.entries with
    | nil => rfl
    | cons entry entries ih =>
      simp only [List.map_cons, List.sum_cons, List.length_cons, ih]
      omega
  have hclean : cleanUps.length = 3 := rfl
  rw [hstarts]
  simp [remaining, initial, mainProgram, Function.comp_def, mainWeight, Events.keys, hclean,
    Nat.add_assoc]

theorem run_bounded (hr : Run int events tr s) :
    tr.length + remaining events s ≤
      (events.entries.map fun entry => (run entry.2).length + 2).sum + 3 := by
  induction hr with
  | init => simp [initial_remaining]
  | step hr hstep ih =>
    have hless := step_remaining hr hstep
    simp only [List.length_cons]
    omega

theorem finished_known (hr : Run int events tr s) (hd : d ∈ finishLog tr) : d ∈ events.keys := by
  obtain ⟨_, e, he, _⟩ := (run_consistent hr).1.whole_program hd
  exact events.mem_keys he

theorem Awaits.known (h : Awaits events event d) : event ∈ events.keys ∧ d ∈ events.keys := by
  obtain ⟨e, he, hd⟩ := h
  exact ⟨events.mem_keys he, by simpa using List.mem_takeWhile_imp hd⟩

theorem Awaits.dependsOn (h : Awaits events event d) : DependsOn events event d := by
  obtain ⟨e, he, hd⟩ := h
  exact ⟨e, he, List.takeWhile_subset _ hd⟩

/-- The dependencies before one that is no event are all that a worker can await. -/
theorem awaited_before {deps before after : List K} {unknown : K} {keys : List K}
    (h : deps = before ++ unknown :: after) (hu : unknown ∉ keys)
    (hd : d ∈ deps.takeWhile (· ∈ keys)) : d ∈ before := by
  subst h
  rw [List.takeWhile_append] at hd
  split_ifs at hd
  · simpa [hu] using hd
  · exact List.takeWhile_subset _ hd

/-- A worker that has ended saw everything finish that it awaits. -/
theorem waited (hr : Run int events tr s) (hend : s.threads event = some [])
    (hd : Awaits events event d) : d ∈ finishLog tr := by
  have hcons := (run_consistent hr).1
  obtain ⟨e, he, hdeps⟩ := hd
  have hp := hcons.progress event
  rw [hend] at hp
  obtain ⟨e', he', hcases⟩ := hp
  obtain rfl := events.entry_unique he he'
  have hdep : d ∈ dependencies e := List.takeWhile_subset _ hdeps
  apply hcons.awaited event d
  rcases hcases with hrun | ⟨_, i, post, hrun, _, hunknown⟩
  · rw [List.append_nil] at hrun
    rw [← hrun]
    simp [run, hdep]
  · by_cases hi : ∃ u, i = .awaitFinished u
    · obtain ⟨u, rfl⟩ := hi
      obtain ⟨before, after, hsplit, hpassed⟩ := awaits_in_order hrun
      rw [hpassed]
      exact List.mem_map_of_mem (awaited_before hsplit (hunknown u rfl) hdeps)
    · exact awaits_passed hrun (fun u hu => hi ⟨u, hu⟩) hdep

omit [DecidableEq K] in
/-- The main thread starts every event before it joins any. -/
theorem all_started {m : MainInstruction K V A} {rest : List (MainInstruction K V A)}
    (h : MainConsistent events s) (hm : s.main = m :: rest)
    (hno : ∀ event e, m ≠ .start event e) (hk : event ∈ events.keys) :
    s.threads event ≠ none := by
  obtain ⟨gone, hprogram, hstarted, _⟩ := h
  obtain ⟨⟨_, e⟩, he, rfl⟩ := List.mem_map.mp hk
  rw [hm, mainProgram, List.append_assoc] at hprogram
  rw [Ne, hstarted]
  intro hfresh
  refine hfresh e (mem_of_past hprogram ?_ (List.mem_map_of_mem he))
  intro hmem
  obtain ⟨entry, _, hentry⟩ := List.mem_map.mp hmem
  exact hno _ _ hentry.symm

omit [DecidableEq K] in
theorem all_ended (h : MainConsistent events s) (hm : s.main = []) (hk : event ∈ events.keys) :
    s.threads event = some [] := by
  obtain ⟨gone, hprogram, _, hjoined⟩ := h
  rw [hm, List.append_nil] at hprogram
  apply hjoined
  rw [← hprogram]
  simp [mainProgram, hk]

/-- Where nothing can move, the main thread is through or waits to join a worker. -/
theorem stuck_main (hr : Run int events tr s) (hstuck : ∀ l s', ¬Step int s l s') :
    s.main = [] ∨ ∃ event rest, s.main = .join event :: rest ∧ event ∈ events.keys ∧
      s.threads event ≠ some [] := by
  obtain ⟨_, gone, hprogram, _⟩ := run_consistent hr
  cases hm : s.main with
  | nil => exact .inl rfl
  | cons m rest =>
    cases m with
    | start event e => exact absurd (.start s event e rest hm) (hstuck _ _)
    | cleanUp part => exact absurd (.cleanUp s part rest hm) (hstuck _ _)
    | join event =>
      refine .inr ⟨event, rest, rfl, ?_, fun ht => hstuck _ _ (.join s event rest hm ht)⟩
      have hmem : MainInstruction.join event ∈ mainProgram events := by
        simp [hprogram, hm]
      simpa [mainProgram] using hmem

theorem stuck_started (hr : Run int events tr s) (hstuck : ∀ l s', ¬Step int s l s')
    (hk : event ∈ events.keys) : s.threads event ≠ none := by
  have hmain := (run_consistent hr).2
  rcases stuck_main hr hstuck with hm | ⟨joining, rest, hm, _⟩
  · simp [all_ended hmain hm hk]
  · exact all_started hmain hm (by simp) hk

/-- A worker that cannot move spins at a dependency that has not finished. -/
theorem spins {i : Instruction K V A} {rest : List (Instruction K V A)}
    (hr : Run int events tr s) (hstuck : ∀ l s', ¬Step int s l s')
    (ht : s.threads event = some (i :: rest)) :
    ∃ d, i = .awaitFinished d ∧ d ∈ events.keys ∧ d ∉ finishLog tr := by
  have hcons := (run_consistent hr).1
  have hnone : ∀ o, ¬Returns int s i o := fun o ho => hstuck _ _ (.work s event i rest o ht ho)
  cases i with
  | awaitFinished d =>
    have hknown : d ∈ events.keys := by
      by_contra hu
      exact hnone .raised (hcons.flag_none.mpr hu)
    refine ⟨d, rfl, hknown, fun hfin => hnone (.returned none) ⟨rfl, ?_⟩⟩
    exact hcons.flag_true.mpr ⟨hknown, hfin⟩
  | sleep seconds =>
    by_cases hn : ∃ n, int seconds = some n ∧ 0 ≤ n
    · exact absurd ⟨rfl, hn⟩ (hnone (.returned none))
    · refine absurd ?_ (hnone .raised)
      intro n hint
      by_contra hle
      exact hn ⟨n, hint, not_lt.mp hle⟩
  | call command => exact absurd rfl (hnone (.returned (some 0)))
  | executeAction action actionObject => exact absurd trivial (hnone .raised)
  | setFinished => exact absurd rfl (hnone (.returned none))

/-- A run in which nothing can move any more is a standstill of its events. -/
theorem standstill (hr : Run int events tr s) (hstuck : ∀ l s', ¬Step int s l s') :
    Standstill (Awaits events) {k | k ∈ events.keys} (fun k => s.threads k = some [])
      (· ∈ finishLog tr) := by
  obtain ⟨hcons, hmain⟩ := run_consistent hr
  constructor
  · exact List.finite_toSet _
  · intro k d hd
    exact hd.known
  · intro k hk hend
    cases ht : s.threads k with
    | none => exact absurd ht (stuck_started hr hstuck hk)
    | some todo =>
      cases todo with
      | nil => exact absurd ht hend
      | cons i rest =>
        obtain ⟨d, rfl, hknown, hnot⟩ := spins hr hstuck ht
        obtain ⟨e, he, hrun⟩ := hcons.alive ht
        obtain ⟨before, after, hdeps, hpassed⟩ := awaits_in_order hrun
        refine ⟨d, ⟨e, he, ?_⟩, hnot⟩
        have hbefore : ∀ b ∈ before, decide (b ∈ events.keys) = true := by
          intro b hb
          have hmem : .awaitFinished b ∈ passed k tr := by
            rw [hpassed]
            exact List.mem_map_of_mem hb
          exact decide_eq_true (finished_known hr (hcons.awaited k b hmem))
        rw [hdeps, List.takeWhile_append_of_pos hbefore]
        simp [hknown]
  · intro k d hend hd
    exact waited hr hend hd
  · intro k hk
    exact (hcons.whole_program hk).1
  · intro k hk hcycle
    exact hcons.schedule.acyclic hk (TransGen.mono (fun _ _ => Awaits.dependsOn) _ _ hcycle)

theorem cleaned_up_iff (hr : Run int events tr s) (hstuck : ∀ l s', ¬Step int s l s') :
    s.main = [] ↔ ∀ k ∈ events.keys, s.threads k = some [] := by
  constructor
  · intro hm k hk
    exact all_ended (run_consistent hr).2 hm hk
  · intro hall
    rcases stuck_main hr hstuck with hm | ⟨event, rest, _, hk, hnot⟩
    · exact hm
    · exact absurd (hall event hk) hnot

/-- No run is longer than its programs. One that can go no further has cleaned up exactly when what
the events await is acyclic and none of it failed, and the events whose threads hang are exactly
those that lead to one that failed or into a cycle. -/
theorem completion_exact (hr : Run int events tr s) :
    tr.length ≤ (events.entries.map fun entry => (run entry.2).length + 2).sum + 3 ∧
    ((∀ l s', ¬Step int s l s') →
      (s.main = [] ↔ (∀ k, ¬TransGen (Awaits events) k k) ∧
        ∀ k d, Awaits events k d → ¬Failed s d) ∧
      ∀ k ∈ events.keys, s.threads k ≠ some [] ↔ LeadsAstray (Awaits events) (Failed s) k) := by
  have hbound := run_bounded hr
  refine ⟨by omega, fun hstuck => ?_⟩
  have hstand := standstill hr hstuck
  have hcons := (run_consistent hr).1
  have hfailed : ∀ k d, Awaits events k d →
      (s.threads d = some [] ∧ d ∉ finishLog tr ↔ Failed s d) := by
    intro k d hd
    simp [Failed, hcons.flag_true, hd.known.2]
  constructor
  · rw [cleaned_up_iff hr hstuck]
    refine hstand.all_end_iff.trans (and_congr_right fun _ => ?_)
    refine forall_congr' fun k => forall_congr' fun d => forall_congr' fun hd => ?_
    rw [hfailed k d hd]
  · intro k hk
    refine (hstand.hangs_iff hk).trans (exists_congr fun d => and_congr_right fun hd => ?_)
    obtain ⟨k', _, hk'⟩ := TransGen.tail'_iff.mp hd
    exact or_congr_left (hfailed k' d hk')

/-- Two events of which the second waits for a command that fails. -/
def pingEvents : Events String ℤ Unit where
  entries := [("event1", { command := some "ping -c 1 192.168.1.2" }),
    ("event2", { dependOn := some ["event1"] })]
  nodup_keys := by decide

def pingTrace : List (Label String ℤ Unit) := [
  .joined "event1", .worked "event1" (.call "ping -c 1 192.168.1.2") (.returned (some 1)),
  .started "event2", .started "event1"]

theorem pingTrace_hangs : ∃ s : State String ℤ Unit, Run some pingEvents pingTrace s ∧
    (∀ l s', ¬Step some s l s') := by
  refine ⟨_, (((Run.init.step (.start _ _ _ _ rfl)).step (.start _ _ _ _ rfl)).step
    (.work _ _ _ _ _ rfl ?_)).step (.join _ _ _ rfl rfl), ?_⟩
  · rfl
  intro l s' hstep
  cases hstep with
  | start event e rest hm => cases hm
  | cleanUp part rest hm => cases hm
  | join event rest hm ht =>
    cases hm
    cases ht
  | work event i rest o ht ho =>
    by_cases h1 : event = "event1"
    · subst h1
      simp [afterWork, Instruction.goesOn] at ht
    · by_cases h2 : event = "event2"
      · subst h2
        have hawait : i = .awaitFinished "event1" := by
          simp only [afterWork, run, dependencies] at ht
          simp at ht
          exact ht.1.symm
        subst hawait
        cases o with
        | returned exitCode => exact absurd ho.2 (by decide)
        | raised => cases ho
      · simp [afterWork, initial, h1, h2] at ht

theorem ping_completion_exact : ∃ s : State String ℤ Unit,
    pingTrace.length ≤ (pingEvents.entries.map fun entry => (run entry.2).length + 2).sum + 3 ∧
    (s.main = [] ↔ (∀ k, ¬TransGen (Awaits pingEvents) k k) ∧
      ∀ k d, Awaits pingEvents k d → ¬Failed s d) ∧
    ∀ k ∈ pingEvents.keys,
      s.threads k ≠ some [] ↔ LeadsAstray (Awaits pingEvents) (Failed s) k := by
  obtain ⟨s, hr, hstuck⟩ := pingTrace_hangs
  have hexact := completion_exact hr
  exact ⟨s, hexact.1, hexact.2 hstuck⟩

end EventCompletion
