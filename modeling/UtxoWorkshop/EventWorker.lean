import UtxoWorkshop.DependencyOrder
import Mathlib.Data.List.Basic
import Mathlib.Logic.Function.Basic

/-! The event threads of the docker network simulator, each running `eventWorker.run`, beside the
main thread that starts and joins them. -/
namespace EventWorker

open DependencyOrder Relation

/-- An event of the configuration file. A key that its map leaves out is `none`. -/
structure EventObject (K V A : Type) where
  dependOn : Option (List K) := none
  seconds : Option V := none
  command : Option String := none
  commands : Option (List String) := none
  doObject : Option (List (String × A)) := none

inductive Instruction (K V A : Type) where
  | awaitFinished (dependOn : K)
  | sleep (seconds : V)
  | call (command : String)
  | executeAction (action : String) (actionObject : A)
  | setFinished

variable {K V A : Type}

def dependencies (eventObject : EventObject K V A) : List K := eventObject.dependOn.getD []

/-- What a worker does between its dependencies and the flag. -/
def conditionsAndActions (eventObject : EventObject K V A) : List (Instruction K V A) :=
  eventObject.seconds.toList.map .sleep ++
    (eventObject.command.toList ++ eventObject.commands.getD []).map .call ++
    (eventObject.doObject.getD []).map fun action => .executeAction action.1 action.2

def run (eventObject : EventObject K V A) : List (Instruction K V A) :=
  (dependencies eventObject).map .awaitFinished ++ conditionsAndActions eventObject ++
    [.setFinished]

theorem conditionsAndActions_no_await (e : EventObject K V A) (d : K) :
    Instruction.awaitFinished d ∉ conditionsAndActions e := by
  simp [conditionsAndActions]

theorem not_finished_early (e : EventObject K V A) :
    Instruction.setFinished ∉ (dependencies e).map .awaitFinished ++ conditionsAndActions e := by
  simp [conditionsAndActions]

variable {e : EventObject K V A} {pre post : List (Instruction K V A)} {i : Instruction K V A}

/-- The flag is the last thing that a worker sets. -/
theorem setFinished_last (h : run e = pre ++ .setFinished :: post) :
    pre = (dependencies e).map .awaitFinished ++ conditionsAndActions e ∧ post = [] := by
  have hsplit := (List.append_cons_inj_of_notMem (not_finished_early e) List.not_mem_nil).mp h
  exact ⟨hsplit.1.symm, hsplit.2.2.symm⟩

theorem setFinished_not_passed (h : run e = pre ++ i :: post) : .setFinished ∉ pre := by
  intro hmem
  obtain ⟨before, after, rfl⟩ := List.append_of_mem hmem
  have h : run e = before ++ .setFinished :: (after ++ i :: post) := by
    simpa using h
  have hlast := (setFinished_last h).2
  simp at hlast

/-- At an element that is not of the first part, the whole first part has gone. -/
theorem past_first {α : Type*} {first second before after : List α} {b : α}
    (h : first ++ second = before ++ b :: after) (hb : b ∉ first) :
    ∃ middle, before = first ++ middle ∧ second = middle ++ b :: after := by
  rcases List.append_eq_append_iff.mp h with ⟨middle, hbefore, hsecond⟩ | ⟨middle, hfirst, hrest⟩
  · exact ⟨middle, hbefore, hsecond⟩
  · cases middle with
    | nil => exact ⟨[], by simpa using hfirst.symm, by simpa using hrest.symm⟩
    | cons c middle =>
      obtain ⟨rfl, _⟩ := List.cons_eq_cons.mp hrest
      exact absurd (by simp [hfirst]) hb

theorem mem_of_past {α : Type*} {first second before after : List α} {a b : α}
    (h : first ++ second = before ++ b :: after) (hb : b ∉ first) (ha : a ∈ first) :
    a ∈ before := by
  obtain ⟨middle, rfl, _⟩ := past_first h hb
  exact List.mem_append_left _ ha

/-- A worker that is past its dependencies has waited for all of them. -/
theorem awaits_passed (h : run e = pre ++ i :: post) (hi : ∀ d, i ≠ .awaitFinished d) {d : K}
    (hd : d ∈ dependencies e) : .awaitFinished d ∈ pre := by
  rw [run, List.append_assoc] at h
  apply mem_of_past h
  · intro hmem
    obtain ⟨d', _, rfl⟩ := List.mem_map.mp hmem
    exact hi d' rfl
  · exact List.mem_map_of_mem hd

/-- A worker that is at a dependency has waited for the ones listed before it. -/
theorem awaits_in_order {d : K} (h : run e = pre ++ .awaitFinished d :: post) :
    ∃ before after, dependencies e = before ++ d :: after ∧ pre = before.map .awaitFinished := by
  rw [run, List.append_assoc] at h
  have hno : Instruction.awaitFinished d ∉ conditionsAndActions e ++ [.setFinished] := by
    simp [conditionsAndActions_no_await]
  rcases List.append_eq_append_iff.mp h with ⟨middle, _, hrest⟩ | ⟨middle, hdeps, hrest⟩
  · simp [hrest] at hno
  · cases middle with
    | nil =>
      rw [List.nil_append] at hrest
      simp [← hrest] at hno
    | cons j middle =>
      obtain ⟨rfl, _⟩ := List.cons_eq_cons.mp hrest
      obtain ⟨before, after, hsplit, rfl, hafter⟩ := List.map_eq_append_iff.mp hdeps
      obtain ⟨d', after, rfl, hd', _⟩ := List.map_eq_cons_iff.mp hafter
      cases hd'
      exact ⟨before, after, hsplit, rfl⟩

/-- How an instruction comes back. An action that nothing handles returns no exit code. -/
inductive Outcome where
  | returned (exitCode : Option ℤ)
  | raised
  deriving DecidableEq

/-- A command that fails ends the worker, a failing action does not, and an exception does. -/
def Instruction.goesOn : Instruction K V A → Outcome → Bool
  | _, .raised => false
  | .call _, .returned exitCode => exitCode = some 0
  | _, .returned _ => true

/-- The `events` map of the configuration, in the order in which `threads` is iterated. -/
structure Events (K V A : Type) where
  entries : List (K × EventObject K V A)
  nodup_keys : (entries.map Prod.fst).Nodup

def Events.keys (events : Events K V A) : List K := events.entries.map Prod.fst

/-- What the main thread does behind the joins, call by call. -/
inductive CleanUp where
  | composeDown
  | removeFile
  | deleteAllNetworks
  deriving DecidableEq

inductive MainInstruction (K V A : Type) where
  | start (event : K) (eventObject : EventObject K V A)
  | join (event : K)
  | cleanUp (part : CleanUp)

def cleanUps : List CleanUp := [.composeDown, .removeFile, .deleteAllNetworks]

def mainProgram (events : Events K V A) : List (MainInstruction K V A) :=
  (events.entries.map fun entry => .start entry.1 entry.2) ++ events.keys.map .join ++
    cleanUps.map .cleanUp

/-- A thread that has not been started is `none`; one that is no longer alive has nothing left. -/
structure State (K V A : Type) where
  threads : K → Option (List (Instruction K V A))
  threadsFinished : K → Option Bool
  main : List (MainInstruction K V A)

inductive Label (K V A : Type) where
  | started (event : K)
  | worked (event : K) (instruction : Instruction K V A) (outcome : Outcome)
  | joined (event : K)
  | cleanedUp (part : CleanUp)

variable [DecidableEq K]

def initial (events : Events K V A) : State K V A where
  threads _ := none
  threadsFinished event := if event ∈ events.keys then some false else none
  main := mainProgram events

/-- The outcomes that an instruction can have in a state. A dependency that is an event but has not
finished has none: the worker spins. One that is no event is a `KeyError`. -/
def Returns (int : V → Option ℤ) (s : State K V A) : Instruction K V A → Outcome → Prop
  | .awaitFinished dependOn, .returned exitCode =>
    exitCode = none ∧ s.threadsFinished dependOn = some true
  | .awaitFinished dependOn, .raised => s.threadsFinished dependOn = none
  | .sleep seconds, .returned exitCode => exitCode = none ∧ ∃ n, int seconds = some n ∧ 0 ≤ n
  | .sleep seconds, .raised => ∀ n, int seconds = some n → n < 0
  | .call _, .returned exitCode => exitCode.isSome
  | .call _, .raised => False
  | .executeAction _ _, _ => True
  | .setFinished, .returned exitCode => exitCode = none
  | .setFinished, .raised => False

def afterWork (s : State K V A) (event : K) (instruction : Instruction K V A)
    (rest : List (Instruction K V A)) (outcome : Outcome) : State K V A :=
  { s with
    threads := Function.update s.threads event
      (some (if instruction.goesOn outcome then rest else []))
    threadsFinished := match instruction with
      | .setFinished => Function.update s.threadsFinished event (some true)
      | _ => s.threadsFinished }

inductive Step (int : V → Option ℤ) : State K V A → Label K V A → State K V A → Prop where
  | start (s : State K V A) (event : K) (eventObject : EventObject K V A)
      (rest : List (MainInstruction K V A)) (hm : s.main = .start event eventObject :: rest) :
      Step int s (.started event)
        { s with
          threads := Function.update s.threads event (some (run eventObject))
          main := rest }
  | work (s : State K V A) (event : K) (instruction : Instruction K V A)
      (rest : List (Instruction K V A)) (outcome : Outcome)
      (ht : s.threads event = some (instruction :: rest))
      (ho : Returns int s instruction outcome) :
      Step int s (.worked event instruction outcome) (afterWork s event instruction rest outcome)
  | join (s : State K V A) (event : K) (rest : List (MainInstruction K V A))
      (hm : s.main = .join event :: rest) (ht : s.threads event = some []) :
      Step int s (.joined event) { s with main := rest }
  | cleanUp (s : State K V A) (part : CleanUp) (rest : List (MainInstruction K V A))
      (hm : s.main = .cleanUp part :: rest) : Step int s (.cleanedUp part) { s with main := rest }

/-- A run with its trace, newest first. -/
inductive Run (int : V → Option ℤ) (events : Events K V A) :
    List (Label K V A) → State K V A → Prop where
  | init : Run int events [] (initial events)
  | step {tr : List (Label K V A)} {s s' : State K V A} {l : Label K V A} :
      Run int events tr s → Step int s l s' → Run int events (l :: tr) s'

def DependsOn (events : Events K V A) (event dependOn : K) : Prop :=
  ∃ eventObject, (event, eventObject) ∈ events.entries ∧ dependOn ∈ dependencies eventObject

/-- What an event has got through in a trace, oldest first. -/
def passing (event : K) : Label K V A → List (Instruction K V A)
  | .worked event' instruction outcome =>
    if event' = event ∧ instruction.goesOn outcome then [instruction] else []
  | _ => []

def passed (event : K) : List (Label K V A) → List (Instruction K V A)
  | [] => []
  | l :: tr => passed event tr ++ passing event l

/-- The events whose flag a label sets. -/
def finishes : Label K V A → Option K
  | .worked event .setFinished _ => some event
  | _ => none

def finishLog (tr : List (Label K V A)) : List K := tr.filterMap finishes

variable {int : V → Option ℤ} {events : Events K V A} {tr earlier later : List (Label K V A)}
  {s s' : State K V A} {l : Label K V A} {event d : K} {o : Outcome}

omit [DecidableEq K] in
@[simp] theorem finishLog_cons (l : Label K V A) (tr : List (Label K V A)) :
    finishLog (l :: tr) = (finishes l).toList ++ finishLog tr := by
  cases h : finishes l <;> simp [finishLog, h]

theorem passing_of_ne {event' : K} (h : event' ≠ event) :
    passing event (.worked event' i o : Label K V A) = [] := by
  simp [passing, h]

omit [DecidableEq K] in
theorem Events.mem_keys (h : (event, e) ∈ events.entries) : event ∈ events.keys :=
  List.mem_map_of_mem h

omit [DecidableEq K] in
theorem Events.entry_unique {e' : EventObject K V A} (h : (event, e) ∈ events.entries)
    (h' : (event, e') ∈ events.entries) : e = e' := by
  have hsame := List.inj_on_of_nodup_map events.nodup_keys h h' rfl
  exact (Prod.ext_iff.mp hsame).2

omit [DecidableEq K] in
theorem await_met (h : Returns int s (.awaitFinished d) o)
    (hgo : (Instruction.awaitFinished d : Instruction K V A).goesOn o) :
    s.threadsFinished d = some true := by
  cases o with
  | returned exitCode => exact h.2
  | raised => cases hgo

omit [DecidableEq K] in
theorem await_unknown (h : Returns int s (.awaitFinished d) o)
    (hgo : ¬(Instruction.awaitFinished d : Instruction K V A).goesOn o) :
    s.threadsFinished d = none := by
  cases o with
  | returned exitCode => exact absurd rfl hgo
  | raised => exact h

omit [DecidableEq K] in
theorem setFinished_goesOn (h : Returns int s .setFinished o) :
    (Instruction.setFinished : Instruction K V A).goesOn o := by
  cases o with
  | returned exitCode => rfl
  | raised => exact h.elim

/-- A worker stands in its program where the trace left it, or has ended at an instruction that
did not let it go on. -/
def Progress (events : Events K V A) (tr : List (Label K V A)) (event : K) :
    Option (List (Instruction K V A)) → Prop
  | none => passed event tr = []
  | some rest => ∃ e, (event, e) ∈ events.entries ∧ (run e = passed event tr ++ rest ∨
      rest = [] ∧ ∃ i post, run e = passed event tr ++ i :: post ∧ i ≠ .setFinished ∧
        ∀ d, i = .awaitFinished d → d ∉ events.keys)

/-- What the trace says of the workers and of their flags. -/
structure Consistent (events : Events K V A) (tr : List (Label K V A)) (s : State K V A) :
    Prop where
  progress : ∀ event, Progress events tr event (s.threads event)
  flags : ∀ event, s.threadsFinished event =
    if event ∈ events.keys then some (decide (event ∈ finishLog tr)) else none
  finished : ∀ event, event ∈ finishLog tr ↔ .setFinished ∈ passed event tr
  awaited : ∀ event d, .awaitFinished d ∈ passed event tr → d ∈ finishLog tr
  schedule : Schedule (DependsOn events) (finishLog tr)

theorem Consistent.flag_true (h : Consistent events tr s) :
    s.threadsFinished event = some true ↔ event ∈ events.keys ∧ event ∈ finishLog tr := by
  rw [h.flags]
  split_ifs <;> simp_all

theorem Consistent.flag_none (h : Consistent events tr s) :
    s.threadsFinished event = none ↔ event ∉ events.keys := by
  rw [h.flags]
  split_ifs <;> simp_all

theorem Consistent.alive {rest : List (Instruction K V A)} (h : Consistent events tr s)
    (ht : s.threads event = some (i :: rest)) :
    ∃ e, (event, e) ∈ events.entries ∧ run e = passed event tr ++ i :: rest := by
  have hp := h.progress event
  rw [ht] at hp
  obtain ⟨e, he, hrun | ⟨hnil, _⟩⟩ := hp
  · exact ⟨e, he, hrun⟩
  · cases hnil

/-- A step that is not a worker's leaves everything said of the workers alone. -/
theorem Consistent.of_quiet (h : Consistent events tr s) (hpass : ∀ event, passing event l = [])
    (hfin : finishes l = none) (hflags : s'.threadsFinished = s.threadsFinished)
    (hthreads : ∀ event, s'.threads event = s.threads event ∨
      s.threads event = none ∧ ∃ e, (event, e) ∈ events.entries ∧
        s'.threads event = some (run e)) : Consistent events (l :: tr) s' := by
  have hlog : finishLog (l :: tr) = finishLog tr := by
    simp [hfin]
  have hpassed : ∀ event, passed event (l :: tr) = passed event tr := by
    intro event
    simp [passed, hpass]
  constructor
  · intro event
    have hp := h.progress event
    rcases hthreads event with hsame | ⟨hnone, e, he, hsome⟩
    · rw [hsame]
      simpa only [Progress, hpassed] using hp
    · rw [hnone] at hp
      rw [hsome]
      refine ⟨e, he, .inl ?_⟩
      rw [hpassed, show passed event tr = [] from hp, List.nil_append]
  · rw [hflags, hlog]
    exact h.flags
  · simpa only [hlog, hpassed] using h.finished
  · simpa only [hlog, hpassed] using h.awaited
  · rw [hlog]
    exact h.schedule

/-- A worker that comes to its flag has seen all of its dependencies finish, and sets it once. -/
theorem Consistent.can_finish {rest : List (Instruction K V A)} (h : Consistent events tr s)
    (ht : s.threads event = some (.setFinished :: rest)) :
    event ∉ finishLog tr ∧ ∀ d, DependsOn events event d → d ∈ finishLog tr := by
  obtain ⟨e, he, hrun⟩ := h.alive ht
  constructor
  · rw [h.finished]
    exact setFinished_not_passed hrun
  · rintro d ⟨e', he', hd⟩
    obtain rfl := events.entry_unique he he'
    exact h.awaited event d (awaits_passed hrun (by simp) hd)

omit [DecidableEq K] in
theorem finishes_other (hi : i ≠ .setFinished) :
    finishes (.worked event i o : Label K V A) = none := by
  cases i with
  | setFinished => exact absurd rfl hi
  | _ => rfl

theorem afterWork_flags_other {rest : List (Instruction K V A)} (hi : i ≠ .setFinished) :
    (afterWork s event i rest o).threadsFinished = s.threadsFinished := by
  cases i with
  | setFinished => exact absurd rfl hi
  | _ => rfl

theorem Consistent.progress_work {rest : List (Instruction K V A)} (h : Consistent events tr s)
    (ht : s.threads event = some (i :: rest)) (ho : Returns int s i o) (event' : K) :
    Progress events (.worked event i o :: tr) event'
      ((afterWork s event i rest o).threads event') := by
  by_cases hsame : event' = event
  · subst hsame
    obtain ⟨e, he, hrun⟩ := h.alive ht
    simp only [afterWork, Function.update_self]
    by_cases hgo : i.goesOn o
    · refine ⟨e, he, .inl ?_⟩
      simp [passed, passing, hgo, hrun]
    · rw [if_neg hgo]
      refine ⟨e, he, .inr ⟨rfl, i, rest, ?_, ?_, ?_⟩⟩
      · simp [passed, passing, hgo, hrun]
      · rintro rfl
        exact hgo (setFinished_goesOn ho)
      · rintro d rfl
        exact h.flag_none.mp (await_unknown ho hgo)
  · have hp := h.progress event'
    simp only [afterWork, Function.update_of_ne hsame]
    simpa only [Progress, passed, passing_of_ne (Ne.symm hsame), List.append_nil] using hp

theorem mem_passed_work {j : Instruction K V A} {event' : K} :
    j ∈ passed event' (.worked event i o :: tr) ↔
      j ∈ passed event' tr ∨ event = event' ∧ i.goesOn o ∧ j = i := by
  by_cases h : event = event' ∧ i.goesOn o
  · simp [passed, passing, h]
  · simp only [passed, passing, if_neg h, List.append_nil]
    tauto

theorem Consistent.work {rest : List (Instruction K V A)} (h : Consistent events tr s)
    (ht : s.threads event = some (i :: rest)) (ho : Returns int s i o) :
    Consistent events (.worked event i o :: tr) (afterWork s event i rest o) := by
  obtain ⟨e, he, hrun⟩ := h.alive ht
  have hawaited : ∀ event' d, .awaitFinished d ∈ passed event' (.worked event i o :: tr) →
      d ∈ finishLog tr := by
    intro event' d hd
    rcases mem_passed_work.mp hd with hd | ⟨_, hgo, rfl⟩
    · exact h.awaited event' d hd
    · exact (h.flag_true.mp (await_met ho hgo)).2
  by_cases hi : i = .setFinished
  · subst hi
    have hlog : finishLog (.worked event .setFinished o :: tr) = event :: finishLog tr := rfl
    obtain ⟨hnew, hdeps⟩ := h.can_finish ht
    constructor
    · exact h.progress_work ht ho
    · intro event'
      by_cases hsame : event' = event
      · subst hsame
        simp [afterWork, hlog, events.mem_keys he]
      · simp [afterWork, hlog, hsame, h.flags]
    · intro event'
      rw [hlog, List.mem_cons, mem_passed_work, h.finished]
      simp only [setFinished_goesOn ho, and_true]
      tauto
    · intro event' d hd
      rw [hlog]
      exact List.mem_cons_of_mem _ (hawaited event' d hd)
    · rw [hlog]
      exact h.schedule.finish hnew hdeps
  · have hlog : finishLog (.worked event i o :: tr) = finishLog tr := by
      simp [finishes_other hi]
    constructor
    · exact h.progress_work ht ho
    · rw [hlog, afterWork_flags_other hi]
      exact h.flags
    · intro event'
      rw [hlog, mem_passed_work, h.finished]
      constructor
      · exact .inl
      · rintro (hmem | ⟨_, _, heq⟩)
        · exact hmem
        · exact absurd heq.symm hi
    · rw [hlog]
      exact hawaited
    · rw [hlog]
      exact h.schedule

/-- The main thread has started what it has gone past, and joins only what has ended. -/
def MainConsistent (events : Events K V A) (s : State K V A) : Prop :=
  ∃ gone, mainProgram events = gone ++ s.main ∧
    (∀ event, s.threads event = none ↔ ∀ e, .start event e ∉ gone) ∧
    ∀ event, .join event ∈ gone → s.threads event = some []

def startedEvent : MainInstruction K V A → Option K
  | .start event _ => some event
  | _ => none

omit [DecidableEq K] in
theorem mainProgram_starts (events : Events K V A) :
    (mainProgram events).filterMap startedEvent = events.keys := by
  have hstart : events.entries.filterMap
      (startedEvent ∘ fun entry : K × EventObject K V A => .start entry.1 entry.2) =
        events.keys := by
    simp [Function.comp_def, startedEvent, Events.keys]
  have hjoin : events.keys.filterMap
      (startedEvent ∘ (MainInstruction.join : K → MainInstruction K V A)) = [] := by
    simp [Function.comp_def, startedEvent]
  have hclean : cleanUps.filterMap
      (startedEvent ∘ (MainInstruction.cleanUp : CleanUp → MainInstruction K V A)) = [] := by
    simp [Function.comp_def, startedEvent]
  simp only [mainProgram, List.filterMap_append, List.filterMap_map, hstart, hjoin, hclean,
    List.append_nil]

omit [DecidableEq K] in
/-- The main thread starts each event once. -/
theorem start_fresh {gone rest : List (MainInstruction K V A)}
    (h : mainProgram events = gone ++ .start event e :: rest) :
    (event, e) ∈ events.entries ∧ ∀ e', .start event e' ∉ gone := by
  constructor
  · have hmem : MainInstruction.start event e ∈ mainProgram events := by
      simp [h]
    simpa [mainProgram] using hmem
  · intro e' hmem
    have hnodup : events.keys.Nodup := events.nodup_keys
    rw [← mainProgram_starts, h, List.filterMap_append] at hnodup
    have hgone : event ∈ gone.filterMap startedEvent :=
      List.mem_filterMap.mpr ⟨_, hmem, rfl⟩
    exact List.disjoint_of_nodup_append hnodup hgone (by simp [startedEvent])

theorem MainConsistent.step (h : MainConsistent events s) (hstep : Step int s l s') :
    MainConsistent events s' := by
  obtain ⟨gone, hprogram, hstarted, hjoined⟩ := h
  cases hstep with
  | start event e rest hm =>
    rw [hm] at hprogram
    have hfresh := (hstarted event).mpr (start_fresh hprogram).2
    refine ⟨gone ++ [.start event e], by simpa using hprogram, ?_, ?_⟩
    · intro event'
      by_cases hsame : event' = event
      · subst hsame
        simp only [Function.update_self, reduceCtorEq, false_iff, not_forall, not_not]
        exact ⟨e, by simp⟩
      · simp [hstarted event', hsame]
    · intro event' hmem
      have hended : s.threads event' = some [] := hjoined event' (by simpa using hmem)
      have hne : event' ≠ event := by
        rintro rfl
        rw [hfresh] at hended
        cases hended
      simpa [Function.update_of_ne hne] using hended
  | work event i rest o ht ho =>
    refine ⟨gone, hprogram, ?_, ?_⟩
    · intro event'
      rw [← hstarted event']
      by_cases hsame : event' = event
      · subst hsame
        simp [afterWork, ht]
      · simp [afterWork, Function.update_of_ne hsame]
    · intro event' hmem
      have hended := hjoined event' hmem
      have hne : event' ≠ event := by
        rintro rfl
        rw [ht] at hended
        cases hended
      simpa [afterWork, Function.update_of_ne hne] using hended
  | join event rest hm ht =>
    rw [hm] at hprogram
    refine ⟨gone ++ [.join event], by simpa using hprogram, ?_, ?_⟩
    · intro event'
      simp [hstarted event']
    · intro event' hmem
      rcases List.mem_append.mp hmem with hmem | hmem
      · exact hjoined event' hmem
      · cases List.mem_singleton.mp hmem
        exact ht
  | cleanUp part rest hm =>
    rw [hm] at hprogram
    refine ⟨gone ++ [.cleanUp part], by simpa using hprogram, ?_, ?_⟩
    · intro event'
      simp [hstarted event']
    · intro event' hmem
      exact hjoined event' (by simpa using hmem)

theorem initial_consistent (events : Events K V A) : Consistent events [] (initial events) := by
  constructor
  · intro event
    rfl
  · intro event
    simp [initial, finishLog]
  · simp [finishLog, passed]
  · simp [passed]
  · exact .nil

theorem initial_mainConsistent (events : Events K V A) : MainConsistent events (initial events) :=
  ⟨[], rfl, by simp [initial], by simp⟩

theorem run_consistent (hr : Run int events tr s) :
    Consistent events tr s ∧ MainConsistent events s := by
  induction hr with
  | init => exact ⟨initial_consistent events, initial_mainConsistent events⟩
  | @step tr s s' l hr hstep ih =>
    refine ⟨?_, ih.2.step hstep⟩
    cases hstep with
    | start event e rest hm =>
      obtain ⟨gone, hprogram, hstarted, _⟩ := ih.2
      rw [hm] at hprogram
      obtain ⟨he, hfresh⟩ := start_fresh hprogram
      refine ih.1.of_quiet (fun _ => rfl) rfl rfl fun event' => ?_
      by_cases hsame : event' = event
      · subst hsame
        exact .inr ⟨(hstarted event').mpr hfresh, e, he, Function.update_self ..⟩
      · exact .inl (Function.update_of_ne hsame ..)
    | work event i rest o ht ho => exact ih.1.work ht ho
    | join event rest hm ht => exact ih.1.of_quiet (fun _ => rfl) rfl rfl fun _ => .inl rfl
    | cleanUp part rest hm => exact ih.1.of_quiet (fun _ => rfl) rfl rfl fun _ => .inl rfl

/-- What had happened before a label, and the step that it was. -/
theorem Run.split (hr : Run int events tr s) (htr : tr = later ++ l :: earlier) :
    ∃ s₀ s₁, Run int events earlier s₀ ∧ Step int s₀ l s₁ := by
  induction hr generalizing later with
  | init => simp at htr
  | step hr hstep ih =>
    cases later with
    | nil =>
      obtain ⟨rfl, rfl⟩ := List.cons_eq_cons.mp htr
      exact ⟨_, _, hr, hstep⟩
    | cons _ later =>
      obtain ⟨_, rfl⟩ := List.cons_eq_cons.mp htr
      exact ih rfl

/-- An event that has finished has got through its whole program. -/
theorem Consistent.whole_program (h : Consistent events tr s) (hd : d ∈ finishLog tr) :
    s.threads d = some [] ∧ ∃ e, (d, e) ∈ events.entries ∧ passed d tr = run e := by
  have hmem := (h.finished d).mp hd
  have hp := h.progress d
  cases ht : s.threads d with
  | none =>
    rw [ht] at hp
    rw [show passed d tr = [] from hp] at hmem
    cases hmem
  | some rest =>
    rw [ht] at hp
    obtain ⟨e, he, hrun | ⟨_, i, post, hrun, _⟩⟩ := hp
    · cases rest with
      | nil => exact ⟨rfl, e, he, by simpa using hrun.symm⟩
      | cons i rest => exact absurd hmem (setFinished_not_passed hrun)
    · exact absurd hmem (setFinished_not_passed hrun)

omit [DecidableEq K] in
/-- The main thread cleans up last, when no worker is alive. -/
theorem MainConsistent.cleanUp_last {part : CleanUp} {rest : List (MainInstruction K V A)}
    (h : MainConsistent events s) (hm : s.main = .cleanUp part :: rest) :
    (∃ before after, cleanUps = before ++ part :: after ∧ rest = after.map .cleanUp) ∧
      ∀ event ∈ events.keys, s.threads event = some [] := by
  obtain ⟨gone, hprogram, _, hjoined⟩ := h
  rw [hm, mainProgram] at hprogram
  have hno : MainInstruction.cleanUp part ∉
      (events.entries.map fun entry : K × EventObject K V A => .start entry.1 entry.2) ++
        events.keys.map .join := by
    simp
  obtain ⟨middle, _, hclean⟩ := past_first hprogram hno
  obtain ⟨before, rest', hsplit, _, hrest'⟩ := List.map_eq_append_iff.mp hclean
  obtain ⟨part', after, rfl, hpart, hafter⟩ := List.map_eq_cons_iff.mp hrest'
  cases hpart
  refine ⟨⟨before, after, hsplit, hafter.symm⟩, fun event he => hjoined event ?_⟩
  apply mem_of_past hprogram hno
  exact List.mem_append_right _ (List.mem_map_of_mem he)

/-- Once the clean-up has begun, the trace goes on with its parts and with nothing else. -/
theorem Run.cleaning {part : CleanUp} (hr : Run int events (later ++ .cleanedUp part :: earlier) s) :
    ∃ before done rest, cleanUps = before ++ part :: (done ++ rest) ∧
      later = (done.map .cleanedUp).reverse ∧ s.main = rest.map .cleanUp ∧
      ∀ event ∈ events.keys, s.threads event = some [] := by
  induction later generalizing s with
  | nil =>
    cases hr with
    | step hr hstep =>
      cases hstep with
      | cleanUp part rest hm =>
        obtain ⟨⟨before, after, hsplit, rfl⟩, hended⟩ := (run_consistent hr).2.cleanUp_last hm
        exact ⟨before, [], after, hsplit, rfl, rfl, hended⟩
  | cons l later ih =>
    cases hr with
    | step hr hstep =>
      obtain ⟨before, done, rest, hsplit, rfl, hmain, hended⟩ := ih hr
      cases hstep with
      | start event e rest' hm =>
        rw [hmain] at hm
        cases rest <;> cases hm
      | join event rest' hm ht =>
        rw [hmain] at hm
        cases rest <;> cases hm
      | work event i rest' o ht ho =>
        obtain ⟨e, he, _⟩ := (run_consistent hr).1.alive ht
        rw [hended event (events.mem_keys he)] at ht
        cases ht
      | cleanUp part' rest' hm =>
        rw [hmain] at hm
        obtain ⟨part₁, rest, rfl, hpart, rfl⟩ := List.map_eq_cons_iff.mp hm
        cases hpart
        refine ⟨before, done ++ [part'], rest, by simpa using hsplit, ?_, rfl, hended⟩
        simp

/-- Whatever the interleaving, an event works only after everything that it depends on has got
through its whole program; and once the clean-up begins, every worker has ended and only the rest
of the clean-up follows. -/
theorem dependencies_first (hr : Run int events tr s) :
    (∀ later event i o earlier, tr = later ++ .worked event i o :: earlier →
      (∀ d, i ≠ .awaitFinished d) → ∀ d, TransGen (DependsOn events) event d →
        ∃ e, (d, e) ∈ events.entries ∧ passed d earlier = run e) ∧
    ∀ later part earlier, tr = later ++ .cleanedUp part :: earlier →
      (∃ before done rest, cleanUps = before ++ part :: (done ++ rest) ∧
        later = (done.map .cleanedUp).reverse) ∧
      ∀ event ∈ events.keys, s.threads event = some [] := by
  constructor
  · intro later event i o earlier htr hi d hd
    obtain ⟨s₀, s₁, hr₀, hstep⟩ := hr.split htr
    have h₀ := (run_consistent hr₀).1
    cases hstep with
    | work event i rest o ht ho =>
      obtain ⟨e, he, hrun⟩ := h₀.alive ht
      have hdirect : ∀ d', DependsOn events event d' → d' ∈ finishLog earlier := by
        rintro d' ⟨e', he', hd'⟩
        obtain rfl := events.entry_unique he he'
        exact h₀.awaited event d' (awaits_passed hrun hi hd')
      exact (h₀.whole_program (h₀.schedule.behind hdirect hd)).2
  · rintro later part earlier rfl
    obtain ⟨before, done, rest, hsplit, hlater, _, hended⟩ := hr.cleaning
    exact ⟨⟨before, done, rest, hsplit, hlater⟩, hended⟩

/-- The first two events of `example-containers.yaml`, whose `do` map keeps its last entry. -/
def containerEvents : Events String ℤ (List String) where
  entries := [
    ("event1", { seconds := some 2, doObject := some [("stopContainer", ["node2"])] }),
    ("event2", { dependOn := some ["event1"], seconds := some 2,
                 doObject := some [("startContainer", ["node2"])] })]
  nodup_keys := by decide

def containerTrace : List (Label String ℤ (List String)) := [
  .cleanedUp .deleteAllNetworks, .cleanedUp .removeFile, .cleanedUp .composeDown,
  .joined "event2", .worked "event2" .setFinished (.returned none),
  .worked "event2" (.executeAction "startContainer" ["node2"]) (.returned (some 0)),
  .worked "event2" (.sleep 2) (.returned none), .joined "event1",
  .worked "event2" (.awaitFinished "event1") (.returned none),
  .worked "event1" .setFinished (.returned none),
  .worked "event1" (.executeAction "stopContainer" ["node2"]) (.returned (some 1)),
  .started "event2", .worked "event1" (.sleep 2) (.returned none), .started "event1"]

theorem containerTrace_run : ∃ s, Run some containerEvents containerTrace s := by
  refine ⟨_, ((((((((((((((Run.init.step (.start _ _ _ _ rfl)).step (.work _ _ _ _ _ rfl ?_)).step
    (.start _ _ _ _ rfl)).step (.work _ _ _ _ _ rfl ?_)).step (.work _ _ _ _ _ rfl ?_)).step
    (.work _ _ _ _ _ rfl ?_)).step (.join _ _ _ rfl rfl)).step (.work _ _ _ _ _ rfl ?_)).step
    (.work _ _ _ _ _ rfl ?_)).step (.work _ _ _ _ _ rfl ?_)).step (.join _ _ _ rfl rfl)).step
    (.cleanUp _ _ _ rfl)).step (.cleanUp _ _ _ rfl)).step (.cleanUp _ _ _ rfl))⟩
  · exact ⟨rfl, 2, rfl, by decide⟩
  · trivial
  · rfl
  · exact ⟨rfl, rfl⟩
  · exact ⟨rfl, 2, rfl, by decide⟩
  · trivial
  · rfl

theorem containers_dependencies_first : ∃ s : State String ℤ (List String),
    (∀ later event i o earlier, containerTrace = later ++ .worked event i o :: earlier →
      (∀ d, i ≠ .awaitFinished d) → ∀ d, TransGen (DependsOn containerEvents) event d →
        ∃ e, (d, e) ∈ containerEvents.entries ∧ passed d earlier = run e) ∧
    ∀ later part earlier, containerTrace = later ++ .cleanedUp part :: earlier →
      (∃ before done rest, cleanUps = before ++ part :: (done ++ rest) ∧
        later = (done.map .cleanedUp).reverse) ∧
      ∀ event ∈ containerEvents.keys, s.threads event = some [] := by
  obtain ⟨s, hr⟩ := containerTrace_run
  exact ⟨s, dependencies_first hr⟩

end EventWorker
