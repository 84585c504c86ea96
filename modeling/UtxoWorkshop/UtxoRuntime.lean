import UtxoWorkshop.UtxoChainSpec
import UtxoWorkshop.UtxoValidation

/-! Whole runs of the chain: blocks that open with `on_initialize`, take any calls from any
origins, and close with `on_finalize`. A run remembers its transitions, newest first; `Effect`
says once what a single transition can do, and every invariant is proved from it. -/
namespace UtxoRuntime

open MachineWords ScaleCodec KeyedStore UtxoTransaction UtxoPallet UtxoValidation UtxoChainSpec

inductive Call where
  | spend (transaction : Transaction)
  | setAuthor (author : Public)
  deriving DecidableEq

inductive Action (N : Type) where
  | onInitialize (n : N)
  | call (origin : Origin) (c : Call)
  | onFinalize
  deriving DecidableEq

inductive Phase where
  | closed
  | opened
  deriving DecidableEq

/-- The transaction of a call to `spend`. -/
def Action.transaction {N : Type} : Action N → Option Transaction
  | .call _ (.spend t) => some t
  | _ => none

def Action.opens {N : Type} : Action N → Option N
  | .onInitialize n => some n
  | _ => none

def Phase.next {N : Type} : Phase → Action N → Option Phase
  | .closed, .onInitialize _ => some .opened
  | .opened, .call _ _ => some .opened
  | .opened, .onFinalize => some .closed
  | _, _ => none

structure Transition (N : Type) where
  state : State N
  action : Action N

section Runs

variable {N : Type} [BlockNumber N] (E : Env N)

def Call.dispatch : Call → Origin → Dispatch N Unit
  | .spend transaction, origin => UtxoPallet.spend E origin transaction
  | .setAuthor author, origin => UtxoPallet.setAuthor origin author

/-- A failed call keeps what it wrote before it failed; `none` is a panic of the block. -/
def next (s : State N) : Action N → Option (State N)
  | .onInitialize n => some (onInitialize n s)
  | .call origin c =>
    match (c.dispatch E origin).run s with
    | .ok _ s' => some s'
    | .error _ s' => some s'
  | .onFinalize => onFinalize E s

inductive Run (genesisUtxos : List TransactionOutput) :
    Phase → List (Transition N) → State N → Prop where
  | genesis : Run genesisUtxos .closed [] (genesisState E genesisUtxos)
  | step {p p' tr s a s'} : Run genesisUtxos p tr s → p.next a = some p' → next E s a = some s' →
      Run genesisUtxos p' (⟨s, a⟩ :: tr) s'

def execute : List (Action N) → Phase × List (Transition N) × State N →
    Option (Phase × List (Transition N) × State N)
  | [], r => some r
  | a :: rest, (p, tr, s) => do
    let p' ← p.next a
    let s' ← next E s a
    execute rest (p', ⟨s, a⟩ :: tr, s')

def start (genesisUtxos : List TransactionOutput) : Phase × List (Transition N) × State N :=
  (.closed, [], genesisState E genesisUtxos)

end Runs

variable {N : Type} [BlockNumber N] {E : Env N} {genesisUtxos : List TransactionOutput}

omit [BlockNumber N] in
theorem Phase.next_onInitialize {p p' : Phase} {n : N} (h : p.next (.onInitialize n) = some p') :
    p = .closed ∧ p' = .opened := by
  cases p with
  | opened => cases h
  | closed =>
    cases h
    exact ⟨rfl, rfl⟩

omit [BlockNumber N] in
theorem Phase.next_call {p p' : Phase} {o : Origin} {c : Call}
    (h : p.next (.call o c : Action N) = some p') : p = .opened ∧ p' = .opened := by
  cases p with
  | closed => cases h
  | opened =>
    cases h
    exact ⟨rfl, rfl⟩

omit [BlockNumber N] in
theorem Phase.next_onFinalize {p p' : Phase} (h : p.next (.onFinalize : Action N) = some p') :
    p = .opened ∧ p' = .closed := by
  cases p with
  | closed => cases h
  | opened =>
    cases h
    exact ⟨rfl, rfl⟩

theorem run_of_execute {actions : List (Action N)} {p p' : Phase} {tr tr' : List (Transition N)}
    {s s' : State N} (h : Run E genesisUtxos p tr s)
    (he : execute E actions (p, tr, s) = some (p', tr', s')) : Run E genesisUtxos p' tr' s' := by
  induction actions generalizing p tr s with
  | nil =>
    cases he
    exact h
  | cons a rest ih =>
    simp only [execute, Option.bind_eq_bind, Option.bind_eq_some_iff] at he
    obtain ⟨q, hq, t, ht, he⟩ := he
    exact ih (h.step hq ht) he

theorem run_of_execute_get {actions : List (Action N)}
    (h : (execute E actions (start E genesisUtxos)).isSome) :
    Run E genesisUtxos (Option.get _ h).1 (Option.get _ h).2.1 (Option.get _ h).2.2 :=
  run_of_execute .genesis (Option.some_get h).symm

/-- The reward goes into the store and empties the total. -/
def afterReward (E : Env N) (s : State N) (utxo : TransactionOutput) : State N where
  utxoStore := s.utxoStore.insert (rewardHash E s utxo) utxo
  rewardTotal := 0
  author := s.author
  blockNumber := s.blockNumber
  events := s.events ++ [.rewardsIssued utxo.value (rewardHash E s utxo)]

inductive Effect (E : Env N) (s : State N) : Action N → State N → Prop where
  | initialized (n : N) : Effect E s (.onInitialize n) (onInitialize n s)
  | spent (o t) (total : Value) (hs : Spendable E s t)
      (ht : s.rewardTotal.val + (credit s t).val = total.val) :
      Effect E s (.call o (.spend t)) (afterSpend E s t total)
  | rejected (o t e) (he : (UtxoPallet.spend E o t).run s = .error e s) :
      Effect E s (.call o (.spend t)) s
  | declared (author) (hn : s.author = none) :
      Effect E s (.call .none (.setAuthor author)) { s with author := some author }
  | refused (o author) (h : o ≠ .none ∨ s.author ≠ none) : Effect E s (.call o (.setAuthor author)) s
  | wasted (hn : s.author = none) : Effect E s .onFinalize (s.depositEvent .rewardsWasted)
  | rewarded (author utxo) (ha : s.author = some author)
      (hu : rewardUtxo E s author = some utxo) : Effect E s .onFinalize (afterReward E s utxo)

omit [BlockNumber N] in
theorem setAuthor_run (o : Origin) (author : Public) (s : State N) :
    (setAuthor o author).run s =
      if o ≠ .none then .error .badOrigin s
      else if s.author ≠ none then .error .authorAlreadySet s
      else .ok () { s with author := some author } := by
  simp only [setAuthor, EStateM.run_bind, ensure_run]
  by_cases ho : o = .none
  · by_cases ha : s.author = none
    · simp [ho, ha]
    · simp [ho, ha]
  · simp [ho]

theorem rewardUtxo_val {s : State N} {author : Public} {utxo : TransactionOutput}
    (h : rewardUtxo E s author = some utxo) :
    ∃ issuance, E.issuance s.blockNumber = some issuance ∧ utxo.pubkey = author ∧
      utxo.value.val = (s.rewardTotal.val + issuance.val) % 2 ^ 128 := by
  simp only [rewardUtxo, Option.bind_eq_bind, Option.bind_eq_some_iff] at h
  obtain ⟨issuance, hi, reward, hr, h⟩ := h
  cases h
  exact ⟨issuance, hi, rfl, plainAdd_val hr⟩

theorem onFinalize_eq_some {s s' : State N} (h : onFinalize E s = some s') :
    s.author = none ∧ s' = s.depositEvent .rewardsWasted ∨
      ∃ author utxo, s.author = some author ∧ rewardUtxo E s author = some utxo ∧
        s' = afterReward E s utxo := by
  cases ha : s.author with
  | none =>
    simp only [onFinalize, ha, Option.some.injEq] at h
    exact Or.inl ⟨rfl, h.symm⟩
  | some author =>
    simp only [onFinalize, ha, disperseReward, Option.bind_eq_bind, Option.bind_eq_some_iff] at h
    obtain ⟨utxo, hu, h⟩ := h
    refine Or.inr ⟨author, utxo, rfl, hu, ?_⟩
    rw [← Option.some.inj h, afterReward, ha]
    rfl

theorem next_effect {s s' : State N} {a : Action N} (h : next E s a = some s') :
    Effect E s a s' := by
  cases a with
  | onInitialize n =>
    cases h
    exact .initialized n
  | call o c =>
    cases c with
    | spend t =>
      simp only [next, Call.dispatch] at h
      cases hr : (UtxoPallet.spend E o t).run s with
      | ok _ s₁ =>
        rw [hr] at h
        cases h
        obtain ⟨hs, total, ht, rfl⟩ := spend_eq_ok.mp hr
        exact .spent o t total hs ht
      | error e s₁ =>
        rw [hr] at h
        cases h
        obtain rfl := spend_error hr
        exact .rejected o t e hr
    | setAuthor author =>
      simp only [next, Call.dispatch, setAuthor_run] at h
      by_cases ho : o = .none
      · by_cases ha : s.author = none
        · simp only [ho, ha, ne_eq, not_true_eq_false, if_false] at h
          cases h
          subst ho
          exact .declared author ha
        · simp only [ho, ha, ne_eq, not_true_eq_false, not_false_eq_true, if_false, if_true] at h
          cases h
          exact .refused o author (Or.inr ha)
      · simp only [ho, ne_eq, not_false_eq_true, if_true] at h
        cases h
        exact .refused o author (Or.inl ho)
  | onFinalize =>
    rcases onFinalize_eq_some h with ⟨ha, rfl⟩ | ⟨author, utxo, ha, hu, rfl⟩
    · exact .wasted ha
    · exact .rewarded author utxo ha hu

/-- What every transition preserves holds after every run. -/
theorem Run.invariant {I : List (Transition N) → State N → Prop}
    (hg : I [] (genesisState E genesisUtxos))
    (hstep : ∀ tr s a s', Effect E s a s' → I tr s → I (⟨s, a⟩ :: tr) s') {p : Phase}
    {tr : List (Transition N)} {s : State N} (h : Run E genesisUtxos p tr s) : I tr s := by
  induction h with
  | genesis => exact hg
  | step _ _ hn ih => exact hstep _ _ _ _ (next_effect hn) ih

/-- Where each transition of a kind adds no more than its own share, a run of them adds no more than
all the shares. -/
theorem Run.sum_le {f : State N → ℕ} {share : Transition N → ℕ} {C : Transition N → Prop} {c : ℕ}
    (hg : f (genesisState E genesisUtxos) ≤ c)
    (hstep : ∀ {s s' : State N} {a : Action N}, Effect E s a s' → C ⟨s, a⟩ →
      f s' ≤ f s + share ⟨s, a⟩) {p : Phase} {tr : List (Transition N)} {s : State N}
    (h : Run E genesisUtxos p tr s) (hC : ∀ x ∈ tr, C x) : f s ≤ c + (tr.map share).sum := by
  revert hC
  apply h.invariant (I := fun tr s => (∀ x ∈ tr, C x) → f s ≤ c + (tr.map share).sum)
  · intro _
    exact hg.trans (Nat.le_add_right _ _)
  · intro tr s a s' he ih hC
    obtain ⟨hx, hrest⟩ := List.forall_mem_cons.mp hC
    have hone := hstep he hx
    have hbefore := ih hrest
    rw [List.map_cons, List.sum_cons]
    omega

/-- The transaction a transition spent, if it did. -/
def Transition.spent (E : Env N) (x : Transition N) : Option Transaction :=
  match x.action with
  | .call o (.spend t) =>
    match (UtxoPallet.spend E o t).run x.state with
    | .ok _ _ => some t
    | .error _ _ => none
  | _ => none

/-- The reward a transition paid out, if it did. -/
def Transition.reward (E : Env N) (x : Transition N) : Option TransactionOutput :=
  match x.action with
  | .onFinalize => x.state.author.bind (rewardUtxo E x.state)
  | _ => none

omit [BlockNumber N] in
theorem spent_of_ok {s s' : State N} {o : Origin} {t : Transaction} (h : (spend E o t).run s = .ok () s') :
    Transition.spent E ⟨s, .call o (.spend t)⟩ = some t := by
  simp only [Transition.spent, h]

omit [BlockNumber N] in
theorem spent_run {x : Transition N} {t : Transaction} (h : x.spent E = some t) :
    ∃ o s', x.action = .call o (.spend t) ∧ (spend E o t).run x.state = .ok () s' := by
  obtain ⟨s, a⟩ := x
  cases a with
  | onInitialize n => cases h
  | onFinalize => cases h
  | call o c =>
    cases c with
    | setAuthor author => cases h
    | spend u =>
      cases hr : (spend E o u).run s with
      | ok _ s' =>
        rw [spent_of_ok hr] at h
        cases h
        exact ⟨o, s', rfl, hr⟩
      | error e s' =>
        simp only [Transition.spent, hr] at h
        cases h

omit [BlockNumber N] in
theorem spent_spendable {x : Transition N} {t : Transaction} (h : x.spent E = some t) :
    Spendable E x.state t := by
  obtain ⟨o, s', -, hr⟩ := spent_run h
  exact (spend_eq_ok.mp hr).1

theorem reward_action {x : Transition N} {utxo : TransactionOutput} (h : x.reward E = some utxo) :
    x.action = .onFinalize := by
  obtain ⟨s, a⟩ := x
  cases a with
  | onInitialize n => cases h
  | call o c => cases h
  | onFinalize => rfl

/-- Block 1 of the demo: Alice declares herself its author and pays Bob. -/
def demoBlock : List (Action U32) :=
  [.onInitialize 1, .call .none (.setAuthor alice), .call (.signed alice) (.spend demoTransaction),
    .onFinalize]

theorem demoBlock_executes :
    (execute demo demoBlock (start demo (testnetGenesis [alice, bob]))).isSome := by
  decide +kernel

def demoRun : Phase × List (Transition U32) × State U32 := Option.get _ demoBlock_executes

theorem demoRun_run : Run demo (testnetGenesis [alice, bob]) demoRun.1 demoRun.2.1 demoRun.2.2 := by
  rw [demoRun]
  exact run_of_execute_get demoBlock_executes

end UtxoRuntime
